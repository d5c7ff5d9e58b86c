/-
GraphQL.Proofs.CycleSearch — the search for cyclic fragments finds exactly those.

To check a fragment, names are taken from a stack that starts with the spreads in it. The
name of the fragment ends the search, a name that was taken before is dropped, and any other
name leaves the spreads of its fragment on the stack, if there is such a fragment. This is
the search round by round (`Search.round`); `Validation.isCyclic`, which enters each fragment
at most once, comes to the same.

* `Document.get?_fragments` — which fragment a name stands for.
* `Search.exists_ends` — every search ends: a round drops a name, or there is one fragment
  less that has not been taken.
* `Search.Covers.round`, `Search.found_iff` — what has been taken leads nowhere but to what
  is taken or pending, so nothing is missed when nothing is pending; by induction on the
  rounds.
* `Validation.isCyclic_iff` — `isCyclic` finds the fragments that reach themselves.
* `Fragment.wellFounded_spreads` — where none does, spreading is well-founded.
-/
import Mathlib.Data.Set.Card
import GraphQL.Proofs.CycleDetection

namespace GraphQL

open Relation

/-! ## Names of fragments -/

/-- The last item of a name is the one that is registered. -/
theorem Registry.get?_ofList {α : Type} [Named α] (xs : List α) (name : String) :
    (ofList xs).get? name = xs.reverse.find? fun x => Named.name x == name := by
  induction xs using List.reverseRecOn with
  | nil => rfl
  | append_singleton xs x ih =>
    rw [ofList, List.foldl_append, List.foldl_cons, List.foldl_nil, get?_insert, ← ofList, ih,
      List.reverse_append, List.reverse_singleton, List.singleton_append, List.find?_cons]
    by_cases hname : Named.name x = name
    · simp [hname]
    · simp [hname, beq_eq_false_iff_ne.2 hname]

/-- Of several fragments with a name the last that is defined is the one it stands for. -/
def Document.LastDefined (d : Document) (name : String) (f : Fragment) : Prop :=
  ∃ before after, d.definitions = before ++ .fragment f :: after ∧ f.name = name ∧
    ∀ g, .fragment g ∈ after → g.name ≠ name

theorem Document.get?_fragments {d : Document} {name : String} {f : Fragment} :
    d.fragments.get? name = some f ↔ d.LastDefined name f := by
  rw [fragments, Registry.get?_ofList]
  constructor
  · intro h
    obtain ⟨hname, later, earlier, heq, hlater⟩ := List.find?_eq_some_iff_append.1 h
    have hsplit := congrArg List.reverse heq
    rw [List.reverse_reverse, List.reverse_append, List.reverse_cons, List.append_assoc,
      List.singleton_append] at hsplit
    obtain ⟨before, rest, hdefinitions, -, hrest⟩ := List.filterMap_eq_append_iff.1 hsplit
    obtain ⟨between, x, after, rfl, -, hx, hafter⟩ := List.filterMap_eq_cons_iff.1 hrest
    cases x with
    | operation o => cases hx
    | fragment f' =>
      obtain rfl := Option.some.inj hx
      refine ⟨before ++ between, after, by rw [hdefinitions, List.append_assoc],
        beq_iff_eq.1 hname, fun g hg hsame => ?_⟩
      have hmem : g ∈ later.reverse := hafter ▸ List.mem_filterMap.2 ⟨_, hg, rfl⟩
      have hother := hlater g (List.mem_reverse.1 hmem)
      simp [show Named.name g = name from hsame] at hother
  · rintro ⟨before, after, heq, hname, hafter⟩
    have hfirst : (Named.name f == name) = true := beq_iff_eq.2 hname
    simp only [heq, List.filterMap_append, List.filterMap_cons, List.reverse_append,
      List.reverse_cons, List.find?_append, List.find?_singleton, hfirst, if_true]
    rw [List.find?_eq_none.2 fun g hg => ?_, Option.none_or, Option.some_or]
    obtain ⟨x, hx, hxg⟩ := List.mem_filterMap.1 (List.mem_reverse.1 hg)
    cases x with
    | operation o => cases hxg
    | fragment g' =>
      obtain rfl := Option.some.inj hxg
      have hother : Named.name g' ≠ name := hafter g' hx
      simp [hother]

namespace Fragment

/-- The fragment of one name has a spread of the other name somewhere in it. Nothing leads on
from an unknown name. -/
def SpreadsName (fragments : Registry Fragment) (name next : String) : Prop :=
  ∃ f, fragments.get? name = some f ∧ next ∈ f.selections.spreads

/-- Spreads lead from the body of a fragment to its own name. -/
def ReachesItself (fragments : Registry Fragment) (f : Fragment) : Prop :=
  ∃ name ∈ f.selections.spreads, ReflTransGen (SpreadsName fragments) name f.name

end Fragment

namespace Validation

/-! ## The search round by round -/

/-- A search in progress: the names that were taken, and the stack of those still pending. -/
structure Search where
  taken : List String
  pending : List String

/-- What a name leaves on the stack: the spreads of its fragment, the last one on top. -/
def spreadsOf (fragments : Registry Fragment) (name : String) : List String :=
  match fragments.get? name with
  | some f => f.selections.spreads.reverse
  | none => []

namespace Search

/-- The search from the spreads of a fragment. -/
def start (f : Fragment) : Search := ⟨[], f.selections.spreads.reverse⟩

/-- One round: the search is over, with or without its target, or goes on. -/
def round (fragments : Registry Fragment) (target : String) : Search → Bool ⊕ Search
  | ⟨_, []⟩ => .inl false
  | ⟨taken, name :: rest⟩ =>
    if name = target then .inl true
    else if taken.contains name then .inr ⟨taken, rest⟩
    else .inr ⟨name :: taken, spreadsOf fragments name ++ rest⟩

/-- A search ends after some rounds: it has found its target, or it has not. -/
inductive Ends (fragments : Registry Fragment) (target : String) : Search → Bool → Prop
  | last {x : Search} {found : Bool} (h : x.round fragments target = .inl found) :
      Ends fragments target x found
  | more {x y : Search} {found : Bool} (h : x.round fragments target = .inr y)
      (hy : Ends fragments target y found) : Ends fragments target x found

variable {fragments : Registry Fragment} {target : String} {x y : Search} {found : Bool}

/-- How a search goes on: with a name that was taken before, or with a new one. -/
theorem round_eq_inr (h : x.round fragments target = .inr y) :
    ∃ name rest, x.pending = name :: rest ∧ name ≠ target ∧
      (name ∈ x.taken ∧ y = ⟨x.taken, rest⟩ ∨
        name ∉ x.taken ∧ y = ⟨name :: x.taken, spreadsOf fragments name ++ rest⟩) := by
  obtain ⟨taken, _ | ⟨name, rest⟩⟩ := x
  · simp [round] at h
  · rw [round] at h
    split at h
    · cases h
    · next hne =>
      refine ⟨name, rest, rfl, hne, ?_⟩
      split at h
      · next htaken => exact .inl ⟨List.contains_iff_mem.1 htaken, (Sum.inr.inj h).symm⟩
      · next hnew =>
        exact .inr ⟨fun hmem => hnew (List.contains_iff_mem.2 hmem), (Sum.inr.inj h).symm⟩

/-- How a search is over: nothing is pending, or its target is next. -/
theorem round_eq_inl (h : x.round fragments target = .inl found) :
    found = false ∧ x.pending = [] ∨ found = true ∧ ∃ rest, x.pending = target :: rest := by
  obtain ⟨taken, _ | ⟨name, rest⟩⟩ := x
  · exact .inl ⟨(Sum.inl.inj h).symm, rfl⟩
  · rw [round] at h
    split at h
    · next heq => exact .inr ⟨(Sum.inl.inj h).symm, rest, by rw [heq]⟩
    · split at h <;> cases h

theorem mem_spreadsOf {name next : String} :
    next ∈ spreadsOf fragments name ↔ Fragment.SpreadsName fragments name next := by
  unfold spreadsOf Fragment.SpreadsName
  cases fragments.get? name <;> simp

/-! ## Every search ends -/

/-- The fragments whose names were not taken. -/
def left (fragments : Registry Fragment) (x : Search) : List Fragment :=
  fragments.items.filter fun f => !x.taken.contains f.name

/-- When a new name is taken its fragments are no longer left. -/
theorem left_take (taken pending pending' : List String) (name : String) :
    left fragments ⟨name :: taken, pending'⟩ =
      (left fragments ⟨taken, pending⟩).filter fun f => f.name != name := by
  rw [left, left, List.filter_filter]
  congr 1
  funext f
  by_cases hname : f.name = name <;> simp [hname]

/-- A round leaves fewer fragments, or as many and fewer pending names. -/
theorem round_lt (h : x.round fragments target = .inr y) :
    Prod.Lex (· < ·) (· < ·) ((y.left fragments).length, y.pending.length)
      ((x.left fragments).length, x.pending.length) := by
  obtain ⟨taken, pending⟩ := x
  obtain ⟨name, rest, rfl, -, ⟨-, rfl⟩ | ⟨hnew, rfl⟩⟩ := round_eq_inr h
  · exact .right _ (Nat.lt_succ_self _)
  · rw [left_take taken (name :: rest)]
    cases hf : fragments.get? name with
    | none =>
      -- no fragment has the name, so all are left that were
      have hall : ∀ f ∈ left fragments ⟨taken, name :: rest⟩, (f.name != name) = true := by
        intro f hf'
        have hne := List.find?_eq_none.1 hf f (List.mem_filter.1 hf').1
        exact bne_iff_ne.2 fun heq => hne (beq_iff_eq.2 heq)
      rw [List.filter_eq_self.2 hall]
      refine .right _ ?_
      simp [spreadsOf, hf]
    | some f =>
      obtain ⟨hmem, rfl⟩ := Registry.mem_of_get? hf
      refine .left _ _ (Scope.length_others (List.mem_filter.2 ⟨hmem, ?_⟩))
      have hnot : f.name ∉ taken := hnew
      simpa using hnot

/-- Every search ends. -/
theorem exists_ends (fragments : Registry Fragment) (target : String) (x : Search) :
    ∃ found, Ends fragments target x found := by
  cases h : x.round fragments target with
  | inl found => exact ⟨found, .last h⟩
  | inr y =>
    obtain ⟨found, hy⟩ := exists_ends fragments target y
    exact ⟨found, .more h hy⟩
termination_by ((x.left fragments).length, x.pending.length)
decreasing_by exact round_lt h

/-! ## What a search finds -/

/-- The target was not taken, and the names that were lead nowhere but to names that were or
that are pending. -/
def Covers (fragments : Registry Fragment) (target : String) (x : Search) : Prop :=
  ∀ name ∈ x.taken, name ≠ target ∧
    ∀ next, Fragment.SpreadsName fragments name next → next ∈ x.taken ++ x.pending

/-- The names of the search lead to its target. -/
def Leads (fragments : Registry Fragment) (target : String) (x : Search) : Prop :=
  ∃ name ∈ x.taken ++ x.pending, ReflTransGen (Fragment.SpreadsName fragments) name target

/-- A round keeps track of what was taken. -/
theorem Covers.round (hx : x.Covers fragments target)
    (h : x.round fragments target = .inr y) : y.Covers fragments target := by
  obtain ⟨taken, pending⟩ := x
  obtain ⟨name, rest, rfl, hne, ⟨htaken, rfl⟩ | ⟨-, rfl⟩⟩ := round_eq_inr h
  · intro old hold
    refine ⟨(hx old hold).1, fun next hnext => ?_⟩
    rcases List.mem_append.1 ((hx old hold).2 next hnext) with hmem | hmem
    · exact List.mem_append_left _ hmem
    · rcases List.mem_cons.1 hmem with rfl | hmem
      · exact List.mem_append_left _ htaken
      · exact List.mem_append_right _ hmem
  · intro old hold
    rcases List.mem_cons.1 hold with rfl | hold
    · refine ⟨hne, fun next hnext => List.mem_append_right _ ?_⟩
      exact List.mem_append_left _ (mem_spreadsOf.2 hnext)
    · refine ⟨(hx old hold).1, fun next hnext => ?_⟩
      have hmem := (hx old hold).2 next hnext
      simp only [List.mem_append, List.mem_cons] at hmem ⊢
      tauto

/-- A round goes on with names that lead to the target exactly if those before did: what is
new is what the name that was taken leads to. -/
theorem leads_round (h : x.round fragments target = .inr y) :
    y.Leads fragments target ↔ x.Leads fragments target := by
  obtain ⟨taken, pending⟩ := x
  obtain ⟨name, rest, rfl, -, ⟨htaken, rfl⟩ | ⟨-, rfl⟩⟩ := round_eq_inr h
  · constructor
    · rintro ⟨old, hold, hleads⟩
      refine ⟨old, ?_, hleads⟩
      simp only [List.mem_append, List.mem_cons] at hold ⊢
      tauto
    · rintro ⟨old, hold, hleads⟩
      refine ⟨old, ?_, hleads⟩
      simp only [List.mem_append, List.mem_cons] at hold ⊢
      rcases hold with hold | rfl | hold
      · exact .inl hold
      · exact .inl htaken
      · exact .inr hold
  · constructor
    · rintro ⟨old, hold, hleads⟩
      simp only [List.mem_append, List.mem_cons, mem_spreadsOf] at hold
      rcases hold with (rfl | hold) | hnew | hold
      · exact ⟨old, by simp, hleads⟩
      · exact ⟨old, by simp [hold], hleads⟩
      · exact ⟨name, by simp, .head hnew hleads⟩
      · exact ⟨old, by simp [hold], hleads⟩
    · rintro ⟨old, hold, hleads⟩
      refine ⟨old, ?_, hleads⟩
      simp only [List.mem_append, List.mem_cons] at hold ⊢
      tauto

/-- Names that were taken lead to no target once nothing is pending. -/
theorem not_leads_of_pending (hx : x.Covers fragments target) (hpending : x.pending = []) :
    ¬ x.Leads fragments target := by
  rintro ⟨name, hname, hleads⟩
  rw [hpending, List.append_nil] at hname
  induction hleads using ReflTransGen.head_induction_on with
  | refl => exact (hx target hname).1 rfl
  | head hspreads _ ih =>
    have hnext := (hx _ hname).2 _ hspreads
    rw [hpending, List.append_nil] at hnext
    exact ih hnext

/-- A search finds its target exactly if its names lead there. -/
theorem found_iff (h : Ends fragments target x found) (hx : x.Covers fragments target) :
    found = true ↔ x.Leads fragments target := by
  induction h with
  | @last x found h =>
    rcases round_eq_inl h with ⟨rfl, hpending⟩ | ⟨rfl, rest, hpending⟩
    · exact iff_of_false Bool.false_ne_true (not_leads_of_pending hx hpending)
    · exact iff_of_true rfl ⟨target, by simp [hpending], .refl⟩
  | more h _ ih => exact (ih (hx.round h)).trans (leads_round h)

/-- The search for a fragment finds it exactly if it reaches itself. -/
theorem found_start_iff {f : Fragment} (h : Ends fragments f.name (start f) found) :
    found = true ↔ f.ReachesItself fragments := by
  have hcovers : (start f).Covers fragments f.name := fun _ hname =>
    absurd hname List.not_mem_nil
  rw [found_iff h hcovers]
  simp [Leads, start, Fragment.ReachesItself]

end Search

/-! ## The search that enters each fragment once -/

section

variable {available : List Fragment} {fragments : Registry Fragment} {target name : String}
  {f g : Fragment}

/-- A way through the fragments that are left is a way through all of them. -/
theorem LeadsTo.of_others (h : LeadsTo (available.filter fun g => g.name != f.name) target name) :
    LeadsTo available target name := by
  induction h with
  | here => exact .here
  | @through name next g hg hnext _ ih =>
    have hother := (List.mem_filter.1 (List.mem_of_find?_eq_some hg)).2
    obtain rfl : g.name = name := by simpa using List.find?_some hg
    exact .through ((Fragment.find?_others (bne_iff_ne.1 hother)).symm.trans hg) hnext ih

/-- What the search reaches, a way leads to from a pending name. -/
theorem leadsTo_of_reaches {n : Nat} {pending : List String}
    (h : reaches target n available pending = true) :
    ∃ name ∈ pending, LeadsTo available target name := by
  induction n generalizing available pending with
  | zero => exact ⟨target, List.contains_iff_mem.1 h, .here⟩
  | succ n ih =>
    rw [reaches] at h
    induction pending with
    | nil => cases h
    | cons first rest ihrest =>
      rw [throughPending] at h
      split at h
      · next heq => exact ⟨first, List.mem_cons_self, heq ▸ .here⟩
      · split at h
        · next f hf =>
          obtain ⟨name, hname, hleads⟩ := ih h
          rcases List.mem_append.1 hname with hname | hname
          · exact ⟨first, List.mem_cons_self, .through hf hname hleads.of_others⟩
          · exact ⟨name, List.mem_cons_of_mem _ hname, hleads.of_others⟩
        · obtain ⟨name, hname, hleads⟩ := ihrest h
          exact ⟨name, List.mem_cons_of_mem _ hname, hleads⟩

theorem leadsTo_iff :
    LeadsTo fragments.items target name ↔
      ReflTransGen (Fragment.SpreadsName fragments) name target := by
  constructor
  · intro h
    induction h with
    | here => exact .refl
    | through hf hnext _ ih => exact .head ⟨_, hf, hnext⟩ ih
  · intro h
    induction h using ReflTransGen.head_induction_on with
    | refl => exact .here
    | head hspreads _ ih =>
      obtain ⟨f, hf, hnext⟩ := hspreads
      exact .through hf hnext ih

/-- Validation finds a fragment cyclic exactly if it reaches itself. -/
theorem isCyclic_iff : isCyclic fragments f = true ↔ f.ReachesItself fragments := by
  constructor
  · intro h
    obtain ⟨name, hname, hleads⟩ := leadsTo_of_reaches h
    exact ⟨name, hname, leadsTo_iff.1 hleads⟩
  · rintro ⟨name, hname, hleads⟩
    exact reaches_of_leadsTo (Nat.le_refl _) hname (leadsTo_iff.2 hleads)

instance (fragments : Registry Fragment) (f : Fragment) : Decidable (f.ReachesItself fragments) :=
  decidable_of_iff _ isCyclic_iff

/-- The search round by round ends with what validation finds. -/
theorem Search.ends_start_iff {found : Bool} :
    Search.Ends fragments f.name (.start f) found ↔ found = isCyclic fragments f := by
  have hsame : ∀ {b}, Search.Ends fragments f.name (.start f) b → b = isCyclic fragments f :=
    fun h => Bool.eq_iff_iff.2 ((Search.found_start_iff h).trans isCyclic_iff.symm)
  refine ⟨hsame, ?_⟩
  rintro rfl
  obtain ⟨b, hb⟩ := Search.exists_ends fragments f.name (.start f)
  exact hsame hb ▸ hb

end

end Validation

/-! ## What is reported -/

/-- Whether a finding is about a cyclic fragment. -/
def Finding.isCycle (x : Finding) : Bool :=
  match x.error with
  | .cyclicFragment _ => true
  | _ => false

namespace Validation

section

variable {s : Schema}

theorem isCycle_conditionFindings {name : String} {p : Position} :
    ∀ x ∈ conditionFindings s name p, x.isCycle = false := by
  unfold conditionFindings
  split
  · split <;> simp [found, Finding.isCycle]
  · simp [found, Finding.isCycle]

theorem isCycle_argumentFindings {d : FieldDefinition} {f : FieldNode} :
    ∀ x ∈ argumentFindings d f, x.isCycle = false := by
  intro x hx
  obtain ⟨a, -, ha⟩ := List.mem_filterMap.1 hx
  split at ha
  · obtain rfl := Option.some.inj ha
    rfl
  · cases ha

theorem isCycle_fieldFindings {parent : String} {f : FieldNode} {hasSelection : Bool}
    {below : String → List Finding} (hbelow : ∀ t, ∀ x ∈ below t, x.isCycle = false) :
    ∀ x ∈ fieldFindings s parent f hasSelection below, x.isCycle = false := by
  unfold fieldFindings
  split
  · simp
  · split
    · simp [found, Finding.isCycle]
    · refine List.forall_mem_append.2 ⟨isCycle_argumentFindings, ?_⟩
      split
      · simp
      · split
        · simp [found, Finding.isCycle]
        · split
          · refine List.forall_mem_append.2 ⟨?_, hbelow _⟩
            split <;> simp [found, Finding.isCycle]
          · simp

/-- Cycles are not found in selections. -/
theorem isCycle_selectionFindings {known : String → Bool} {set : SelectionSet}
    {parent? : Option String} :
    ∀ x ∈ selectionFindings s known set parent?, x.isCycle = false := by
  induction set generalizing parent? with
  | nil => simp [selectionFindings]
  | field node sub rest ihs ih =>
    unfold selectionFindings
    refine List.forall_mem_append.2 ⟨?_, ih⟩
    cases parent? with
    | none => simp
    | some parent => exact isCycle_fieldFindings fun t => ihs
  | inline head sub rest ihs ih =>
    rw [selectionFindings]
    refine List.forall_mem_append.2 ⟨?_, ih⟩
    cases head.condition? with
    | none => exact ihs
    | some c => exact List.forall_mem_append.2 ⟨isCycle_conditionFindings, ihs⟩
  | spread sp rest ih =>
    rw [selectionFindings]
    refine List.forall_mem_append.2 ⟨?_, ih⟩
    split <;> simp [found, Finding.isCycle]

/-- The cycle that is to be reported for a definition: that of a fragment that reaches
itself. -/
def cycleReport (fragments : Registry Fragment) : Definition → List Finding
  | .operation _ => []
  | .fragment f =>
    if f.ReachesItself fragments then [found f.position (.cyclicFragment f.name)] else []

theorem filter_isCycle_definitionFindings (fragments : Registry Fragment) (x : Definition) :
    (definitionFindings s fragments x).filter Finding.isCycle = cycleReport fragments x := by
  have hnone : ∀ {xs : List Finding}, (∀ x ∈ xs, x.isCycle = false) →
      xs.filter Finding.isCycle = [] :=
    fun h => List.filter_eq_nil_iff.2 fun x hx => by simp [h x hx]
  cases x with
  | operation o => exact hnone isCycle_selectionFindings
  | fragment f =>
    rw [definitionFindings, List.filter_append, List.filter_append,
      hnone isCycle_conditionFindings, hnone isCycle_selectionFindings, cycleReport]
    simp only [isCyclic_iff, List.nil_append]
    split <;> rfl

end

end Validation

/-! ## Without cycles -/

namespace Fragment

variable {fragments : Registry Fragment}

/-- What a fragment leads to is among the fragments. -/
theorem mem_of_leads {f g : Fragment} (h : TransGen (Spreads fragments) f g) :
    g ∈ fragments.items := by
  obtain ⟨_, -, _, -, hget⟩ := TransGen.tail'_iff.1 h
  exact (Registry.mem_of_get? hget).1

/-- The fragments that a fragment leads to. -/
def below (fragments : Registry Fragment) (f : Fragment) : Set Fragment :=
  { g | TransGen (Spreads fragments) f g }

theorem finite_below (f : Fragment) : (below fragments f).Finite :=
  (List.finite_toSet fragments.items).subset fun _ hg => mem_of_leads hg

/-- A fragment that another one spreads leads to fewer fragments: not to itself, for one. -/
theorem ncard_below_lt (hcycle : ¬ ∃ f, TransGen (Spreads fragments) f f) {f g : Fragment}
    (h : Spreads fragments f g) : (below fragments g).ncard < (below fragments f).ncard := by
  have hsubset : below fragments g ⊆ below fragments f := fun _ hh => .head h hh
  have hself : g ∉ below fragments g := fun hg => hcycle ⟨g, hg⟩
  exact Set.ncard_lt_ncard ⟨hsubset, fun hback => hself (hback (.single h))⟩ (finite_below f)

/-- If no fragment leads back to itself, spreading is well-founded. -/
theorem wellFounded_spreads (hcycle : ¬ ∃ f, TransGen (Spreads fragments) f f) :
    WellFounded fun g f => Spreads fragments f g :=
  Subrelation.wf (fun h => ncard_below_lt hcycle h)
    (measure fun f => (below fragments f).ncard).wf

end Fragment

namespace Validation

/-- A document for which no cycle is found has none. -/
theorem acyclic_of_findings {s : Schema} {d : Document}
    (h : ∀ x ∈ findings s d, x.isCycle = false) : ¬ d.FragmentsCycle := by
  rintro ⟨f, hf⟩
  have hmem := Document.mem_of_mem_fragments (Fragment.mem_of_leads hf)
  have hreport : found f.position (.cyclicFragment f.name) ∈ findings s d := by
    refine List.mem_flatMap.2 ⟨.fragment f, hmem, ?_⟩
    rw [definitionFindings, if_pos (isCyclic_of_spreads hf)]
    exact List.mem_append_right _ List.mem_cons_self
  exact Bool.noConfusion (h _ hreport)

/-- The search for cyclic fragments is exact, and it ends. Names stand for the last fragment that
is defined with them; the search for a fragment ends with whether the fragment reaches itself;
validation reports one cycle for each definition of a fragment that does and no others; and
where it reports none, spreading is well-founded. -/
theorem cycles_found (s : Schema) (d : Document) :
    (∀ name f, d.fragments.get? name = some f ↔ d.LastDefined name f) ∧
    (∀ f found, Search.Ends d.fragments f.name (.start f) found ↔
      found = decide (f.ReachesItself d.fragments)) ∧
    (findings s d).filter Finding.isCycle = d.definitions.flatMap (cycleReport d.fragments) ∧
    ((∀ x ∈ findings s d, x.isCycle = false) →
      WellFounded fun g f => Fragment.Spreads d.fragments f g) := by
  refine ⟨fun _ _ => Document.get?_fragments, fun f found => ?_, ?_, fun h => ?_⟩
  · have hsame : isCyclic d.fragments f = decide (f.ReachesItself d.fragments) :=
      Bool.eq_iff_iff.2 (isCyclic_iff.trans decide_eq_true_iff.symm)
    rw [Search.ends_start_iff, hsame]
  · rw [findings, List.filter_flatMap]
    exact congrArg (List.flatMap · _) (funext fun x => filter_isCycle_definitionFindings _ x)
  · exact Fragment.wellFounded_spreads (acyclic_of_findings h)

/-- Spreads of some names, one after the other. -/
def spreading (names : List String) : SelectionSet :=
  names.foldr (fun name rest => .spread ⟨name, default, []⟩ rest) .nil

/-- A fragment on things. -/
def onThings (name : String) (selections : SelectionSet) : Fragment :=
  { name, position := default, condition := "Thing", directives := [], selections }

/-- Two fragments that spread each other, one of them in an inline fragment, and one outside the
circle that leads into it and spreads an unknown name as well. -/
def circle : Document :=
  let second := .inline { (default : InlineHead) with condition? := some "Ship" }
    (spreading ["second"]) .nil
  ⟨[.fragment (onThings "outside" (spreading ["unknown", "first"])),
    .fragment (onThings "first" second), .fragment (onThings "second" (spreading ["first"]))]⟩

/-- Two ways from one fragment to another, and none back. -/
def diamond : Document :=
  ⟨[.fragment (onThings "top" (spreading ["left", "right"])),
    .fragment (onThings "left" (spreading ["bottom"])),
    .fragment (onThings "right" (spreading ["bottom"])), .fragment (onThings "bottom" .nil)]⟩

theorem cycles_found_demo :
    Search.Ends circle.fragments "outside"
        (.start (onThings "outside" (spreading ["unknown", "first"]))) false ∧
      Search.Ends circle.fragments "second"
        (.start (onThings "second" (spreading ["first"]))) true ∧
      (findings demoSchema circle).filter Finding.isCycle =
        [found default (.cyclicFragment "first"), found default (.cyclicFragment "second")] ∧
      (∀ x ∈ findings demoSchema diamond, x.isCycle = false) ∧
      WellFounded fun g f => Fragment.Spreads diamond.fragments f g := by
  obtain ⟨-, hends, hfound, -⟩ := cycles_found demoSchema circle
  have hdiamond : ∀ x ∈ findings demoSchema diamond, x.isCycle = false := by decide +kernel
  refine ⟨(hends (onThings "outside" _) _).2 ?_, (hends (onThings "second" _) _).2 ?_,
    hfound.trans ?_, hdiamond, (cycles_found demoSchema diamond).2.2.2 hdiamond⟩
  all_goals decide +kernel

end Validation

end GraphQL
