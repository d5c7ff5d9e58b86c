/-
GraphQL.Proofs.CycleDetection — validation misses no cyclic fragments.

To check a fragment (`Validation.isCyclic`), validation goes through the spreads in it, and
through those of the fragments they name, until it comes to the fragment itself. Each
fragment is entered once and is gone from then on, also for names that are still pending.
`LeadsTo` says which names a way through some fragments leads from.

* `Validation.LeadsTo.leave` — a way does not need a fragment twice: it avoids the fragment,
  or one from a spread in it does.
* `Validation.reaches_of_leadsTo` — hence the search finds its target wherever a way leads
  to it, by induction on how many fragments are left.
* `Validation.acyclic_of_valid` — a valid document has no cyclic fragments.
-/
import GraphQL.Proofs.FragmentCycles
import GraphQL.Proofs.Traversal

namespace GraphQL

open Relation

/-- The fragments that are left once those of a name are entered. -/
theorem Fragment.find?_others {available : List Fragment} {entered name : String}
    (h : name ≠ entered) :
    (available.filter fun g => g.name != entered).find? (fun f => f.name == name) =
      available.find? fun f => f.name == name := by
  rw [List.find?_filter]
  congr 1
  funext g
  by_cases hg : g.name = name
  · simp [hg, h]
  · simp [hg]

namespace Validation

/-- Spreads lead from a name to the target, each in the body of an available fragment. -/
inductive LeadsTo (available : List Fragment) (target : String) : String → Prop
  | here : LeadsTo available target target
  | through {name next : String} {f : Fragment}
      (hf : (available.find? fun f => f.name == name) = some f)
      (hnext : next ∈ f.selections.spreads) (h : LeadsTo available target next) :
      LeadsTo available target name

variable {available : List Fragment} {target name : String} {f : Fragment}

/-- A way avoids a fragment from its start on, or from the last spread in the fragment on. -/
theorem LeadsTo.leave (h : LeadsTo available target name)
    (hf : (available.find? fun g => g.name == f.name) = some f) :
    LeadsTo (available.filter fun g => g.name != f.name) target name ∨
      ∃ next ∈ f.selections.spreads,
        LeadsTo (available.filter fun g => g.name != f.name) target next := by
  induction h with
  | here => exact .inl .here
  | @through name next g hg hnext _ ih =>
    rcases ih with hlater | hlater
    · by_cases hname : name = f.name
      · subst hname
        obtain rfl := Option.some.inj (hf.symm.trans hg)
        exact .inr ⟨next, hnext, hlater⟩
      · exact .inl (.through ((Fragment.find?_others hname).trans hg) hnext hlater)
    · exact .inr hlater

/-- When the search enters the fragment of the first pending name, a way from a pending name
leaves one from a spread in the fragment or from a name further on. -/
theorem LeadsTo.enter {rest : List String} (hname : name ∈ f.name :: rest)
    (h : LeadsTo available target name) (hne : f.name ≠ target)
    (hf : (available.find? fun g => g.name == f.name) = some f) :
    ∃ next ∈ f.selections.spreads ++ rest,
      LeadsTo (available.filter fun g => g.name != f.name) target next := by
  rcases h.leave hf with hlater | ⟨next, hnext, hlater⟩
  · rcases List.mem_cons.1 hname with rfl | hrest
    · -- the fragment is gone, so nothing leads from its name any more
      cases hlater with
      | here => exact absurd rfl hne
      | through hf' =>
        have hother := (List.mem_filter.1 (List.mem_of_find?_eq_some hf')).2
        exact absurd (by simpa using List.find?_some hf') (bne_iff_ne.1 hother)
    · exact ⟨name, List.mem_append_right _ hrest, hlater⟩
  · exact ⟨next, List.mem_append_left _ hnext, hlater⟩

/-- The search misses no way that leads from a pending name. -/
theorem reaches_of_leadsTo {n : Nat} (hn : available.length ≤ n) {pending : List String}
    (hname : name ∈ pending) (h : LeadsTo available target name) :
    reaches target n available pending = true := by
  induction n generalizing available pending name with
  | zero =>
    obtain rfl := List.length_eq_zero_iff.1 (Nat.le_zero.1 hn)
    cases h with
    | here => exact List.contains_iff_mem.2 hname
    | through hf => simp at hf
  | succ n ih =>
    rw [reaches]
    induction pending with
    | nil => exact absurd hname List.not_mem_nil
    | cons first rest ihrest =>
      rw [throughPending]
      by_cases hfirst : first = target
      · rw [if_pos hfirst]
      rw [if_neg hfirst]
      cases hf : available.find? fun f => f.name == first with
      | none =>
        rcases List.mem_cons.1 hname with rfl | hrest
        · cases h with
          | here => exact absurd rfl hfirst
          | through hf' => simp [hf] at hf'
        · exact ihrest hrest
      | some f =>
        obtain rfl : f.name = first := by simpa using List.find?_some hf
        have hlength := Scope.length_others (List.mem_of_find?_eq_some hf)
        obtain ⟨next, hnext, hlater⟩ := h.enter hname hfirst hf
        exact ih (by omega) hnext hlater

/-- Where spreads lead from one fragment to another, a way leads from a spread in the one to
the name of the other. -/
theorem leadsTo_of_spreads {fragments : Registry Fragment} {g : Fragment}
    (h : TransGen (Fragment.Spreads fragments) f g) :
    ∃ name ∈ f.selections.spreads, LeadsTo fragments.items g.name name := by
  induction h using TransGen.head_induction_on with
  | single hspreads =>
    obtain ⟨name, hname, hget⟩ := hspreads
    obtain rfl := (Registry.mem_of_get? hget).2
    exact ⟨_, hname, .here⟩
  | head hspreads _ ih =>
    obtain ⟨name, hname, hget⟩ := hspreads
    obtain ⟨next, hnext, hleads⟩ := ih
    exact ⟨name, hname, .through hget hnext hleads⟩

/-- A fragment that leads back to itself is found to be cyclic. -/
theorem isCyclic_of_spreads {fragments : Registry Fragment}
    (h : TransGen (Fragment.Spreads fragments) f f) : isCyclic fragments f = true := by
  obtain ⟨name, hname, hleads⟩ := leadsTo_of_spreads h
  exact reaches_of_leadsTo (Nat.le_refl _) hname hleads

/-- What nothing is found wrong with in the definition of a fragment. -/
theorem of_mem_fragment {s : Schema} {d : Document} (h : findings s d = [])
    (hf : .fragment f ∈ d.definitions) :
    conditionFindings s f.condition f.position = [] ∧
      selectionFindings s d.fragments.contains f.selections (conditionType? s f.condition) = [] ∧
        isCyclic d.fragments f = false := by
  have hdefinition := List.flatMap_eq_nil_iff.1 h _ hf
  rw [definitionFindings] at hdefinition
  obtain ⟨hbody, hcycle⟩ := List.append_eq_nil_iff.1 hdefinition
  obtain ⟨hcondition, hselections⟩ := List.append_eq_nil_iff.1 hbody
  refine ⟨hcondition, hselections, ?_⟩
  by_contra hcyclic
  rw [if_pos (Bool.eq_true_of_not_eq_false hcyclic)] at hcycle
  exact List.cons_ne_nil _ _ hcycle

/-- A valid document has no cyclic fragments. -/
theorem acyclic_of_valid {s : Schema} {d : Document} (h : findings s d = []) :
    ¬ d.FragmentsCycle := by
  rintro ⟨f, hf⟩
  obtain ⟨g, -, name, -, hget⟩ := TransGen.tail'_iff.1 hf
  have hmem := Document.mem_of_mem_fragments (Registry.mem_of_get? hget).1
  have hcyclic := (of_mem_fragment h hmem).2.2
  rw [isCyclic_of_spreads hf] at hcyclic
  exact Bool.noConfusion hcyclic

end Validation

end GraphQL
