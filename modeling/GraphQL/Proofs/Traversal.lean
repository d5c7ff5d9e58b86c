/-
GraphQL.Proofs.Traversal — what collection collects.

A chain of selections leads from a selection set to a field, through inline fragments and
named fragments that take part and apply to the object type (`Scope.Chain`). Its address
says which selection of a set it goes through at each step, so addresses in
lexicographic order are the order of the document. A chain may enter a fragment again
inside itself; collection does not.

* `Scope.Chain.exists_nodup` — a chain that enters a fragment twice can be shortened, so
  not entering it again loses no field.
* `Scope.listed_fieldsOn` — collection goes through the chains that enter no fragment
  inside itself, in the order of their addresses.
* `Scope.enterFragment_eq` — it ends on its own: fragments are entered inside each other
  at most as deep as there are fragments, cyclic or not.
* `Scope.collected_groupsOn` — hence what the groups of an object are.
-/
import GraphQL.Proofs.Grouping
import GraphQL.Proofs.Collecting

namespace GraphQL

/-! ## Fields in the order of addresses -/

/-- A list goes through the fields at some addresses in the order of the addresses. -/
def Listed (At : List Nat → Field → Prop) (fs : List Field) : Prop :=
  ∃ l : List (List Nat × Field), l.map Prod.snd = fs ∧
    l.Pairwise (fun x y => x.1 < y.1) ∧ ∀ a f, (a, f) ∈ l ↔ At a f

namespace Listed

variable {At At₀ At₁ : List Nat → Field → Prop} {fs fs₀ fs₁ : List Field} {f f' : Field}

theorem congr (h : Listed At₀ fs) (hiff : ∀ a f, At a f ↔ At₀ a f) : Listed At fs := by
  obtain ⟨l, hl, hsorted, hmem⟩ := h
  exact ⟨l, hl, hsorted, fun a f => (hmem a f).trans (hiff a f).symm⟩

theorem nil (h : ∀ a f, ¬ At a f) : Listed At [] :=
  ⟨[], rfl, .nil, fun a f => by simpa using h a f⟩

theorem mem_iff (h : Listed At fs) : f ∈ fs ↔ ∃ a, At a f := by
  obtain ⟨l, rfl, _, hmem⟩ := h
  simp [← hmem]

/-- The first address of a field that the list comes to before another is before all
addresses of the other. -/
theorem exists_lt (h : Listed At fs) (hbefore : MetBefore fs f f') :
    ∃ a, At a f ∧ ∀ a', At a' f' → a < a' := by
  obtain ⟨l, rfl, hsorted, hmem⟩ := h
  obtain ⟨before, after, heq, hnew, hne⟩ := hbefore
  obtain ⟨l₀, l₁, rfl, rfl, hl₁⟩ := List.map_eq_append_iff.1 heq
  obtain ⟨⟨a, f₀⟩, l₂, rfl, rfl, rfl⟩ := List.map_eq_cons_iff.1 hl₁
  refine ⟨a, (hmem a f₀).1 (by simp), fun a' hat => ?_⟩
  have hmem' := (hmem a' f').2 hat
  simp only [List.mem_append, List.mem_cons, Prod.mk.injEq] at hmem'
  rcases hmem' with hold | ⟨_, hsame⟩ | hlater
  · exact absurd (List.mem_map_of_mem hold) hnew
  · exact absurd hsame hne
  · exact (List.pairwise_cons.1 (List.pairwise_append.1 hsorted).2.1).1 _ hlater

/-- Fields below the first selection, and then those of the selections after it. -/
theorem append (h₀ : Listed At₀ fs₀) (h₁ : Listed At₁ fs₁) (hne : ∀ f, ¬ At₁ [] f)
    (hat : ∀ a f, At a f ↔
      (∃ b, a = 0 :: b ∧ At₀ b f) ∨ ∃ i b, a = (i + 1) :: b ∧ At₁ (i :: b) f) :
    Listed At (fs₀ ++ fs₁) := by
  obtain ⟨l₀, rfl, hsorted₀, hmem₀⟩ := h₀
  obtain ⟨l₁, rfl, hsorted₁, hmem₁⟩ := h₁
  have hcons : ∀ x ∈ l₁, ∃ i b, x.1 = i :: b := by
    rintro ⟨a, f⟩ hx
    cases a with
    | nil => exact absurd ((hmem₁ _ _).1 hx) (hne f)
    | cons i b => exact ⟨i, b, rfl⟩
  let first (x : List Nat × Field) : List Nat × Field := (0 :: x.1, x.2)
  let later (x : List Nat × Field) : List Nat × Field := (x.1.modifyHead (· + 1), x.2)
  refine ⟨l₀.map first ++ l₁.map later, by simp [first, later, Function.comp_def], ?_,
    fun a f => ?_⟩
  · refine List.pairwise_append.2 ⟨List.pairwise_map.2 ?_, List.pairwise_map.2 ?_, ?_⟩
    · exact hsorted₀.imp fun hlt => List.cons_lt_cons_iff.2 (.inr ⟨rfl, hlt⟩)
    · refine hsorted₁.imp_of_mem fun {x y} hx hy hlt => ?_
      obtain ⟨i, b, hi⟩ := hcons x hx
      obtain ⟨j, c, hj⟩ := hcons y hy
      simpa [hi, hj, List.cons_lt_cons_iff, later] using hlt
    · intro x hx y hy
      obtain ⟨x, _, rfl⟩ := List.mem_map.1 hx
      obtain ⟨y, hmem, rfl⟩ := List.mem_map.1 hy
      obtain ⟨j, c, hj⟩ := hcons y hmem
      simp [first, later, hj, List.cons_lt_cons_iff]
  · rw [hat, List.mem_append, List.mem_map, List.mem_map]
    refine or_congr ⟨?_, ?_⟩ ⟨?_, ?_⟩
    · rintro ⟨⟨b, f'⟩, hx, h⟩
      obtain ⟨rfl, rfl⟩ := Prod.mk.inj h
      exact ⟨b, rfl, (hmem₀ _ _).1 hx⟩
    · rintro ⟨b, rfl, h⟩
      exact ⟨(b, f), (hmem₀ _ _).2 h, rfl⟩
    · rintro ⟨x, hx, h⟩
      obtain ⟨i, b, hi⟩ := hcons x hx
      obtain ⟨rfl, rfl⟩ := Prod.mk.inj h
      refine ⟨i, b, by simp [hi], (hmem₁ _ _).1 ?_⟩
      rw [← hi]
      exact hx
    · rintro ⟨i, b, rfl, h⟩
      exact ⟨(i :: b, f), (hmem₁ _ _).2 h, rfl⟩

end Listed

namespace Scope

variable {sc : Scope} {object : String}

/-! ## Chains of selections -/

/-- A chain of selections leads from a selection set to a field, for an object type. The
address says which selection of its set each step goes through; the names are those of
the fragments that are entered. Every selection on the chain takes part, every fragment
definition does, and every type condition applies to the object type. -/
inductive Chain (sc : Scope) (object : String) :
    SelectionSet → List Nat → List String → Field → Prop
  | here {node : FieldNode} {sub rest : SelectionSet} (hi : sc.includes node.directives) :
      Chain sc object (.field node sub rest) [0] [] ⟨node, sub⟩
  | pastField {node : FieldNode} {sub rest : SelectionSet} {i : Nat} {a : List Nat}
      {names : List String} {f : Field} (h : Chain sc object rest (i :: a) names f) :
      Chain sc object (.field node sub rest) ((i + 1) :: a) names f
  | pastInline {head : InlineHead} {sub rest : SelectionSet} {i : Nat} {a : List Nat}
      {names : List String} {f : Field} (h : Chain sc object rest (i :: a) names f) :
      Chain sc object (.inline head sub rest) ((i + 1) :: a) names f
  | pastSpread {spread : Spread} {rest : SelectionSet} {i : Nat} {a : List Nat}
      {names : List String} {f : Field} (h : Chain sc object rest (i :: a) names f) :
      Chain sc object (.spread spread rest) ((i + 1) :: a) names f
  | into {head : InlineHead} {sub rest : SelectionSet} {a : List Nat} {names : List String}
      {f : Field} (hi : sc.includes head.directives)
      (hc : ∀ c, head.condition? = some c → sc.schema.covers c object)
      (h : Chain sc object sub a names f) :
      Chain sc object (.inline head sub rest) (0 :: a) names f
  | intoFragment {spread : Spread} {rest : SelectionSet} {fragment : Fragment} {a : List Nat}
      {names : List String} {f : Field} (hi : sc.includes spread.directives)
      (hf : sc.fragments.get? spread.name = some fragment)
      (hif : sc.includes fragment.directives) (hc : sc.schema.covers fragment.condition object)
      (h : Chain sc object fragment.selections a names f) :
      Chain sc object (.spread spread rest) (0 :: a) (spread.name :: names) f

namespace Chain

variable {set : SelectionSet} {a : List Nat} {names : List String} {f : Field}

theorem exists_cons (h : sc.Chain object set a names f) : ∃ i b, a = i :: b := by
  cases h <;> exact ⟨_, _, rfl⟩

/-- From a fragment that a chain enters, the rest of the chain leads to the field. -/
theorem exists_after {name : String} {after : List String} (h : sc.Chain object set a names f)
    {before : List String} (hnames : names = before ++ name :: after) :
    ∃ fragment b, sc.fragments.get? name = some fragment ∧
      sc.Chain object fragment.selections b after f := by
  induction h generalizing before with
  | here => simp at hnames
  | pastField _ ih => exact ih hnames
  | pastInline _ ih => exact ih hnames
  | pastSpread _ ih => exact ih hnames
  | into _ _ _ ih => exact ih hnames
  | intoFragment _ hf _ _ h ih =>
    cases before with
    | nil =>
      obtain ⟨rfl, rfl⟩ := List.cons.inj hnames
      exact ⟨_, _, hf, h⟩
    | cons _ before => exact ih (List.cons.inj hnames).2

/-- Where a chain leads to, one leads that enters no fragment twice: if what follows the
entry of a fragment enters it again, what follows the last entry does as well. -/
theorem exists_nodup (h : sc.Chain object set a names f) :
    ∃ a' names', names'.Nodup ∧ sc.Chain object set a' names' f := by
  induction h with
  | here hi => exact ⟨_, [], List.nodup_nil, .here hi⟩
  | pastField _ ih =>
    obtain ⟨a', names', hnodup, h⟩ := ih
    obtain ⟨i, b, rfl⟩ := h.exists_cons
    exact ⟨_, names', hnodup, .pastField h⟩
  | pastInline _ ih =>
    obtain ⟨a', names', hnodup, h⟩ := ih
    obtain ⟨i, b, rfl⟩ := h.exists_cons
    exact ⟨_, names', hnodup, .pastInline h⟩
  | pastSpread _ ih =>
    obtain ⟨a', names', hnodup, h⟩ := ih
    obtain ⟨i, b, rfl⟩ := h.exists_cons
    exact ⟨_, names', hnodup, .pastSpread h⟩
  | into hi hc _ ih =>
    obtain ⟨a', names', hnodup, h⟩ := ih
    exact ⟨_, names', hnodup, .into hi hc h⟩
  | @intoFragment spread _ fragment _ _ _ hi hf hif hc _ ih =>
    obtain ⟨a', names', hnodup, h⟩ := ih
    by_cases hmem : spread.name ∈ names'
    · obtain ⟨before, after, rfl⟩ := List.append_of_mem hmem
      obtain ⟨fragment', b, hf', h'⟩ := h.exists_after rfl
      obtain rfl := Option.some.inj (hf.symm.trans hf')
      have hafter := hnodup.of_append_right
      exact ⟨_, spread.name :: after, hafter, .intoFragment hi hf hif hc h'⟩
    · exact ⟨_, spread.name :: names', List.nodup_cons.2 ⟨hmem, hnodup⟩,
        .intoFragment hi hf hif hc h⟩

end Chain

/-- A chain enters each of some fragments at most once, and no others. -/
def Trail (sc : Scope) (object : String) (available : List Fragment) (set : SelectionSet)
    (a : List Nat) (f : Field) : Prop :=
  ∃ names, sc.Chain object set a names f ∧ names.Nodup ∧ names ⊆ available.map Fragment.name

/-- A chain within a named fragment of those available, which it does not enter again. -/
def Inside (sc : Scope) (object : String) (available : List Fragment) (name : String)
    (a : List Nat) (f : Field) : Prop :=
  ∃ fragment ∈ available, fragment.name = name ∧ sc.includes fragment.directives ∧
    sc.schema.covers fragment.condition object ∧
      sc.Trail object (available.filter fun g => g.name != name) fragment.selections a f

namespace Trail

variable {available : List Fragment} {node : FieldNode} {head : InlineHead} {spread : Spread}
  {sub rest : SelectionSet} {a : List Nat} {f : Field}

theorem ne_nil (f : Field) : ¬ sc.Trail object available rest [] f := by
  rintro ⟨_, h, _⟩
  obtain ⟨_, _, hcons⟩ := h.exists_cons
  simp at hcons

theorem nil_iff : ¬ sc.Trail object available .nil a f := fun ⟨_, h, _⟩ => nomatch h

theorem field_iff : sc.Trail object available (.field node sub rest) a f ↔
    (∃ b, a = 0 :: b ∧ b = [] ∧ sc.includes node.directives ∧ f = ⟨node, sub⟩) ∨
      ∃ i b, a = (i + 1) :: b ∧ sc.Trail object available rest (i :: b) f := by
  constructor
  · rintro ⟨names, h, hnames⟩
    cases h with
    | here hi => exact .inl ⟨_, rfl, rfl, hi, rfl⟩
    | pastField h => exact .inr ⟨_, _, rfl, names, h, hnames⟩
  · rintro (⟨_, rfl, rfl, hi, rfl⟩ | ⟨i, b, rfl, names, h, hnames⟩)
    · exact ⟨[], .here hi, List.nodup_nil, List.nil_subset _⟩
    · exact ⟨names, .pastField h, hnames⟩

theorem inline_iff : sc.Trail object available (.inline head sub rest) a f ↔
    (∃ b, a = 0 :: b ∧ sc.includes head.directives ∧
        (∀ c, head.condition? = some c → sc.schema.covers c object) ∧
        sc.Trail object available sub b f) ∨
      ∃ i b, a = (i + 1) :: b ∧ sc.Trail object available rest (i :: b) f := by
  constructor
  · rintro ⟨names, h, hnames⟩
    cases h with
    | into hi hc h => exact .inl ⟨_, rfl, hi, hc, names, h, hnames⟩
    | pastInline h => exact .inr ⟨_, _, rfl, names, h, hnames⟩
  · rintro (⟨b, rfl, hi, hc, names, h, hnames⟩ | ⟨i, b, rfl, names, h, hnames⟩)
    · exact ⟨names, .into hi hc h, hnames⟩
    · exact ⟨names, .pastInline h, hnames⟩

theorem spread_iff (havailable : ∀ g ∈ available, g ∈ sc.fragments.items) :
    sc.Trail object available (.spread spread rest) a f ↔
      (∃ b, a = 0 :: b ∧ sc.includes spread.directives ∧
          sc.Inside object available spread.name b f) ∨
        ∃ i b, a = (i + 1) :: b ∧ sc.Trail object available rest (i :: b) f := by
  have hget : ∀ g ∈ available, sc.fragments.get? g.name = some g :=
    fun g hg => Registry.get?_of_mem (havailable g hg)
  constructor
  · rintro ⟨names, h, hnodup, hsub⟩
    cases h with
    | pastSpread h => exact .inr ⟨_, _, rfl, names, h, hnodup, hsub⟩
    | @intoFragment _ _ fragment b names _ hi hf hif hc h =>
      obtain ⟨hnew, hnodup⟩ := List.nodup_cons.1 hnodup
      obtain ⟨hname, hsub⟩ := List.cons_subset.1 hsub
      obtain ⟨g, hg, hgname⟩ := List.mem_map.1 hname
      obtain rfl := Option.some.inj (hf.symm.trans (hgname ▸ hget g hg))
      refine .inl ⟨b, rfl, hi, fragment, hg, hgname, hif, hc, names, h, hnodup, fun n hn => ?_⟩
      obtain ⟨g', hg', rfl⟩ := List.mem_map.1 (hsub hn)
      refine List.mem_map_of_mem (List.mem_filter.2 ⟨hg', bne_iff_ne.2 fun hsame => hnew ?_⟩)
      exact hsame ▸ hn
  · rintro (⟨b, rfl, hi, fragment, hmem, hname, hif, hc, names, h, hnodup, hsub⟩ |
      ⟨i, b, rfl, names, h, hnames⟩)
    · have hne : ∀ n ∈ names, n ∈ available.map Fragment.name ∧ n ≠ spread.name := by
        intro n hn
        obtain ⟨g, hg, rfl⟩ := List.mem_map.1 (hsub hn)
        obtain ⟨hg, hne⟩ := List.mem_filter.1 hg
        exact ⟨List.mem_map_of_mem hg, bne_iff_ne.1 hne⟩
      refine ⟨spread.name :: names, .intoFragment hi (hname ▸ hget fragment hmem) hif hc h,
        List.nodup_cons.2 ⟨fun hn => (hne _ hn).2 rfl, hnodup⟩, List.cons_subset.2 ⟨?_, ?_⟩⟩
      · exact hname ▸ List.mem_map_of_mem hmem
      · exact fun n hn => (hne n hn).1
    · exact ⟨names, .pastSpread h, hnames⟩

end Trail

/-! ## The walk goes through the chains -/

/-- The fields of occurrences. -/
abbrev fieldsOf (os : List (Occurrence String)) : List Field := os.map Occurrence.field

theorem listed_under {At : List Nat → Field → Prop} {condition? : Option String}
    {directives : List Directive} {body : String → List (Occurrence String)}
    (h : Listed At (fieldsOf (body object))) :
    Listed (fun a f => sc.includes directives ∧
        (∀ c, condition? = some c → sc.schema.covers c object) ∧ At a f)
      (fieldsOf (occurrencesUnder sc sc.restrictObject condition? directives body object)) := by
  unfold occurrencesUnder
  split
  · next hi =>
    cases condition? with
    | none => exact h.congr (by simp [hi])
    | some c =>
      by_cases hc : sc.schema.covers c object = true
      · simp only [restrictObject, hc, if_true]
        exact h.congr (by simp [hi, hc])
      · simp only [restrictObject, hc]
        exact .nil (by simp [hc])
  · next hi => exact .nil (by simp [hi])

/-- The walk over a selection set, given that entering a fragment goes through the chains
inside it. -/
theorem listed_occurrences {available : List Fragment}
    (havailable : ∀ g ∈ available, g ∈ sc.fragments.items)
    {enter : String → String → List (Occurrence String)}
    (henter : ∀ name, Listed (sc.Inside object available name) (fieldsOf (enter name object)))
    (set : SelectionSet) : Listed (sc.Trail object available set)
      (fieldsOf (set.occurrences sc sc.restrictObject enter object)) := by
  induction set with
  | nil => exact .nil fun _ _ => Trail.nil_iff
  | field node sub rest _ ih =>
    rw [SelectionSet.occurrences, fieldsOf, List.map_append]
    refine .append ?_ ih Trail.ne_nil fun _ _ => Trail.field_iff
    split
    · next hi => exact ⟨[([], ⟨node, sub⟩)], rfl, by simp, by simp [hi]⟩
    · next hi => exact .nil (by simp [hi])
  | inline head sub rest ihs ih =>
    rw [SelectionSet.occurrences, fieldsOf, List.map_append]
    exact .append (listed_under ihs) ih Trail.ne_nil fun _ _ => Trail.inline_iff
  | spread spread rest ih =>
    rw [SelectionSet.occurrences, fieldsOf, List.map_append]
    refine .append ?_ ih Trail.ne_nil fun _ _ => Trail.spread_iff havailable
    split
    · next hi => exact (henter spread.name).congr (by simp [hi])
    · next hi => exact .nil (by simp [hi])

/-- Fewer fragments are available inside one of them. -/
theorem length_others {available : List Fragment} {g : Fragment} (hg : g ∈ available) :
    (available.filter fun g' => g'.name != g.name).length < available.length := by
  rw [List.length_filter_lt_length_iff_exists]
  exact ⟨g, hg, by simp⟩

/-- Entering a fragment goes through the chains inside it: by induction on how many may
still be entered, which are at least those available. -/
theorem listed_enterFragment {n : Nat} {available : List Fragment}
    (havailable : ∀ g ∈ available, g ∈ sc.fragments.items) (hn : available.length ≤ n)
    (name : String) : Listed (sc.Inside object available name)
      (fieldsOf (sc.enterFragment sc.restrictObject n available name object)) := by
  induction n generalizing available name with
  | zero =>
    obtain rfl := List.length_eq_zero_iff.1 (Nat.le_zero.1 hn)
    exact .nil (by simp [Inside])
  | succ n ih =>
    rw [enterFragment]
    split
    · next hnone =>
      refine .nil fun a f => ?_
      rintro ⟨g, hg, hname, _⟩
      have hne := List.find?_eq_none.1 hnone g hg
      simp [hname] at hne
    · next fragment hfind =>
      have hmem : fragment ∈ available := List.mem_of_find?_eq_some hfind
      obtain rfl : fragment.name = name := by simpa using List.find?_some hfind
      have hothers : ∀ g ∈ available.filter (fun g => g.name != fragment.name),
          g ∈ sc.fragments.items := fun g hg => havailable g (List.mem_filter.1 hg).1
      have hlength := length_others hmem
      refine (listed_under (listed_occurrences hothers (fun name => ih hothers (by omega) name)
        fragment.selections)).congr fun a f => ⟨?_, ?_⟩
      · rintro ⟨g, hg, hname, hi, hc, h⟩
        obtain rfl : g = fragment :=
          Registry.eq_of_name_eq (havailable g hg) (havailable fragment hmem) hname
        exact ⟨hi, by simpa using hc, h⟩
      · rintro ⟨hi, hc, h⟩
        exact ⟨fragment, hmem, rfl, hi, hc _ rfl, h⟩

/-- Fragments are entered inside each other at most as deep as there are fragments: more
depth changes nothing. -/
theorem enterFragment_eq {τ : Type} {restrict : String → τ → Option τ} {n m : Nat}
    {available : List Fragment} (hn : available.length ≤ n) (hm : available.length ≤ m) :
    sc.enterFragment restrict n available = sc.enterFragment restrict m available := by
  induction n generalizing available m with
  | zero =>
    obtain rfl := List.length_eq_zero_iff.1 (Nat.le_zero.1 hn)
    cases m <;> rfl
  | succ n ih =>
    cases m with
    | zero =>
      obtain rfl := List.length_eq_zero_iff.1 (Nat.le_zero.1 hm)
      rfl
    | succ m =>
      funext name t
      rw [enterFragment, enterFragment]
      split
      · rfl
      · next fragment hfind =>
        have hlength := length_others (List.mem_of_find?_eq_some hfind)
        obtain rfl : fragment.name = name := by simpa using List.find?_some hfind
        have hsame : sc.enterFragment restrict n
              (available.filter fun g => g.name != fragment.name) =
            sc.enterFragment restrict m (available.filter fun g => g.name != fragment.name) :=
          ih (by omega) (by omega)
        simp only [hsame]

/-! ## Merged selection sets -/

/-- A traversal of selection sets, in document order and without entering a fragment
inside itself, meets a field: the address has the number of the set in front. -/
def Meets (sc : Scope) (object : String) (sets : List SelectionSet) : List Nat → Field → Prop
  | [], _ => False
  | i :: a, f => ∃ set names, sets[i]? = some set ∧ names.Nodup ∧ sc.Chain object set a names f

/-- The traversal meets a field before it first meets another. -/
def Before (sc : Scope) (object : String) (sets : List SelectionSet) (f f' : Field) : Prop :=
  ∃ a, sc.Meets object sets a f ∧ ∀ a', sc.Meets object sets a' f' → a < a'

/-- A chain enters only fragments of the scope. -/
theorem Chain.subset_names {set : SelectionSet} {a : List Nat} {names : List String} {f : Field}
    (h : sc.Chain object set a names f) : names ⊆ sc.fragments.items.map Fragment.name := by
  induction h with
  | here => exact List.nil_subset _
  | pastField _ ih => exact ih
  | pastInline _ ih => exact ih
  | pastSpread _ ih => exact ih
  | into _ _ _ ih => exact ih
  | intoFragment _ hf _ _ _ ih =>
    obtain ⟨hmem, hname⟩ := Registry.mem_of_get? hf
    exact List.cons_subset.2 ⟨hname ▸ List.mem_map_of_mem hmem, ih⟩

/-- Collection goes through the fields that the traversal meets, in its order. -/
theorem listed_fieldsOn (sc : Scope) (object : String) (sets : List SelectionSet) :
    Listed (sc.Meets object sets) (sc.fieldsOn object sets) := by
  induction sets with
  | nil =>
    refine .nil fun a f => ?_
    cases a <;> simp [Meets]
  | cons set sets ih =>
    have hset : Listed (sc.Trail object sc.fragments.items set)
        (fieldsOf (sc.occurrences sc.restrictObject set object)) :=
      listed_occurrences (fun _ h => h)
        (listed_enterFragment (fun _ h => h) (Nat.le_refl _)) set
    rw [fieldsOn, List.flatMap_cons]
    refine hset.append ih (fun _ h => h) fun a f => ?_
    constructor
    · intro h
      match a, h with
      | 0 :: b, ⟨_, names, hset, hnodup, h⟩ =>
        obtain rfl := Option.some.inj hset
        exact .inl ⟨b, rfl, names, h, hnodup, h.subset_names⟩
      | (i + 1) :: b, h => exact .inr ⟨i, b, rfl, h⟩
    · rintro (⟨b, rfl, names, h, hnodup, _⟩ | ⟨i, b, rfl, h⟩)
      · exact ⟨set, names, rfl, hnodup, h⟩
      · exact h

/-- The traversal meets what a chain leads to. -/
theorem exists_meets_iff {sets : List SelectionSet} {f : Field} :
    (∃ a, sc.Meets object sets a f) ↔
      ∃ set ∈ sets, ∃ a names, sc.Chain object set a names f := by
  constructor
  · rintro ⟨_ | ⟨i, a⟩, h⟩
    · exact absurd h id
    · obtain ⟨set, names, hset, _, h⟩ := h
      exact ⟨set, List.mem_of_getElem? hset, a, names, h⟩
  · rintro ⟨set, hset, a, names, h⟩
    obtain ⟨a', names', hnodup, h'⟩ := h.exists_nodup
    obtain ⟨i, hi⟩ := List.getElem?_of_mem hset
    exact ⟨i :: a', set, names', hi, hnodup, h'⟩

/-! ## What is collected -/

/-- The fields of selection sets and of the fragments of a scope. -/
def fieldsWithin (sc : Scope) (sets : List SelectionSet) : List Field :=
  sets.flatMap SelectionSet.fields ++ sc.fragments.items.flatMap fun g => g.selections.fields

theorem fieldsOn_subset (sc : Scope) (object : String) (sets : List SelectionSet) :
    sc.fieldsOn object sets ⊆ sc.fieldsWithin sets := by
  intro f hf
  obtain ⟨set, hset, hf⟩ := List.mem_flatMap.1 hf
  obtain ⟨o, ho, rfl⟩ := List.mem_map.1 hf
  obtain ⟨rest, hwalk⟩ := Walk.exists_of_mem_occurrences ho
  have hfragments : ∀ g ∈ sc.fragments.items, g.selections.fields ⊆ sc.fieldsWithin sets :=
    fun g hg _ hf => List.mem_append_right _ (List.mem_flatMap.2 ⟨g, hg, hf⟩)
  have hsubset := hwalk.fields_subset hfragments
    fun _ hf => List.mem_append_left _ (List.mem_flatMap.2 ⟨set, hset, hf⟩)
  rw [SelectionSet.fields] at hsubset
  exact hsubset List.mem_cons_self

/-- The groups are what is collected from selection sets for an object type. -/
structure Collected (sc : Scope) (object : String) (sets : List SelectionSet)
    (gs : FieldGroups) : Prop where
  /-- The walk over each set ends: to enter fragments deeper inside each other than there
  are fragments gives nothing more. -/
  ends : ∀ set ∈ sets, ∀ n, sc.fragments.items.length ≤ n →
    set.occurrences sc sc.restrictObject
        (sc.enterFragment sc.restrictObject n sc.fragments.items) object =
      sc.occurrences sc.restrictObject set object
  /-- Exactly the fields are collected that a chain of selections leads to. -/
  complete : ∀ f, (∃ g ∈ gs, f ∈ g.fields) ↔
    ∃ set ∈ sets, ∃ a names, sc.Chain object set a names f
  /-- No field is collected twice. -/
  once : (gs.flatMap FieldGroup.fields).Nodup
  keyed : ∀ g ∈ gs, ∀ f ∈ g.fields, g.key = f.node.alias?.getD f.node.name
  keysDistinct : (FieldGroups.keys gs).Nodup
  nonempty : ∀ g ∈ gs, g.fields ≠ []
  /-- A traversal in document order meets an earlier key before it first meets a later one. -/
  keysInOrder : gs.Pairwise fun g g' =>
    ∃ f ∈ g.fields, ∀ f' ∈ g'.fields, sc.Before object sets f f'
  fieldsInOrder : ∀ g ∈ gs, g.fields.Pairwise (sc.Before object sets)
  /-- Collecting any of the sets again changes nothing. -/
  again : ∀ sets' ⊆ sets, sc.groupsOn object (sets ++ sets') = gs

theorem collected_groupsOn {sets : List SelectionSet}
    (h : Field.Identified (sc.fieldsWithin sets)) :
    sc.Collected object sets (sc.groupsOn object sets) := by
  have hlisted := sc.listed_fieldsOn object sets
  have hgathers : (sc.groupsOn object sets).Gathers (sc.fieldsOn object sets) :=
    FieldGroups.gathers_ofFields (h.subset (sc.fieldsOn_subset object sets))
  have hbefore : ∀ {f f'}, MetBefore (sc.fieldsOn object sets) f f' →
      sc.Before object sets f f' := fun hmet => hlisted.exists_lt hmet
  refine
    { ends := fun set _ n hn => ?_
      complete := fun f => (hgathers.mem f).trans (hlisted.mem_iff.trans exists_meets_iff)
      once := hgathers.nodup
      keyed := fun g hg f hf => (hgathers.key g hg f hf).symm
      keysDistinct := hgathers.keys
      nonempty := fun g _ => List.cons_ne_nil _ _
      keysInOrder := hgathers.groups.imp fun hmet =>
        ⟨_, FieldGroup.first_mem _, fun f' hf' => hbefore (hmet f' hf')⟩
      fieldsInOrder := fun g hg => (hgathers.fields g hg).imp hbefore
      again := fun sets' hsets => ?_ }
  · rw [sc.enterFragment_eq hn (Nat.le_refl _)]
    rfl
  · have hsubset : sc.fieldsOn object sets' ⊆ sc.fieldsOn object sets := fun f hf => by
      obtain ⟨set, hset, hf⟩ := List.mem_flatMap.1 hf
      exact List.mem_flatMap.2 ⟨set, hsets hset, hf⟩
    rw [groupsOn, fieldsOn, List.flatMap_append, FieldGroups.ofFields, List.foldl_append]
    exact hgathers.foldl_eq hsubset

/-- What is collected from a selection set, and from the selection sets of all fields of a
group. Fields count as the same if they have the same number, which tells apart all
fields of a document that has been read. -/
theorem groups_collected (sc : Scope) (object : String) :
    (∀ set, Field.Identified (sc.fieldsWithin [set]) →
        sc.Collected object [set] (sc.groups object set)) ∧
      ∀ g : FieldGroup, Field.Identified (sc.fieldsWithin (g.fields.map Field.selections)) →
        sc.Collected object (g.fields.map Field.selections) (sc.subGroups g object) :=
  ⟨fun _ => collected_groupsOn, fun _ => collected_groupsOn⟩

/-- What is collected from selection sets of a document are fields of it. -/
theorem fieldsWithin_subset {d : Document} (s : Schema) (vars : VariableValues)
    {sets : List SelectionSet} (hsets : ∀ set ∈ sets, set.fields ⊆ d.fields) :
    (ofDocument s d vars).fieldsWithin sets ⊆ d.fields := by
  intro f hf
  rcases List.mem_append.1 hf with hf | hf
  · obtain ⟨set, hset, hf⟩ := List.mem_flatMap.1 hf
    exact hsets set hset hf
  · obtain ⟨g, hg, hf⟩ := List.mem_flatMap.1 hf
    exact Document.fields_subset_of_mem_fragments hg hf

/-- Numbers tell apart what is collected from selection sets of a document that has been
read. -/
theorem identified_of_parse {text : String} {d : Document} (hd : Document.parse text = .ok d)
    (s : Schema) (vars : VariableValues) {sets : List SelectionSet}
    (hsets : ∀ set ∈ sets, set.fields ⊆ d.fields) :
    Field.Identified ((ofDocument s d vars).fieldsWithin sets) :=
  (Document.identified_of_parse hd).subset (fieldsWithin_subset s vars hsets)

/-- Two fragments that spread each other; one is for sailors only. -/
def cyclicText : String :=
  "{ all: things { ...named id ... on Ship { name } } } " ++
  "fragment named on Thing { name ...ranked } " ++
  "fragment ranked on Sailor { rank ...named id }"

/-- From the sub-selection of `all` the second entry of `named` gives nothing more, and `id`
is selected in two places. -/
theorem groups_collected_demo :
    ∃ d o g, Document.parse cyclicText = .ok d ∧ d.operation none = .ok o ∧
      g ∈ (ofDocument demoSchema d []).groups "Query" o.selections ∧
      (ofDocument demoSchema d []).Collected "Query" [o.selections]
        ((ofDocument demoSchema d []).groups "Query" o.selections) ∧
      (ofDocument demoSchema d []).Collected "Sailor" (g.fields.map Field.selections)
        ((ofDocument demoSchema d []).subGroups g "Sailor") ∧
      ((ofDocument demoSchema d []).subGroups g "Sailor").map (fun g => (g.key, g.fields.length)) =
        [("name", 1), ("rank", 1), ("id", 2)] := by
  have hparse : ((Document.parse cyclicText).toOption.any fun d =>
      (d.operation none).toOption.any fun o =>
        ((ofDocument demoSchema d []).groups "Query" o.selections).any fun g =>
          ((ofDocument demoSchema d []).subGroups g "Sailor").map
              (fun g => (g.key, g.fields.length)) ==
            [("name", 1), ("rank", 1), ("id", 2)]) = true := by
    decide +kernel
  cases hd : Document.parse cyclicText with
  | error e => simp [hd, Except.toOption] at hparse
  | ok d =>
    cases ho : d.operation none with
    | error e => simp [hd, ho, Except.toOption] at hparse
    | ok o =>
      simp only [hd, ho, Except.toOption, Option.any_some, List.any_eq_true, beq_iff_eq] at hparse
      obtain ⟨g, hg, hkeys⟩ := hparse
      have hset : ∀ set ∈ [o.selections], set.fields ⊆ d.fields := by
        intro set hset
        obtain rfl := List.mem_singleton.1 hset
        exact fun f hf => List.mem_flatMap.2 ⟨.operation o, Document.mem_of_operation ho, hf⟩
      have hsub := fields_subset_of_mem_groupsOn
        (fun _ => Document.fields_subset_of_mem_fragments) hset hg
      exact ⟨d, o, g, rfl, ho, hg,
        (groups_collected _ "Query").1 _ (identified_of_parse hd demoSchema [] hset),
        (groups_collected _ "Sailor").2 g (identified_of_parse hd demoSchema [] hsub), hkeys⟩

end Scope

/-- Hence in every execution each object has the groups that are collected from what its
field selects. -/
theorem Plan.collected_of_collects {s : Schema} {r : Request} {p : Plan} (hp : r.plan s = .ok p)
    {route : List Visit} {object : String} {sets : List SelectionSet}
    (h : p.Collects s route object sets) :
    (p.scope s).Collected object sets ((p.scope s).groupsOn object sets) :=
  Scope.collected_groupsOn
    (Scope.identified_of_parse (Request.parse_of_plan hp) s p.vars
      (h.fields_subset (fits_of_plan hp)))

end GraphQL
