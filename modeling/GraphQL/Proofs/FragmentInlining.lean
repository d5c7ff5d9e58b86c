/-
GraphQL.Proofs.FragmentInlining — documents with the bodies of fragments in place of spreads.

A spread stands for an inline fragment with its directives, and in it one with the condition,
the directives and the selections of the named fragment, whose own spreads are replaced in the
same way. `SelectionSet.Inlines` says so of two selection sets: it asks for nothing but that
every field of the second one is a field of the first one or of a fragment, up to its number.
Spreads of no known fragment stay; validation finds them, except in selections of
`__typename`, which it does not look at.

* `Document.inlined` — the document with its fragments inlined, as a function.
* `Fragment.Enough.enter` — the fragments that are left inside one of them are enough to go on.
* `Document.inlines_inlined` — it is what the relation says, unless fragments are cyclic.
* `Validation.valid_of_inlines` — a valid document stays valid.
-/
import GraphQL.Proofs.CycleDetection

namespace GraphQL

open Relation

/-- A name is registered if one of the items has it. -/
theorem Registry.contains_ofList {α : Type} [Named α] (xs : List α) (name : String) :
    (ofList xs).contains name = xs.any fun x => Named.name x == name := by
  have hfold : ∀ (xs : List α) (r : Registry α), (xs.foldl insert r).contains name =
      (r.contains name || xs.any fun x => Named.name x == name) := by
    intro xs
    induction xs with
    | nil => simp
    | cons x xs ih =>
      intro r
      rw [List.foldl_cons, ih, List.any_cons, contains, get?_insert, contains]
      by_cases hname : Named.name x = name
      · simp [hname]
      · simp only [if_neg hname, beq_eq_false_iff_ne.2 hname, Bool.false_or]
  exact hfold xs empty

/-! ## Inlining -/

/-- What a spread of a fragment with certain selections stands for, and the selections after
it. -/
def Spread.inline (sp : Spread) (f : Fragment) (selections rest : SelectionSet) : SelectionSet :=
  .inline { condition? := none, position := sp.position, directives := sp.directives }
    (.inline { condition? := some f.condition, position := f.position, directives := f.directives }
      selections .nil)
    rest

/-- The selection set with something in place of each spread and the selections after it. -/
def SelectionSet.mapSpreads (replace : Spread → SelectionSet → SelectionSet) :
    SelectionSet → SelectionSet
  | .nil => .nil
  | .field node sub rest => .field node (sub.mapSpreads replace) (rest.mapSpreads replace)
  | .inline head sub rest => .inline head (sub.mapSpreads replace) (rest.mapSpreads replace)
  | .spread sp rest => replace sp (rest.mapSpreads replace)

/-- The selections of an available fragment in place of a spread; a spread of any other name
stays. `n` bounds how many fragments may be inlined inside each other. -/
def Spread.inlined : Nat → List Fragment → Spread → SelectionSet → SelectionSet
  | 0, _, sp, rest => .spread sp rest
  | n + 1, available, sp, rest =>
    match available.find? fun f => f.name == sp.name with
    | none => .spread sp rest
    | some f =>
      let others := available.filter fun g => g.name != sp.name
      sp.inline f (f.selections.mapSpreads (inlined n others)) rest

/-- The document with its fragments inlined wherever they are spread, in the definitions of
fragments as well. Each copy of a field counts as a field of its own. -/
def Document.inlined (d : Document) : Document :=
  let inlined := SelectionSet.mapSpreads
    (Spread.inlined d.fragments.items.length d.fragments.items)
  Document.numbered ⟨d.definitions.map fun x => x.withSelections (inlined x.selections)⟩

/-- The second selection set is the first one with its fragments inlined. A field may have
another number. -/
inductive SelectionSet.Inlines (fragments : Registry Fragment) :
    SelectionSet → SelectionSet → Prop
  | nil : Inlines fragments .nil .nil
  | field {node : FieldNode} {sub sub' rest rest' : SelectionSet} (number : Nat)
      (hsub : Inlines fragments sub sub') (hrest : Inlines fragments rest rest') :
      Inlines fragments (.field node sub rest) (.field { node with number } sub' rest')
  | inline {head : InlineHead} {sub sub' rest rest' : SelectionSet}
      (hsub : Inlines fragments sub sub') (hrest : Inlines fragments rest rest') :
      Inlines fragments (.inline head sub rest) (.inline head sub' rest')
  | known {sp : Spread} {f : Fragment} {selections rest rest' : SelectionSet}
      (hf : fragments.get? sp.name = some f)
      (hselections : Inlines fragments f.selections selections)
      (hrest : Inlines fragments rest rest') :
      Inlines fragments (.spread sp rest) (sp.inline f selections rest')
  | unknown {sp : Spread} {rest rest' : SelectionSet} (hf : fragments.get? sp.name = none)
      (hrest : Inlines fragments rest rest') :
      Inlines fragments (.spread sp rest) (.spread sp rest')

/-- The second operation is the first one with its fragments inlined. -/
def Operation.Inlines (fragments : Registry Fragment) (o o' : Operation) : Prop :=
  ∃ set, o' = { o with selections := set } ∧ SelectionSet.Inlines fragments o.selections set

/-- The second definition is the first one with its fragments inlined. -/
def Definition.Inlines (fragments : Registry Fragment) (x x' : Definition) : Prop :=
  ∃ set, x' = x.withSelections set ∧ SelectionSet.Inlines fragments x.selections set

/-- The second document is the first one with its fragments inlined. -/
def Document.Inlines (d d' : Document) : Prop :=
  List.Forall₂ (Definition.Inlines d.fragments) d.definitions d'.definitions

/-! ## The function does what the relation says -/

/-- Spreads lead from a name to a fragment. -/
def Fragment.Leads (fragments : Registry Fragment) (name : String) (f : Fragment) : Prop :=
  ∃ g, fragments.get? name = some g ∧ ReflTransGen (Fragment.Spreads fragments) g f

namespace Fragment.Leads

variable {fragments : Registry Fragment} {name : String} {f g : Fragment}

theorem mem (h : Leads fragments name f) : f ∈ fragments.items := by
  obtain ⟨g, hg, hspreads⟩ := h
  cases hspreads with
  | refl => exact (Registry.mem_of_get? hg).1
  | tail _ hlast =>
    obtain ⟨_, _, hf⟩ := hlast
    exact (Registry.mem_of_get? hf).1

/-- What a spread in a fragment leads to, the name of the fragment leads to as well. It is
another fragment, unless there are cyclic ones. -/
theorem below (hcycle : ¬ ∃ f, TransGen (Fragment.Spreads fragments) f f)
    (hf : fragments.get? name = some f) {next : String} (hnext : next ∈ f.selections.spreads)
    (h : Leads fragments next g) : Leads fragments name g ∧ g.name ≠ name := by
  obtain ⟨k, hk, hspreads⟩ := h
  have hfirst : Fragment.Spreads fragments f k := ⟨next, hnext, hk⟩
  refine ⟨⟨f, hf, .head hfirst hspreads⟩, fun hname => hcycle ⟨f, ?_⟩⟩
  obtain ⟨hmem, hfname⟩ := Registry.mem_of_get? hf
  have hgmem : g ∈ fragments.items := mem ⟨k, hk, hspreads⟩
  obtain rfl : g = f := Registry.eq_of_name_eq hgmem hmem (hname.trans hfname.symm)
  exact .head' hfirst hspreads

end Fragment.Leads

/-- Fragments that are enough to go through the spreads of some names: all that the names lead
to is among them. They are no more than may be entered inside each other. -/
structure Fragment.Enough (fragments : Registry Fragment) (names : List String) (n : Nat)
    (available : List Fragment) : Prop where
  length : available.length ≤ n
  subset : available ⊆ fragments.items
  leads : ∀ name ∈ names, ∀ f, Fragment.Leads fragments name f → f ∈ available

namespace Fragment.Enough

variable {fragments : Registry Fragment} {names : List String} {n : Nat}
  {available : List Fragment} {name : String} {f : Fragment}

theorem all (fragments : Registry Fragment) (names : List String) :
    Enough fragments names fragments.items.length fragments.items where
  length := Nat.le_refl _
  subset := List.Subset.refl _
  leads _ _ _ h := h.mem

theorem mono (h : Enough fragments names n available) {names' : List String}
    (hsub : names' ⊆ names) : Enough fragments names' n available :=
  { h with leads := fun name hname => h.leads name (hsub hname) }

/-- A known fragment is found among them. -/
theorem find? (h : Enough fragments names n available) (hname : name ∈ names) :
    (available.find? fun f => f.name == name) = fragments.get? name := by
  cases hget : fragments.get? name with
  | none => exact List.find?_eq_none.2 fun g hg => List.find?_eq_none.1 hget g (h.subset hg)
  | some f =>
    obtain ⟨hmem, hfname⟩ := Registry.mem_of_get? hget
    have hf : f ∈ available := h.leads name hname f ⟨f, hget, .refl⟩
    cases hfind : available.find? fun f => f.name == name with
    | none => exact absurd (beq_iff_eq.2 hfname) (List.find?_eq_none.1 hfind f hf)
    | some g =>
      have hgname : g.name = name := by simpa using List.find?_some hfind
      have hg : g ∈ fragments.items := h.subset (List.mem_of_find?_eq_some hfind)
      exact congrArg some (Registry.eq_of_name_eq hg hmem (hgname.trans hfname.symm))

/-- Once a fragment is entered, the others are enough for the spreads in it: they do not lead
back to it. -/
theorem enter (h : Enough fragments names n available)
    (hcycle : ¬ ∃ f, TransGen (Fragment.Spreads fragments) f f) (hname : name ∈ names)
    (hf : fragments.get? name = some f) : ∃ m, n = m + 1 ∧
      Enough fragments f.selections.spreads m (available.filter fun g => g.name != name) := by
  have hmem : f ∈ available := h.leads name hname f ⟨f, hf, .refl⟩
  have hlength : (available.filter fun g => g.name != name).length < available.length := by
    have hfname : f.name = name := (Registry.mem_of_get? hf).2
    exact hfname ▸ Scope.length_others hmem
  have hn := h.length
  refine ⟨n - 1, by omega, by omega, fun _ hg => h.subset (List.mem_filter.1 hg).1, ?_⟩
  intro next hnext g hg
  obtain ⟨hleads, hne⟩ := hg.below hcycle hf hnext
  exact List.mem_filter.2 ⟨h.leads name hname g hleads, bne_iff_ne.2 hne⟩

end Fragment.Enough

namespace SelectionSet

variable {fragments : Registry Fragment} {set set' : SelectionSet}

/-- A selection set has its fragments inlined if that is what each spread is replaced by. -/
theorem inlines_mapSpreads {replace : Spread → SelectionSet → SelectionSet}
    (h : ∀ sp : Spread, sp.name ∈ set.spreads → ∀ rest rest', Inlines fragments rest rest' →
      Inlines fragments (.spread sp rest) (replace sp rest')) :
    Inlines fragments set (set.mapSpreads replace) := by
  induction set with
  | nil => exact .nil
  | field node sub rest ihs ih =>
    exact .field node.number (ihs fun sp hsp => h sp (List.mem_append_left _ hsp))
      (ih fun sp hsp => h sp (List.mem_append_right _ hsp))
  | inline head sub rest ihs ih =>
    exact .inline (ihs fun sp hsp => h sp (List.mem_append_left _ hsp))
      (ih fun sp hsp => h sp (List.mem_append_right _ hsp))
  | spread sp rest ih =>
    exact h sp List.mem_cons_self _ _ (ih fun sp hsp => h sp (List.mem_cons_of_mem _ hsp))

/-- The selections of a fragment are in place of a spread: by induction on how many fragments
may be inlined inside each other. -/
theorem inlines_inlined (hcycle : ¬ ∃ f, TransGen (Fragment.Spreads fragments) f f) {n : Nat}
    {names : List String} {available : List Fragment}
    (h : Fragment.Enough fragments names n available) {sp : Spread} (hname : sp.name ∈ names)
    {rest rest' : SelectionSet} (hrest : Inlines fragments rest rest') :
    Inlines fragments (.spread sp rest) (sp.inlined n available rest') := by
  have hfind := h.find? hname
  induction n generalizing names available sp rest rest' with
  | zero =>
    obtain rfl := List.length_eq_zero_iff.1 (Nat.le_zero.1 h.length)
    exact .unknown hfind.symm hrest
  | succ n ih =>
    rw [Spread.inlined, hfind]
    cases hf : fragments.get? sp.name with
    | none => exact .unknown hf hrest
    | some f =>
      obtain ⟨m, hm, hothers⟩ := h.enter hcycle hname hf
      obtain rfl : n = m := Nat.succ.inj hm
      refine .known hf (inlines_mapSpreads fun sp' hsp' _ _ hrest' => ?_) hrest
      exact ih hothers hsp' hrest' (hothers.find? hsp')

/-- Numbers do not matter. -/
theorem Inlines.numberFrom (h : Inlines fragments set set') (n : Nat) :
    Inlines fragments set (set'.numberFrom n).1 := by
  induction h generalizing n with
  | nil => exact .nil
  | field _ _ _ ihs ih => exact .field _ (ihs _) (ih _)
  | inline _ _ ihs ih => exact .inline (ihs _) (ih _)
  | known hf _ _ ihs ih => exact .known hf (ihs _) (ih _)
  | unknown hf _ ih => exact .unknown hf (ih _)

/-- Only spreads of no known fragment are left. -/
theorem Inlines.get?_eq_none (h : Inlines fragments set set') :
    ∀ name ∈ set'.spreads, fragments.get? name = none := by
  induction h with
  | nil => exact fun _ hname => absurd hname List.not_mem_nil
  | field _ _ _ ihs ih =>
    exact fun name hname => (List.mem_append.1 hname).elim (ihs name) (ih name)
  | inline _ _ ihs ih =>
    exact fun name hname => (List.mem_append.1 hname).elim (ihs name) (ih name)
  | known hf _ _ ihs ih =>
    intro name hname
    simp only [Spread.inline, spreads, List.append_nil] at hname
    exact (List.mem_append.1 hname).elim (ihs name) (ih name)
  | unknown hf _ ih => exact List.forall_mem_cons.2 ⟨hf, ih⟩

/-- A selection set with selections keeps some. -/
theorem Inlines.isEmpty_eq (h : Inlines fragments set set') : set'.isEmpty = set.isEmpty := by
  cases h <;> rfl

end SelectionSet

namespace Document

variable {d d' : Document}

theorem inlines_numberDefinitions {fragments : Registry Fragment} {xs xs' : List Definition}
    (h : List.Forall₂ (Definition.Inlines fragments) xs xs') (n : Nat) :
    List.Forall₂ (Definition.Inlines fragments) xs (numberDefinitions n xs') := by
  induction h generalizing n with
  | nil => exact .nil
  | @cons x x' _ _ hx _ ih =>
    obtain ⟨set, rfl, hset⟩ := hx
    refine .cons ⟨(set.numberFrom n).1, ?_, hset.numberFrom n⟩ (ih _)
    cases x <;> rfl

/-- The document with its fragments inlined is that. -/
theorem inlines_inlined (hcycle : ¬ d.FragmentsCycle) : d.Inlines d.inlined := by
  refine inlines_numberDefinitions (List.forall₂_map_right_iff.2 ?_) 0
  refine List.forall₂_same.2 fun x _ => ⟨_, rfl, SelectionSet.inlines_mapSpreads ?_⟩
  intro sp hsp rest rest' hrest
  exact SelectionSet.inlines_inlined hcycle (.all _ _) hsp hrest

/-! ## What stays -/

theorem Inlines.operations (h : d.Inlines d') :
    List.Forall₂ (Operation.Inlines d.fragments) d.operations d'.operations := by
  unfold Inlines at h
  unfold Document.operations
  generalize d.fragments = fragments, d.definitions = xs, d'.definitions = xs' at h ⊢
  induction h with
  | nil => exact .nil
  | @cons x x' _ _ hx _ ih =>
    obtain ⟨set, rfl, hset⟩ := hx
    cases x with
    | operation o => exact .cons ⟨set, rfl, hset⟩ ih
    | fragment f => exact ih

/-- The operation asked for is the same but for its selections, or the same error. -/
theorem Inlines.operation (h : d.Inlines d') (name? : Option String) :
    (∃ e, d.operation name? = .error e ∧ d'.operation name? = .error e) ∨
      ∃ o o', d.operation name? = .ok o ∧ d'.operation name? = .ok o' ∧
        Operation.Inlines d.fragments o o' := by
  have hoperations := h.operations
  unfold Document.operation
  generalize d.operations = os, d'.operations = os' at hoperations ⊢
  cases name? with
  | some name =>
    induction hoperations with
    | nil => exact .inl ⟨_, rfl, rfl⟩
    | @cons o o' _ _ ho _ ih =>
      have hname : o'.name? = o.name? := by
        obtain ⟨set, rfl, -⟩ := ho
        rfl
      simp only [List.find?_cons, hname]
      cases o.name? == some name with
      | true => exact .inr ⟨o, o', rfl, rfl, ho⟩
      | false => exact ih
  | none =>
    cases hoperations with
    | nil => exact .inl ⟨_, rfl, rfl⟩
    | cons ho hmore =>
      cases hmore with
      | nil => exact .inr ⟨_, _, rfl, rfl, ho⟩
      | cons _ _ => exact .inl ⟨_, rfl, rfl⟩

/-- Each definition comes of one of the document. -/
theorem Inlines.exists_of_mem (h : d.Inlines d') {x' : Definition} (hx' : x' ∈ d'.definitions) :
    ∃ x ∈ d.definitions, Definition.Inlines d.fragments x x' := by
  unfold Inlines at h
  generalize d.fragments = fragments, d.definitions = xs, d'.definitions = xs' at h hx' ⊢
  induction h with
  | nil => exact absurd hx' List.not_mem_nil
  | cons hx _ ih =>
    rcases List.mem_cons.1 hx' with rfl | hx'
    · exact ⟨_, List.mem_cons_self, hx⟩
    · exact (ih hx').imp fun _ h => ⟨List.mem_cons_of_mem _ h.1, h.2⟩

/-- The same fragments are known. -/
theorem Inlines.contains_eq (h : d.Inlines d') : d'.fragments.contains = d.fragments.contains := by
  funext name
  unfold Inlines at h
  unfold fragments
  rw [Registry.contains_ofList, Registry.contains_ofList]
  generalize d.fragments = fragments, d.definitions = xs, d'.definitions = xs' at h ⊢
  induction h with
  | nil => rfl
  | @cons x x' _ _ hx _ ih =>
    obtain ⟨set, rfl, -⟩ := hx
    cases x with
    | operation o => exact ih
    | fragment f => exact congrArg (Named.name f == name || ·) ih

/-- A fragment of a document is known. -/
theorem contains_of_mem {f : Fragment} (h : .fragment f ∈ d.definitions) :
    d.fragments.contains f.name = true := by
  rw [fragments, Registry.contains_ofList, List.any_eq_true]
  exact ⟨f, List.mem_filterMap.2 ⟨_, h, rfl⟩, beq_self_eq_true _⟩

/-- No other fragment becomes known. -/
theorem Inlines.get?_of_unknown (h : d.Inlines d') {name : String}
    (hname : d.fragments.get? name = none) : d'.fragments.get? name = none := by
  have hcontains := congrFun h.contains_eq name
  simpa [Registry.contains, hname] using hcontains

/-- No known fragment is spread any more. -/
theorem Inlines.get?_eq_none (h : d.Inlines d') {x' : Definition} (hx' : x' ∈ d'.definitions) :
    ∀ name ∈ x'.selections.spreads, d'.fragments.get? name = none := by
  intro name hname
  obtain ⟨x, -, set, rfl, hset⟩ := h.exists_of_mem hx'
  have hselections : (x.withSelections set).selections = set := by cases x <;> rfl
  rw [hselections] at hname
  exact h.get?_of_unknown (hset.get?_eq_none name hname)

/-- Without known fragments to spread there are no cyclic ones. -/
theorem Inlines.acyclic (h : d.Inlines d') : ¬ d'.FragmentsCycle := by
  rintro ⟨f, hf⟩
  obtain ⟨g, ⟨name, hname, hget⟩, -⟩ := TransGen.head'_iff.1 hf
  obtain ⟨_, -, _, -, hlast⟩ := TransGen.tail'_iff.1 hf
  have hmem := mem_of_mem_fragments (Registry.mem_of_get? hlast).1
  rw [h.get?_eq_none hmem name hname] at hget
  cases hget

end Document

/-! ## Validity -/

namespace Validation

variable {s : Schema}

/-- No search goes on from names of no fragment. -/
theorem reaches_of_unknown {target : String} {n : Nat} {available : List Fragment}
    {pending : List String} (htarget : target ∉ pending)
    (h : ∀ name ∈ pending, (available.find? fun f => f.name == name) = none) :
    reaches target n available pending = false := by
  cases n with
  | zero => simpa [reaches] using htarget
  | succ n =>
    rw [reaches]
    induction pending with
    | nil => rfl
    | cons name pending ih =>
      obtain ⟨hname, hpending⟩ := List.forall_mem_cons.1 h
      rw [List.mem_cons, not_or] at htarget
      rw [throughPending, if_neg fun hsame => htarget.1 hsame.symm, hname]
      exact ih htarget.2 hpending

/-- Nothing is found wrong with a field if nothing is, and with other selections below it
that pass wherever the first do. -/
theorem fieldFindings_eq_nil {parent : String} {node : FieldNode} {hasSelection : Bool}
    {below below' : String → List Finding} (hbelow : ∀ t, below t = [] → below' t = [])
    (h : fieldFindings s parent node hasSelection below = []) :
    fieldFindings s parent node hasSelection below' = [] := by
  unfold fieldFindings at h ⊢
  split
  · rfl
  · next hn =>
    rw [if_neg hn] at h
    split
    · next hd => simp [hd] at h
    · next d hd =>
      simp only [hd] at h
      obtain ⟨harguments, htype⟩ := List.append_eq_nil_iff.1 h
      refine List.append_eq_nil_iff.2 ⟨harguments, ?_⟩
      cases ht : s.type? d.type.baseName with
      | none => rfl
      | some t =>
        simp only [ht] at htype ⊢
        split
        · next hleaf => simp [hleaf] at htype
        · next hleaf =>
          rw [if_neg hleaf] at htype
          split
          · next hcomposite =>
            rw [if_pos hcomposite] at htype
            obtain ⟨hselection, hsub⟩ := List.append_eq_nil_iff.1 htype
            exact List.append_eq_nil_iff.2 ⟨hselection, hbelow _ hsub⟩
          · rfl

/-- What nothing is found wrong with is so still when fragments are inlined in it in which
nothing is found wrong on their conditions. -/
theorem selectionFindings_of_inlines {fragments : Registry Fragment} {known : String → Bool}
    (hfragments : ∀ f ∈ fragments.items, conditionFindings s f.condition f.position = [] ∧
      selectionFindings s known f.selections (conditionType? s f.condition) = [])
    {set set' : SelectionSet} (h : SelectionSet.Inlines fragments set set')
    {parent? : Option String} (hset : selectionFindings s known set parent? = []) :
    selectionFindings s known set' parent? = [] := by
  induction h generalizing parent? with
  | nil => rfl
  | @field node sub sub' rest rest' number hsub _ ihs ih =>
    unfold selectionFindings at hset ⊢
    obtain ⟨hfield, hrest⟩ := List.append_eq_nil_iff.1 hset
    refine List.append_eq_nil_iff.2 ⟨?_, ih hrest⟩
    cases parent? with
    | none => rfl
    | some parent =>
      rw [hsub.isEmpty_eq]
      exact fieldFindings_eq_nil (fun t ht => ihs ht) hfield
  | @inline head sub sub' rest rest' _ _ ihs ih =>
    rw [selectionFindings] at hset ⊢
    obtain ⟨hinline, hrest⟩ := List.append_eq_nil_iff.1 hset
    refine List.append_eq_nil_iff.2 ⟨?_, ih hrest⟩
    cases hc : head.condition? with
    | none =>
      rw [hc] at hinline
      exact ihs hinline
    | some c =>
      rw [hc] at hinline
      obtain ⟨hcondition, hsub⟩ := List.append_eq_nil_iff.1 hinline
      exact List.append_eq_nil_iff.2 ⟨hcondition, ihs hsub⟩
  | @known sp f selections rest rest' hf _ _ ihs ih =>
    rw [selectionFindings] at hset
    obtain ⟨hcondition, hselections⟩ := hfragments f (Registry.mem_of_get? hf).1
    have hposition : conditionFindings s f.condition f.position = [] := hcondition
    simp only [Spread.inline, selectionFindings, hposition, ihs hselections, List.append_nil,
      List.nil_append]
    exact ih (List.append_eq_nil_iff.1 hset).2
  | unknown _ _ ih =>
    rw [selectionFindings] at hset ⊢
    obtain ⟨hspread, hrest⟩ := List.append_eq_nil_iff.1 hset
    exact List.append_eq_nil_iff.2 ⟨hspread, ih hrest⟩

/-- A valid document is valid with its fragments inlined. -/
theorem valid_of_inlines {d d' : Document} (h : d.Inlines d') (hd : findings s d = []) :
    findings s d' = [] := by
  have hfragments : ∀ f ∈ d.fragments.items, conditionFindings s f.condition f.position = [] ∧
      selectionFindings s d.fragments.contains f.selections (conditionType? s f.condition) = [] :=
    fun f hf =>
      have hmem := of_mem_fragment hd (Document.mem_of_mem_fragments hf)
      ⟨hmem.1, hmem.2.1⟩
  refine List.flatMap_eq_nil_iff.2 fun x' hx' => ?_
  have hspreads := h.get?_eq_none hx'
  obtain ⟨x, hx, set, rfl, hset⟩ := h.exists_of_mem hx'
  cases x with
  | operation o =>
    have hdefinition := List.flatMap_eq_nil_iff.1 hd _ hx
    rw [definitionFindings] at hdefinition
    rw [← h.contains_eq] at hdefinition hfragments
    exact selectionFindings_of_inlines hfragments hset hdefinition
  | fragment f =>
    obtain ⟨hcondition, hselections, -⟩ := of_mem_fragment hd hx
    have hbody := selectionFindings_of_inlines hfragments hset hselections
    have hcyclic : isCyclic d'.fragments { f with selections := set } = false := by
      refine reaches_of_unknown (fun hname => ?_) hspreads
      have hknown := Document.contains_of_mem hx
      rw [← h.contains_eq, Registry.contains, hspreads f.name hname] at hknown
      exact Bool.noConfusion hknown
    rw [← h.contains_eq] at hbody
    simp only [Definition.withSelections, definitionFindings, hcondition, hbody, hcyclic,
      List.append_nil]
    rfl

end Validation

end GraphQL
