/-
GraphQL.Proofs.InlinedGroups — what is collected where fragments are inlined.

Where a fragment is spread twice, its fields are one selection each, and collection merges the
two occurrences into one; once it is inlined they are two selections. So groups of the two
documents have different lengths at every level, and their fields different numbers. What
they have in common is where they come from (`FieldGroup.Inlines`): both are made by adding
selections one after the other, the one from fields of the document and the other from
copies of those. Adding a selection a second time changes neither what the first selection of
a group is nor what is collected below the group.

* `Scope.inlines_fieldsOn` — what is collected from inlined selection sets are copies of what
  is collected from the sets.
* `FieldGroups.inlines_ofFields`, `Scope.inlines_groupsOn` — so are the groups of it.
* `Scope.subGroups_ofFields` — below a group the same is collected as below all selections it
  was made of.
* `Scope.inlines_subGroups` — hence what is collected below such groups is again alike.
-/
import Mathlib.Data.List.Induction
import GraphQL.Proofs.FragmentInlining

namespace GraphQL

open Relation

/-! ## Copies of fields -/

/-- The second field is a copy of the first one, with fragments inlined in its selections. -/
structure Field.Inlines (fragments : Registry Fragment) (f f' : Field) : Prop where
  node : f'.node = { f.node with number := f'.node.number }
  selections : SelectionSet.Inlines fragments f.selections f'.selections

theorem Field.Inlines.responseKey {fragments : Registry Fragment} {f f' : Field}
    (h : Field.Inlines fragments f f') : f'.node.responseKey = f.node.responseKey := by
  rw [h.node]
  rfl

namespace Scope

variable {sc : Scope} {fragments' : Registry Fragment} {τ : Type} {restrict : String → τ → Option τ}

/-- The fields of occurrences are copies of those of others. -/
abbrev Copies (fragments : Registry Fragment) (os os' : List (Occurrence τ)) : Prop :=
  List.Forall₂ (fun o o' => Field.Inlines fragments o.field o'.field) os os'

theorem copies_under {condition? : Option String} {directives : List Directive}
    {body body' : τ → List (Occurrence τ)}
    (h : ∀ t, Copies sc.fragments (body t) (body' t)) (t : τ) :
    Copies sc.fragments (occurrencesUnder sc restrict condition? directives body t)
      (occurrencesUnder { sc with fragments := fragments' } restrict condition? directives
        body' t) := by
  have hincludes : Scope.includes { sc with fragments := fragments' } directives =
      sc.includes directives := rfl
  unfold occurrencesUnder
  rw [hincludes]
  split
  · cases condition? with
    | none => exact h t
    | some c =>
      cases hc : restrict c t with
      | none => simpa only [hc] using .nil
      | some t' => simpa only [hc] using h t'
  · exact .nil

/-- Walks over a selection set and over the inlined set come to copies, if enough fragments are
available to the first one: by induction on what the inlined set comes of. -/
theorem copies_of_inlines (hcycle : ¬ ∃ f, TransGen (Fragment.Spreads sc.fragments) f f)
    {set set' : SelectionSet} (h : SelectionSet.Inlines sc.fragments set set')
    {enter' : String → τ → List (Occurrence τ)}
    (henter' : ∀ name, sc.fragments.get? name = none → ∀ t, enter' name t = [])
    {n : Nat} {available : List Fragment}
    (hn : Fragment.Enough sc.fragments set.spreads n available) (t : τ) :
    Copies sc.fragments (set.occurrences sc restrict (sc.enterFragment restrict n available) t)
      (set'.occurrences { sc with fragments := fragments' } restrict enter' t) := by
  have hincludes : ∀ directives, Scope.includes { sc with fragments := fragments' } directives =
      sc.includes directives := fun _ => rfl
  induction h generalizing n available t with
  | nil => exact .nil
  | @field node sub sub' rest rest' number hsub _ _ ih =>
    rw [SelectionSet.occurrences, SelectionSet.occurrences, hincludes]
    refine List.rel_append ?_ (ih (hn.mono (List.subset_append_right _ _)) t)
    split
    · exact .cons ⟨rfl, hsub⟩ .nil
    · exact .nil
  | @inline head sub sub' rest rest' _ _ ihs ih =>
    rw [SelectionSet.occurrences, SelectionSet.occurrences]
    refine List.rel_append (copies_under (fun t => ihs ?_ t) t) (ih ?_ t)
    · exact hn.mono (List.subset_append_left _ _)
    · exact hn.mono (List.subset_append_right _ _)
  | @known sp f selections rest rest' hf _ _ ihs ih =>
    obtain ⟨m, rfl, hothers⟩ := hn.enter hcycle List.mem_cons_self hf
    have hbody : ∀ t, Copies sc.fragments
        (occurrencesUnder sc restrict (some f.condition) f.directives
          (f.selections.occurrences sc restrict (sc.enterFragment restrict m
            (available.filter fun g => g.name != sp.name))) t)
        (occurrencesUnder { sc with fragments := fragments' } restrict (some f.condition)
          f.directives
          (selections.occurrences { sc with fragments := fragments' } restrict enter') t) :=
      copies_under (ihs hothers)
    rw [Spread.inline, SelectionSet.occurrences, SelectionSet.occurrences]
    refine List.rel_append ?_ (ih (hn.mono (List.subset_cons_self _ _)) t)
    rw [enterFragment, hn.find? List.mem_cons_self, hf, occurrencesUnder, hincludes]
    split
    · simpa [SelectionSet.occurrences] using hbody t
    · exact .nil
  | @unknown sp rest rest' hf _ ih =>
    have hnone : sc.enterFragment restrict n available sp.name t = [] := by
      cases n with
      | zero => rfl
      | succ n => rw [enterFragment, hn.find? List.mem_cons_self, hf]
    rw [SelectionSet.occurrences, SelectionSet.occurrences, hnone, henter' _ hf, ite_self, ite_self]
    exact ih (hn.mono (List.subset_cons_self _ _)) t

/-- What is collected from inlined selection sets are copies of what is collected from the
sets. -/
theorem inlines_fieldsOn (sc : Scope) (hcycle : ¬ ∃ f, TransGen (Fragment.Spreads sc.fragments) f f)
    (hunknown : ∀ name, sc.fragments.get? name = none → fragments'.get? name = none)
    {sets sets' : List SelectionSet}
    (h : List.Forall₂ (SelectionSet.Inlines sc.fragments) sets sets') (object : String) :
    List.Forall₂ (Field.Inlines sc.fragments) (sc.fieldsOn object sets)
      (fieldsOn { sc with fragments := fragments' } object sets') := by
  refine List.rel_flatMap h fun set set' hset => ?_
  refine List.forall₂_map_left_iff.2 (List.forall₂_map_right_iff.2 ?_)
  refine copies_of_inlines hcycle hset (fun name hname t => ?_) (.all _ _) object
  have hfind : (fragments'.items.find? fun f => f.name == name) = none := hunknown name hname
  cases hn : fragments'.items.length with
  | zero => rfl
  | succ n => rw [enterFragment, hfind]

end Scope

/-! ## Groups of copies -/

/-- The group of a selection and further ones, added one after the other. -/
def FieldGroup.ofFields (f : Field) (more : List Field) : FieldGroup :=
  more.foldl FieldGroup.add (.single f)

namespace FieldGroup

variable {f x : Field} {more : List Field}

theorem ofFields_concat : ofFields f (more ++ [x]) = (ofFields f more).add x := by
  rw [ofFields, List.foldl_append]
  rfl

@[simp] theorem first_ofFields : (ofFields f more).first = f := by
  induction more using List.reverseRecOn with
  | nil => rfl
  | append_singleton more x ih => rw [ofFields_concat, first_add, ih]

theorem fields_ofFields_subset : (ofFields f more).fields ⊆ f :: more := by
  induction more using List.reverseRecOn with
  | nil => exact List.Subset.refl _
  | append_singleton more x ih =>
    intro y hy
    rw [ofFields_concat] at hy
    rcases FieldGroups.mem_fields_add hy with hy | rfl
    · exact List.mem_append_left [x] (ih hy)
    · simp

end FieldGroup

/-- The second field is a copy of the first one, each a field of its document. -/
structure Field.Copied (d d' : Document) (f f' : Field) : Prop where
  inlines : Field.Inlines d.fragments f f'
  mem : f ∈ d.fields
  mem' : f' ∈ d'.fields

theorem Field.copied_of_inlines {d d' : Document} {fs fs' : List Field}
    (h : List.Forall₂ (Field.Inlines d.fragments) fs fs') (hfs : fs ⊆ d.fields)
    (hfs' : fs' ⊆ d'.fields) : List.Forall₂ (Field.Copied d d') fs fs' := by
  induction h with
  | nil => exact .nil
  | cons hf _ ih =>
    obtain ⟨hmem, hfs⟩ := List.cons_subset.1 hfs
    obtain ⟨hmem', hfs'⟩ := List.cons_subset.1 hfs'
    exact .cons ⟨hf, hmem, hmem'⟩ (ih hfs hfs')

theorem Field.mem_of_copied {d d' : Document} {fs fs' : List Field}
    (h : List.Forall₂ (Field.Copied d d') fs fs') : fs ⊆ d.fields ∧ fs' ⊆ d'.fields := by
  induction h with
  | nil => exact ⟨List.nil_subset _, List.nil_subset _⟩
  | cons hf _ ih => exact ⟨List.cons_subset.2 ⟨hf.mem, ih.1⟩, List.cons_subset.2 ⟨hf.mem', ih.2⟩⟩

/-- Of two groups the second is made of copies of the selections that the first is made of. -/
def FieldGroup.Inlines (d d' : Document) (g g' : FieldGroup) : Prop :=
  ∃ f more f' more', g = .ofFields f more ∧ g' = .ofFields f' more' ∧
    List.Forall₂ (Field.Copied d d') (f :: more) (f' :: more')

variable {d d' : Document}

namespace FieldGroup.Inlines

variable {g g' : FieldGroup} {f f' : Field}

theorem single (hf : Field.Copied d d' f f') : Inlines d d' (.single f) (.single f') :=
  ⟨f, [], f', [], rfl, rfl, .cons hf .nil⟩

theorem add (h : Inlines d d' g g') (hf : Field.Copied d d' f f') :
    Inlines d d' (g.add f) (g'.add f') := by
  obtain ⟨f₀, more, f₀', more', rfl, rfl, hcopied⟩ := h
  exact ⟨f₀, more ++ [f], f₀', more' ++ [f'], ofFields_concat.symm, ofFields_concat.symm,
    List.rel_append hcopied (.cons hf .nil)⟩

/-- The first selection of the one is a copy of that of the other. -/
theorem first (h : Inlines d d' g g') : Field.Copied d d' g.first g'.first := by
  obtain ⟨f, more, f', more', rfl, rfl, hcopied⟩ := h
  rw [first_ofFields, first_ofFields]
  exact (List.forall₂_cons.1 hcopied).1

theorem key (h : Inlines d d' g g') : g'.key = g.key := h.first.inlines.responseKey

end FieldGroup.Inlines

/-- Copies of selections are grouped like the selections. -/
theorem FieldGroups.inlines_ofFields {fs fs' : List Field}
    (h : List.Forall₂ (Field.Copied d d') fs fs') :
    List.Forall₂ (FieldGroup.Inlines d d') (ofFields fs) (ofFields fs') := by
  refine List.rel_foldl (fun gs gs' hgs f f' hf => ?_) .nil h
  induction hgs with
  | nil => exact .cons (.single hf) .nil
  | cons hg hgs ih =>
    rw [add, add, hg.key, hf.inlines.responseKey]
    split
    · exact .cons (hg.add hf) hgs
    · exact .cons hg ih

namespace Scope

variable {sc : Scope} {object : String}

theorem groupsOn_append (sets sets' : List SelectionSet) :
    sc.groupsOn object (sets ++ sets') =
      (sc.fieldsOn object sets').foldl (fun gs f => .add f gs) (sc.groupsOn object sets) := by
  rw [groupsOn, fieldsOn, List.flatMap_append, FieldGroups.ofFields, List.foldl_append]
  rfl

/-- Below a group the same is collected as below the selections it was made of, although those
that were added again are in it only once. -/
theorem subGroups_ofFields (hd : Field.Identified d.fields) (s : Schema) (vars : VariableValues)
    {f : Field} {more : List Field} (h : f :: more ⊆ d.fields) (object : String) :
    (ofDocument s d vars).subGroups (.ofFields f more) object =
      (ofDocument s d vars).groupsOn object ((f :: more).map Field.selections) := by
  induction more using List.reverseRecOn with
  | nil => rfl
  | append_singleton more x ih =>
    rw [← List.cons_append] at h
    obtain ⟨hmore, hx⟩ := List.append_subset.1 h
    have hxmem : x ∈ d.fields := hx (List.mem_singleton_self x)
    have ih := ih hmore
    rw [FieldGroup.ofFields_concat, ← List.cons_append, List.map_append, List.map_singleton,
      groupsOn_append, ← ih]
    by_cases hknown : x ∈ (FieldGroup.ofFields f more).fields
    · have hsets : ∀ set ∈ (f :: more).map Field.selections, set.fields ⊆ d.fields :=
        List.forall_mem_map.2 fun f' hf' => Document.fields_selections_subset (hmore hf')
      have hcollected : (ofDocument s d vars).Collected object _ _ :=
        collected_groupsOn (hd.subset (fieldsWithin_subset s vars hsets))
      have hset : [x.selections] ⊆ (f :: more).map Field.selections := by
        refine List.cons_subset.2 ⟨List.mem_map_of_mem ?_, List.nil_subset _⟩
        exact FieldGroup.fields_ofFields_subset hknown
      rw [FieldGroup.add_of_mem hknown, ih, ← groupsOn_append, hcollected.again _ hset]
    · have hnew : ∀ y ∈ (FieldGroup.ofFields f more).fields, y.node.number ≠ x.node.number := by
        intro y hy hnumber
        obtain rfl := hd y (hmore (FieldGroup.fields_ofFields_subset hy)) x hxmem hnumber
        exact hknown hy
      rw [subGroups, FieldGroup.fields_add_of_new hnew, List.map_append]
      exact groupsOn_append _ _

/-- The groups of inlined selection sets are made of copies of what the groups of the sets are
made of. -/
theorem inlines_groupsOn (h : d.Inlines d') (hcycle : ¬ d.FragmentsCycle) (s : Schema)
    (vars : VariableValues) {sets sets' : List SelectionSet}
    (hsets : List.Forall₂ (SelectionSet.Inlines d.fragments) sets sets')
    (hsub : ∀ set ∈ sets, set.fields ⊆ d.fields) (hsub' : ∀ set ∈ sets', set.fields ⊆ d'.fields)
    (object : String) :
    List.Forall₂ (FieldGroup.Inlines d d') ((ofDocument s d vars).groupsOn object sets)
      ((ofDocument s d' vars).groupsOn object sets') := by
  have hfields := inlines_fieldsOn (ofDocument s d vars) hcycle
    (fun _ => h.get?_of_unknown) hsets object
  refine FieldGroups.inlines_ofFields (Field.copied_of_inlines hfields ?_ ?_)
  · exact List.Subset.trans (fieldsOn_subset _ _ _) (fieldsWithin_subset s vars hsub)
  · exact List.Subset.trans (fieldsOn_subset _ _ _) (fieldsWithin_subset s vars hsub')

/-- The same of the groups collected below two groups like that. -/
theorem inlines_subGroups (h : d.Inlines d') (hcycle : ¬ d.FragmentsCycle)
    (hd : Field.Identified d.fields) (hd' : Field.Identified d'.fields) (s : Schema)
    (vars : VariableValues) {g g' : FieldGroup} (hg : FieldGroup.Inlines d d' g g')
    (object : String) :
    List.Forall₂ (FieldGroup.Inlines d d') ((ofDocument s d vars).subGroups g object)
      ((ofDocument s d' vars).subGroups g' object) := by
  obtain ⟨f, more, f', more', rfl, rfl, hcopied⟩ := hg
  obtain ⟨hmem, hmem'⟩ := Field.mem_of_copied hcopied
  rw [subGroups_ofFields hd s vars hmem, subGroups_ofFields hd' s vars hmem']
  refine inlines_groupsOn h hcycle s vars ?_ ?_ ?_ object
  · refine List.forall₂_map_left_iff.2 (List.forall₂_map_right_iff.2 ?_)
    exact hcopied.imp fun _ _ hf => hf.inlines.selections
  · exact List.forall_mem_map.2 fun f hf => Document.fields_selections_subset (hmem hf)
  · exact List.forall_mem_map.2 fun f hf => Document.fields_selections_subset (hmem' hf)

end Scope

end GraphQL
