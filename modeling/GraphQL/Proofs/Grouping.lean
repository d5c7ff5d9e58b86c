/-
GraphQL.Proofs.Grouping — grouped selections are the selections, each once.

`FieldGroups.ofFields` adds selections one by one to the groups of their keys. `Gathers`
says what the groups have become after some selections: they hold exactly those, each in
the group of its key, no key stands twice, and groups and the selections of a group are
in the order in which the list first comes to them (`MetBefore`).

* `FieldGroups.Gathers.add` — one more selection: it is known, it joins the group of its
  key, or it starts a group at the end.
* `FieldGroups.gathers_ofFields` — hence what the groups of a list gather.
* `FieldGroups.Gathers.foldl_eq` — selections that are in their groups change nothing.

Selections count as the same if they have one number; `Field.Identified` says that of
some fields no two different ones do.
-/
import GraphQL.Proofs.Positions

namespace GraphQL

/-- No two different ones of some fields have the same number. -/
def Field.Identified (fs : List Field) : Prop :=
  ∀ f ∈ fs, ∀ f' ∈ fs, f.node.number = f'.node.number → f = f'

theorem Field.Identified.subset {fs fs' : List Field} (h : Identified fs) (hsub : fs' ⊆ fs) :
    Identified fs' :=
  fun f hf f' hf' => h f (hsub hf) f' (hsub hf')

/-- Fields with different numbers are identified by them. -/
theorem Field.identified_of_nodup {fs : List Field} (h : (fs.map (·.node.number)).Nodup) :
    Identified fs :=
  fun _ hf _ hf' hnumber => List.inj_on_of_nodup_map h hf hf' hnumber

/-- Numbering gives the fields of a document different numbers. -/
theorem Document.nodup_numbered (d : Document) : (d.numbered.fields.map (·.node.number)).Nodup := by
  have hselections : ∀ (x : Definition) set, (x.withSelections set).selections = set := by
    intro x set
    cases x <;> rfl
  have hnumbers : ∀ (ds : List Definition) (n : Nat), ∃ count,
      ((numberDefinitions n ds).flatMap fun x => x.selections.fields).map (·.node.number) =
        List.range' n count := by
    intro ds
    induction ds with
    | nil => exact fun n => ⟨0, rfl⟩
    | cons x ds ih =>
      intro n
      obtain ⟨count, hcount⟩ := ih (x.selections.numberFrom n).2
      refine ⟨x.selections.fields.length + count, ?_⟩
      rw [numberDefinitions, List.flatMap_cons, List.map_append, hcount, hselections,
        SelectionSet.map_number_numberFrom, SelectionSet.numberFrom_snd, ← List.range'_append_1]
  obtain ⟨count, hcount⟩ := hnumbers d.definitions 0
  rw [fields, numbered, hcount]
  exact List.nodup_range'

/-- Numbering tells the fields of a document apart. -/
theorem Document.identified_numbered (d : Document) : Field.Identified d.numbered.fields :=
  Field.identified_of_nodup (nodup_numbered d)

/-- The fields of a document that has been read have different numbers. -/
theorem Document.nodup_of_parse {text : String} {d : Document}
    (h : Document.parse text = .ok d) : (d.fields.map (·.node.number)).Nodup := by
  simp only [parse] at h
  split at h
  · obtain rfl := Except.ok.inj h
    exact nodup_numbered _
  · simp at h

/-- The fields of a document that has been read are told apart by their numbers. -/
theorem Document.identified_of_parse {text : String} {d : Document}
    (h : Document.parse text = .ok d) : Field.Identified d.fields :=
  Field.identified_of_nodup (nodup_of_parse h)

/-! ## The order of first occurrences -/

/-- A list comes to a field before it first comes to another. -/
def MetBefore (fs : List Field) (f f' : Field) : Prop :=
  ∃ before after, fs = before ++ f :: after ∧ f' ∉ before ∧ f' ≠ f

namespace MetBefore

variable {fs : List Field} {f f' : Field}

theorem irrefl (f : Field) : ¬ MetBefore fs f f := fun ⟨_, _, _, _, hne⟩ => hne rfl

theorem append (h : MetBefore fs f f') (more : List Field) : MetBefore (fs ++ more) f f' := by
  obtain ⟨before, after, rfl, hrest⟩ := h
  exact ⟨before, after ++ more, by simp, hrest⟩

/-- What the list has come to, it comes to before what is not in it. -/
theorem of_mem (hf : f ∈ fs) (hf' : f' ∉ fs) : MetBefore fs f f' := by
  obtain ⟨before, after, rfl⟩ := List.append_of_mem hf
  simp only [List.mem_append, List.mem_cons, not_or] at hf'
  exact ⟨before, after, rfl, hf'.1, hf'.2.1⟩

end MetBefore

/-! ## Groups with one more selection -/

namespace FieldGroup

@[simp] theorem first_add (g : FieldGroup) (f : Field) : (g.add f).first = g.first := by
  unfold add; split <;> rfl

theorem first_mem (g : FieldGroup) : g.first ∈ g.fields := List.mem_cons_self

theorem add_of_mem {g : FieldGroup} {f : Field} (h : f ∈ g.fields) : g.add f = g :=
  if_pos (List.any_eq_true.2 ⟨f, h, by simp⟩)

theorem fields_add_of_new {g : FieldGroup} {f : Field}
    (h : ∀ f' ∈ g.fields, f'.node.number ≠ f.node.number) : (g.add f).fields = g.fields ++ [f] := by
  have hany : ¬ (g.fields.any fun f' => f'.node.number == f.node.number) = true := by
    simpa using h
  rw [add, if_neg hany]
  rfl

end FieldGroup

namespace FieldGroups

theorem add_of_new_key {f : Field} {gs : FieldGroups} (h : f.node.responseKey ∉ keys gs) :
    add f gs = gs ++ [.single f] := by
  induction gs with
  | nil => rfl
  | cons g gs ih =>
    simp only [keys, List.map_cons, List.mem_cons, not_or] at h
    rw [add, if_neg fun hkey => h.1 hkey.symm, ih h.2, List.cons_append]

/-- The group of a selection, which it joins, and the groups around it. -/
theorem add_of_known_key {f : Field} {gs : FieldGroups} (h : f.node.responseKey ∈ keys gs) :
    ∃ xs g ys, gs = xs ++ g :: ys ∧ g.key = f.node.responseKey ∧
      add f gs = xs ++ g.add f :: ys := by
  induction gs with
  | nil => simp [keys] at h
  | cons g gs ih =>
    by_cases hkey : g.key = f.node.responseKey
    · exact ⟨[], g, gs, rfl, hkey, by rw [add, if_pos hkey]; rfl⟩
    · simp only [keys, List.map_cons, List.mem_cons] at h
      obtain ⟨xs, g', ys, rfl, hg', hadd⟩ := ih (h.resolve_left fun h => hkey h.symm)
      exact ⟨g :: xs, g', ys, rfl, hg', by rw [add, if_neg hkey, hadd]; rfl⟩

/-- Two groups of one key are the same. -/
theorem eq_of_key_eq {gs : FieldGroups} (h : (keys gs).Nodup) {g g' : FieldGroup} (hg : g ∈ gs)
    (hg' : g' ∈ gs) (hkey : g.key = g'.key) : g = g' :=
  List.inj_on_of_nodup_map h hg hg' hkey

/-! ## What groups gather -/

/-- The groups are those of a list of selections. -/
structure Gathers (gs : FieldGroups) (fs : List Field) : Prop where
  mem (f : Field) : (∃ g ∈ gs, f ∈ g.fields) ↔ f ∈ fs
  key : ∀ g ∈ gs, ∀ f ∈ g.fields, f.node.responseKey = g.key
  keys : (keys gs).Nodup
  /-- A list comes to a selection of an earlier group before those of a later one. -/
  groups : gs.Pairwise fun g g' => ∀ f ∈ g'.fields, MetBefore fs g.first f
  fields : ∀ g ∈ gs, g.fields.Pairwise (MetBefore fs)

namespace Gathers

variable {gs : FieldGroups} {fs : List Field} {f : Field}

theorem nil : Gathers [] [] := ⟨by simp, by simp, by simp [FieldGroups.keys], .nil, by simp⟩

/-- A selection that is in a group is in the group of its key. -/
theorem exists_group (h : gs.Gathers fs) (hf : f ∈ fs) :
    ∃ g ∈ gs, f ∈ g.fields ∧ g.key = f.node.responseKey := by
  obtain ⟨g, hg, hmem⟩ := (h.mem f).2 hf
  exact ⟨g, hg, hmem, (h.key g hg f hmem).symm⟩

/-- A selection that is in its group changes nothing. -/
theorem add_eq (h : gs.Gathers fs) (hf : f ∈ fs) : FieldGroups.add f gs = gs := by
  obtain ⟨g, hg, hmem, hkey⟩ := h.exists_group hf
  have hknown : f.node.responseKey ∈ FieldGroups.keys gs := hkey ▸ List.mem_map_of_mem hg
  obtain ⟨xs, g', ys, hgs, hkey', hadd⟩ := add_of_known_key hknown
  have hg' : g' ∈ gs := by simp [hgs]
  obtain rfl := eq_of_key_eq h.keys hg hg' (hkey.trans hkey'.symm)
  rw [hadd, FieldGroup.add_of_mem hmem, hgs]

/-- Selections that are in their groups change nothing. -/
theorem foldl_eq (h : gs.Gathers fs) {again : List Field} (hsub : again ⊆ fs) :
    again.foldl (fun gs f => FieldGroups.add f gs) gs = gs := by
  induction again with
  | nil => rfl
  | cons f again ih =>
    obtain ⟨hf, hsub⟩ := List.cons_subset.1 hsub
    rw [List.foldl_cons, h.add_eq hf, ih hsub]

/-- The groups are as well those of a longer list with the same selections. -/
theorem append_of_mem (h : gs.Gathers fs) (hf : f ∈ fs) : gs.Gathers (fs ++ [f]) where
  mem f' := by
    rw [h.mem, List.mem_append, List.mem_singleton]
    exact ⟨.inl, fun hf' => hf'.elim id fun h => h ▸ hf⟩
  key := h.key
  keys := h.keys
  groups := h.groups.imp fun hbefore f' hf' => (hbefore f' hf').append _
  fields g hg := (h.fields g hg).imp fun hbefore => hbefore.append _

/-- A new selection with a new key starts a group. -/
theorem append_of_new_key (h : gs.Gathers fs) (hf : f ∉ fs)
    (hkey : f.node.responseKey ∉ FieldGroups.keys gs) :
    FieldGroups.Gathers (gs ++ [.single f]) (fs ++ [f]) where
  mem f' := by
    rw [List.mem_append, ← h.mem f']
    simp [FieldGroup.single, FieldGroup.fields, or_and_right, exists_or]
  key g hg f' hf' := by
    rcases List.mem_append.1 hg with hg | hg
    · exact h.key g hg f' hf'
    · obtain rfl := List.mem_singleton.1 hg
      obtain rfl := List.mem_singleton.1 hf'
      rfl
  keys := by
    rw [FieldGroups.keys, List.map_append]
    refine List.nodup_append.2 ⟨h.keys, List.nodup_singleton _, fun k hk k' hk' hsame => ?_⟩
    obtain rfl := List.mem_singleton.1 hk'
    rw [hsame] at hk
    exact hkey hk
  groups := by
    refine List.pairwise_append.2
      ⟨h.groups.imp fun hbefore f' hf' => (hbefore f' hf').append _,
        List.pairwise_singleton _ _, ?_⟩
    intro g hg g' hg' f' hf'
    obtain rfl := List.mem_singleton.1 hg'
    obtain rfl := List.mem_singleton.1 hf'
    exact (MetBefore.of_mem ((h.mem _).1 ⟨g, hg, g.first_mem⟩) hf).append _
  fields g hg := by
    rcases List.mem_append.1 hg with hg | hg
    · exact (h.fields g hg).imp fun hbefore => hbefore.append _
    · obtain rfl := List.mem_singleton.1 hg
      exact List.pairwise_singleton _ _

/-- A new selection joins the group of its key. -/
theorem append_of_known_key {xs ys : FieldGroups} {g : FieldGroup}
    (h : FieldGroups.Gathers (xs ++ g :: ys) fs) (hf : f ∉ fs)
    (hkey : g.key = f.node.responseKey) (hfields : (g.add f).fields = g.fields ++ [f]) :
    FieldGroups.Gathers (xs ++ g.add f :: ys) (fs ++ [f]) where
  mem f' := by
    rw [List.mem_append, ← h.mem f']
    simp only [List.mem_append, List.mem_cons, or_and_right, exists_or, exists_eq_left, hfields,
      List.not_mem_nil, or_false, or_assoc]
    exact or_congr_right (or_congr_right or_comm)
  key g' hg' f' hf' := by
    have hold : ∀ g'' ∈ xs ++ g :: ys, f' ∈ g''.fields → f'.node.responseKey = g''.key :=
      fun g'' hg'' => h.key g'' hg'' f'
    rcases List.mem_append.1 hg' with hg' | hg'
    · exact hold g' (by simp [hg']) hf'
    · rcases List.mem_cons.1 hg' with rfl | hg'
      · rw [hfields, List.mem_append, List.mem_singleton] at hf'
        rw [FieldGroup.key_add]
        rcases hf' with hf' | rfl
        · exact hold g (by simp) hf'
        · exact hkey.symm
      · exact hold g' (by simp [hg']) hf'
  keys := by
    have hkeys := h.keys
    simpa only [FieldGroups.keys, List.map_append, List.map_cons, FieldGroup.key_add] using hkeys
  groups := by
    have hmet : ∀ g' ∈ xs ++ g :: ys, MetBefore (fs ++ [f]) g'.first f := fun g' hg' =>
      (MetBefore.of_mem ((h.mem _).1 ⟨g', hg', g'.first_mem⟩) hf).append _
    have hgroups := h.groups.imp
      (S := fun g g' => ∀ f' ∈ g'.fields, MetBefore (fs ++ [f]) g.first f')
      fun hbefore f' hf' => (hbefore f' hf').append _
    rw [List.pairwise_append, List.pairwise_cons] at hgroups ⊢
    obtain ⟨hxs, ⟨hg, hys⟩, hacross⟩ := hgroups
    refine ⟨hxs, ⟨?_, hys⟩, ?_⟩
    · rw [FieldGroup.first_add]
      exact hg
    · intro g₁ hg₁ g₂ hg₂ f' hf'
      rcases List.mem_cons.1 hg₂ with rfl | hg₂
      · rw [hfields, List.mem_append, List.mem_singleton] at hf'
        rcases hf' with hf' | rfl
        · exact hacross g₁ hg₁ g List.mem_cons_self f' hf'
        · exact hmet g₁ (by simp [hg₁])
      · exact hacross g₁ hg₁ g₂ (List.mem_cons_of_mem _ hg₂) f' hf'
  fields g' hg' := by
    have hold : ∀ g'' ∈ xs ++ g :: ys, g''.fields.Pairwise (MetBefore (fs ++ [f])) :=
      fun g'' hg'' => (h.fields g'' hg'').imp fun hbefore => hbefore.append _
    rcases List.mem_append.1 hg' with hg' | hg'
    · exact hold g' (by simp [hg'])
    · rcases List.mem_cons.1 hg' with rfl | hg'
      · rw [hfields, List.pairwise_append]
        refine ⟨hold g (by simp), List.pairwise_singleton _ _, fun f₁ hf₁ f₂ hf₂ => ?_⟩
        obtain rfl := List.mem_singleton.1 hf₂
        exact (MetBefore.of_mem ((h.mem f₁).1 ⟨g, by simp, hf₁⟩) hf).append _
      · exact hold g' (by simp [hg'])

/-- One more selection. -/
theorem add (h : gs.Gathers fs) (hid : Field.Identified (fs ++ [f])) :
    (FieldGroups.add f gs).Gathers (fs ++ [f]) := by
  by_cases hf : f ∈ fs
  · rw [h.add_eq hf]
    exact h.append_of_mem hf
  · by_cases hkey : f.node.responseKey ∈ FieldGroups.keys gs
    · obtain ⟨xs, g, ys, rfl, hg, hadd⟩ := add_of_known_key hkey
      have hnew : ∀ f' ∈ g.fields, f'.node.number ≠ f.node.number := by
        intro f' hf' hnumber
        have hmem : f' ∈ fs := (h.mem f').1 ⟨g, by simp, hf'⟩
        obtain rfl := hid f' (by simp [hmem]) f (by simp) hnumber
        exact hf hmem
      rw [hadd]
      exact h.append_of_known_key hf hg (FieldGroup.fields_add_of_new hnew)
    · rw [add_of_new_key hkey]
      exact h.append_of_new_key hf hkey

/-- No selection stands twice in the groups. -/
theorem nodup (h : gs.Gathers fs) : (gs.flatMap FieldGroup.fields).Nodup := by
  refine List.nodup_flatMap.2 ⟨fun g hg => ?_, ?_⟩
  · refine (h.fields g hg).imp ?_
    rintro f _ hbefore rfl
    exact MetBefore.irrefl f hbefore
  · have hdistinct : gs.Pairwise fun g g' => g.key ≠ g'.key := List.pairwise_map.1 h.keys
    refine hdistinct.imp_of_mem fun {g g'} hg hg' hne => ?_
    intro f hf hf'
    exact hne ((h.key g hg f hf).symm.trans (h.key g' hg' f hf'))

end Gathers

/-- The groups of a list gather it: by induction on the selections that are still to be
added to those of an initial part. -/
theorem gathers_ofFields {fs : List Field} (hid : Field.Identified fs) :
    (ofFields fs).Gathers fs := by
  have hfold : ∀ (more fs : List Field) (gs : FieldGroups), Field.Identified (fs ++ more) →
      gs.Gathers fs → (more.foldl (fun gs f => add f gs) gs).Gathers (fs ++ more) := by
    intro more
    induction more with
    | nil =>
      intro fs gs _ h
      simpa using h
    | cons f more ih =>
      intro fs gs hid h
      rw [List.append_cons] at hid ⊢
      exact ih (fs ++ [f]) (add f gs) hid
        (h.add (hid.subset (List.subset_append_left _ _)))
  exact hfold fs [] [] hid .nil

end FieldGroups

end GraphQL
