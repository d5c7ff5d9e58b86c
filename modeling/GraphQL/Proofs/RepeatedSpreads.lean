/-
GraphQL.Proofs.RepeatedSpreads — how often a node lists a selection.

A node of the normalized tree lists a selection each time that the walks of its level come to it,
where execution lists it once (`FieldGroup.add`). What walks come to stands in the selection sets
of the level (`SelectionSet.topFields`) or in fragments that they enter (`Scope.entered`), and
all these are different parts of the document. So as long as no fragment is entered twice on a
level, no selection is listed twice, and the selection sets of the level below are different
parts of the document again.

* `Normal.lists_putOccurrence` — what one step adds to the nodes.
* `Normal.perm_of_levelNodes` — the nodes of a level list what is met, each time that it is met.
* `Scope.subperm_topFields` — what is met has been written in the sets or in entered fragments.
* `NormalTree.fields_distinct` — where no level enters a fragment twice, the selections of a node
  are different.
* `NormalTree.selections_multiplied` — a valid document that spreads fragments twice.
-/
import Mathlib.Data.List.Perm.Subperm
import Mathlib.Data.Multiset.AddSub
import GraphQL.Proofs.NormalDepth

namespace GraphQL

/-! ## Parts of a document -/

/-- The fields that stand in a selection set itself or in its inline fragments. -/
def SelectionSet.topFields : SelectionSet → List Field
  | .nil => []
  | .field node sub rest => ⟨node, sub⟩ :: rest.topFields
  | .inline _ sub rest => sub.topFields ++ rest.topFields
  | .spread _ rest => rest.topFields

theorem perm_append_append {α : Type} (as bs cs ds : List α) :
    ((as ++ bs) ++ (cs ++ ds)).Perm ((as ++ cs) ++ (bs ++ ds)) := by
  simp only [← Multiset.coe_eq_coe, ← Multiset.coe_add]
  exact add_add_add_comm _ _ _ _

/-- The fields of a selection set are those that stand in it and those that stand in the
sub-selections of its fields. -/
theorem SelectionSet.fields_perm (set : SelectionSet) :
    set.fields.Perm (set.topFields ++ set.fields.flatMap fun f => f.selections.topFields) := by
  induction set with
  | nil => exact .nil
  | field node sub rest ihs ih =>
    rw [fields, topFields, List.flatMap_cons, List.flatMap_append, List.cons_append]
    refine .cons _ ((ihs.append ih).trans ?_)
    refine (perm_append_append _ _ _ _).trans ?_
    simp only [List.append_assoc]
    exact List.perm_append_comm_assoc _ _ _
  | inline head sub rest ihs ih =>
    rw [fields, topFields, List.flatMap_append]
    exact (ihs.append ih).trans (perm_append_append _ _ _ _)
  | spread s rest ih => exact ih

theorem flatMap_perm_append {α β : Type} {f g h : α → List β} (xs : List α)
    (hperm : ∀ x ∈ xs, (f x).Perm (g x ++ h x)) :
    (xs.flatMap f).Perm (xs.flatMap g ++ xs.flatMap h) := by
  induction xs with
  | nil => exact .nil
  | cons x xs ih =>
    obtain ⟨hx, hxs⟩ := List.forall_mem_cons.1 hperm
    simp only [List.flatMap_cons]
    exact (hx.append (ih hxs)).trans (perm_append_append _ _ _ _)

/-- The fields of a document are those that stand in its definitions and those that stand in the
sub-selections of its fields. -/
theorem Document.fields_perm (d : Document) :
    d.fields.Perm ((d.definitions.flatMap fun x => x.selections.topFields) ++
      d.fields.flatMap fun f => f.selections.topFields) := by
  have hfields : (d.fields.flatMap fun f => f.selections.topFields) =
      d.definitions.flatMap fun x => x.selections.fields.flatMap fun f => f.selections.topFields :=
    List.flatMap_assoc
  rw [hfields]
  exact flatMap_perm_append _ fun x _ => x.selections.fields_perm

theorem subperm_flatMap {α β : Type} {xs ys : List α} (h : xs.Subperm ys) (f : α → List β) :
    (xs.flatMap f).Subperm (ys.flatMap f) := by
  obtain ⟨zs, hperm, hsub⟩ := h
  exact (hperm.flatMap_right f).symm.subperm.trans (hsub.flatMap f).subperm

/-- What stands in different definitions and below different fields of a document is different. -/
theorem Document.nodup_topFields {d : Document} (h : (d.fields.map (·.node.number)).Nodup)
    {xs : List Definition} (hxs : xs.Nodup) (hdefinitions : xs ⊆ d.definitions)
    {fs : List Field} (hfs : fs.Nodup) (hfields : fs ⊆ d.fields) :
    (((xs.flatMap fun x => x.selections.topFields) ++
      fs.flatMap fun f => f.selections.topFields).map (·.node.number)).Nodup := by
  have hsub : ((xs.flatMap fun x => x.selections.topFields) ++
      fs.flatMap fun f => f.selections.topFields).Subperm d.fields :=
    ((subperm_flatMap (hxs.subperm hdefinitions) _).append
      (subperm_flatMap (hfs.subperm hfields) _)).trans d.fields_perm.symm.subperm
  obtain ⟨fields, hperm, hsublist⟩ := hsub
  exact ((hperm.map _).nodup_iff).1 ((hsublist.map _).nodup h)

/-! ## Entered fragments -/

namespace Scope

/-- The object types on which an inline fragment or a named one is walked over. -/
def narrowed (sc : Scope) (condition? : Option String) (directives : List Directive)
    (objects : List String) : List String :=
  if sc.includes directives then
    match condition? with
    | none => objects
    | some c => (Normal.restrict sc c objects).getD []
  else []

end Scope

/-- The fragments that a walk over a selection set enters. `enter` gives those of a spread. -/
def SelectionSet.entered (sc : Scope) (enter : String → List String → List Fragment) :
    SelectionSet → List String → List Fragment
  | .nil, _ => []
  | .field _ _ rest, objects => rest.entered sc enter objects
  | .inline head sub rest, objects =>
    sub.entered sc enter (sc.narrowed head.condition? head.directives objects) ++
      rest.entered sc enter objects
  | .spread s rest, objects =>
    (if sc.includes s.directives then enter s.name objects else []) ++
      rest.entered sc enter objects

namespace Scope

/-- The fragments that are entered by a spread: the named one if it is left with an object type,
and those that it enters in turn. -/
def enteredBy (sc : Scope) : Nat → List Fragment → String → List String → List Fragment
  | 0, _, _, _ => []
  | n + 1, available, name, objects =>
    match available.find? fun f => f.name == name with
    | none => []
    | some f =>
      let others := available.filter fun g => g.name != name
      let inside := sc.narrowed (some f.condition) f.directives objects
      if inside = [] then [] else f :: f.selections.entered sc (sc.enteredBy n others) inside

/-- The fragments that the walks of a level enter, each time that they do. -/
def entered (sc : Scope) (sets : List SelectionSet) (objects : List String) : List Fragment :=
  sets.flatMap fun set =>
    set.entered sc (sc.enteredBy sc.fragments.items.length sc.fragments.items) objects

end Scope

/-! ## What walks meet -/

namespace Normal

variable {sc : Scope} {s : Schema}

/-- The fields of the occurrences that are not left out, each time that one is met. -/
def kept (s : Schema) (os : List (Occurrence (List String))) : List Field :=
  (os.filter fun o => (declaredType? s o).isSome).map Occurrence.field

theorem kept_append (os os' : List (Occurrence (List String))) :
    kept s (os ++ os') = kept s os ++ kept s os' := by
  simp [kept]

theorem kept_singleton {o : Occurrence (List String)} {type : TypeExpr}
    (h : declaredType? s o = some type) : kept s [o] = [o.field] := by
  simp [kept, h]

/-- What is met on no object type is left out. -/
theorem kept_of_projects {body : List String → List (Occurrence (List String))}
    {alone : String → List (Occurrence String)}
    (h : ∀ object, Projects object body (alone object)) : kept s (body []) = [] := by
  have htarget : ∀ o ∈ body [], o.target = [] := by
    intro o ho
    refine List.eq_nil_iff_forall_not_mem.2 fun object hobject => ?_
    have hmem : o.field ∈ fieldsFor object (body []) := mem_fieldsFor.2 ⟨o, ho, hobject, rfl⟩
    rw [h object [], if_neg List.not_mem_nil] at hmem
    exact List.not_mem_nil hmem
  rw [kept, List.filter_eq_nil_iff.2 fun o ho => by simp [declaredType?, htarget o ho]]
  rfl

/-- What is met in a fragment is met on the object types that it leaves over. -/
theorem kept_occurrencesUnder {body : List String → List (Occurrence (List String))}
    (condition? : Option String) (directives : List Directive) (objects : List String) :
    kept s (occurrencesUnder sc (restrict sc) condition? directives body objects) = [] ∨
      kept s (occurrencesUnder sc (restrict sc) condition? directives body objects) =
        kept s (body (sc.narrowed condition? directives objects)) := by
  unfold occurrencesUnder Scope.narrowed
  split
  · cases condition? <;> exact .inr rfl
  · exact .inl rfl

end Normal

namespace Scope

open GraphQL.Normal

variable {sc : Scope} {s : Schema}

/-- What a walk over a selection set meets stands in the set or in a fragment that it enters,
given that it is so for what the spreads meet. -/
theorem subperm_of_enter {enter : String → List String → List (Occurrence (List String))}
    {entered : String → List String → List Fragment}
    (henter : ∀ name objects, (kept s (enter name objects)).Subperm
      ((entered name objects).flatMap fun f => f.selections.topFields))
    (set : SelectionSet) (objects : List String) :
    (kept s (set.occurrences sc (restrict sc) enter objects)).Subperm
      (set.topFields ++ (set.entered sc entered objects).flatMap fun f =>
        f.selections.topFields) := by
  induction set generalizing objects with
  | nil => exact List.nil_subperm
  | field node sub rest _ ih =>
    rw [SelectionSet.occurrences, kept_append, SelectionSet.topFields, SelectionSet.entered,
      ← @List.singleton_append _ (⟨node, sub⟩ : Field), List.append_assoc]
    refine List.Subperm.append ?_ (ih objects)
    split
    · exact (List.filter_sublist.map Occurrence.field).subperm
    · exact List.nil_subperm
  | inline head sub rest ihs ih =>
    rw [SelectionSet.occurrences, kept_append, SelectionSet.topFields, SelectionSet.entered,
      List.flatMap_append]
    refine (List.Subperm.append ?_ (ih objects)).trans (perm_append_append _ _ _ _).subperm
    rcases kept_occurrencesUnder head.condition? head.directives objects with h | h
    · rw [h]
      exact List.nil_subperm
    · rw [h]
      exact ihs _
  | spread spread rest ih =>
    rw [SelectionSet.occurrences, kept_append, SelectionSet.topFields, SelectionSet.entered,
      List.flatMap_append]
    refine (List.Subperm.append ?_ (ih objects)).trans (List.perm_append_comm_assoc _ _ _).subperm
    split
    · exact henter _ _
    · exact List.nil_subperm

/-- What is met behind a spread stands in the fragments that it enters: by induction on how many
fragments may be entered inside each other. -/
theorem subperm_enteredBy (n : Nat) (available : List Fragment) (name : String)
    (objects : List String) :
    (kept s (sc.enterFragment (restrict sc) n available name objects)).Subperm
      ((sc.enteredBy n available name objects).flatMap fun f => f.selections.topFields) := by
  induction n generalizing available name objects with
  | zero => exact List.nil_subperm
  | succ n ih =>
    cases hf : available.find? fun f => f.name == name with
    | none =>
      simp only [enterFragment, hf]
      exact List.nil_subperm
    | some f =>
      simp only [enterFragment, enteredBy, hf]
      have hbody := @subperm_of_enter sc s _ _
        (fun inner objects => ih (available.filter fun g => g.name != name) inner objects)
        f.selections
      rcases kept_occurrencesUnder (some f.condition) f.directives objects with h | h
      · rw [h]
        exact List.nil_subperm
      · rw [h]
        split
        · next hnone =>
          rw [hnone, kept_of_projects fun object =>
            .occurrences (fun inner => .enterFragment _ _ inner) _]
          exact List.nil_subperm
        · rw [List.flatMap_cons]
          exact hbody _

/-- What the walks of a level meet stands in the sets or in the fragments that they enter. -/
theorem subperm_topFields (sets : List SelectionSet) (objects : List String) :
    (kept s (levelOccurrences sc sets objects)).Subperm
      (sets.flatMap SelectionSet.topFields ++
        (sc.entered sets objects).flatMap fun f => f.selections.topFields) := by
  induction sets with
  | nil => exact List.nil_subperm
  | cons set sets ih =>
    rw [levelOccurrences, entered, List.flatMap_cons, List.flatMap_cons, List.flatMap_cons,
      kept_append, List.flatMap_append]
    exact ((subperm_of_enter (fun _ _ => subperm_enteredBy _ _ _ _) set objects).append ih).trans
      (perm_append_append _ _ _ _).subperm

end Scope

/-! ## What nodes list -/

namespace Normal

variable {s : Schema} {os : List (Occurrence (List String))} {o : Occurrence (List String)}
  {buckets : Buckets}

/-- The selections of some nodes, each as often as the nodes list it. -/
def listed (ns : List NormalField) : List Field := ns.flatMap NormalField.fields

theorem listed_append (ns ns' : List NormalField) : listed (ns ++ ns') = listed ns ++ listed ns' :=
  List.flatMap_append

theorem fields_sublist_listed {ns : List NormalField} {n : NormalField} (hn : n ∈ ns) :
    n.fields.Sublist (listed ns) :=
  List.sublist_flatten_of_mem (List.mem_map_of_mem hn)

/-- If the nodes of a key list a field more, so do all nodes. -/
theorem listed_insert {key : String} {ns : List NormalField} {f : Field} (buckets : Buckets)
    (h : (listed ns).Perm (listed (bucket buckets key) ++ [f])) :
    (listed ((Entries.insert key ns buckets).flatMap Prod.snd)).Perm
      (listed (buckets.flatMap Prod.snd) ++ [f]) := by
  induction buckets with
  | nil => simpa [Entries.insert, bucket, listed] using h
  | cons e buckets ih =>
    obtain ⟨k, old⟩ := e
    rw [Entries.insert]
    split
    · next hk =>
      subst hk
      have hold : bucket ((k, old) :: buckets) k = old := by simp [bucket]
      rw [hold] at h
      rw [List.flatMap_cons, List.flatMap_cons, listed_append, listed_append, List.append_assoc]
      refine (h.append_right _).trans ?_
      rw [List.append_assoc]
      exact List.perm_append_comm.append_left _
    · next hk =>
      have hne : (key == k) = false := by simpa using fun h => hk h.symm
      have hbucket : bucket ((k, old) :: buckets) key = bucket buckets key := by
        simp [bucket, List.lookup_cons, hne]
      rw [hbucket] at h
      rw [List.flatMap_cons, List.flatMap_cons, listed_append, listed_append, List.append_assoc]
      exact (ih h).append_left _

/-- The nodes of buckets list the occurrences so far that are not left out, one by one. -/
def Lists (s : Schema) (os : List (Occurrence (List String))) (buckets : Buckets) : Prop :=
  (listed (buckets.flatMap Prod.snd)).Perm (kept s os)

/-- An occurrence that is not left out is listed once more. -/
theorem lists_putOccurrence {sc : Scope} {level : Nat} {buckets' : Buckets}
    (hb : Lists sc.schema os buckets) (h : putOccurrence sc level buckets o = .ok buckets') :
    Lists sc.schema (os ++ [o]) buckets' := by
  unfold Lists at hb ⊢
  cases put_of_putOccurrence h with
  | skipped hnone => simpa [kept, hnone] using hb
  | @joined type before after n htype hns hmatch _ =>
    rw [kept_append, kept_singleton htype]
    refine (listed_insert buckets ?_).trans (hb.append_right _)
    rw [hns]
    simp only [listed, List.flatMap_append, List.flatMap_cons, join, List.append_assoc]
    exact (List.perm_append_comm.append_left _).append_left _
  | started arguments htype hnone =>
    rw [kept_append, kept_singleton htype]
    refine (listed_insert buckets ?_).trans (hb.append_right _)
    rw [listed_append]
    exact .refl _

theorem lists_nil (s : Schema) : Lists s [] [] := .nil

/-- The nodes of a level list what is met on the level, each time that it is met. -/
theorem perm_of_levelNodes {sc : Scope} {sets : List SelectionSet} {objects : List String}
    {level : Nat} {ns : List NormalField} (h : levelNodes sc level sets objects = .ok ns) :
    (listed ns).Perm (kept sc.schema (levelOccurrences sc sets objects)) := by
  obtain ⟨buckets, rfl, hfold⟩ := levelNodes_eq_ok h
  exact foldlM_putOccurrence (fun hb hput => lists_putOccurrence hb hput) (lists_nil _) hfold

end Normal

/-! ## Separate parts -/

namespace Scope

variable {sc : Scope}

theorem entered_set_subset {enter : String → List String → List Fragment}
    (henter : ∀ name objects, enter name objects ⊆ sc.fragments.items) (set : SelectionSet)
    (objects : List String) : set.entered sc enter objects ⊆ sc.fragments.items := by
  induction set generalizing objects with
  | nil => exact List.nil_subset _
  | field node sub rest _ ih => exact ih objects
  | inline head sub rest ihs ih => exact List.append_subset.2 ⟨ihs _, ih objects⟩
  | spread spread rest ih =>
    refine List.append_subset.2 ⟨?_, ih objects⟩
    split
    · exact henter _ _
    · exact List.nil_subset _

theorem enteredBy_subset (n : Nat) {available : List Fragment}
    (havailable : available ⊆ sc.fragments.items) (name : String) (objects : List String) :
    sc.enteredBy n available name objects ⊆ sc.fragments.items := by
  induction n generalizing available name objects with
  | zero => exact List.nil_subset _
  | succ n ih =>
    rw [enteredBy]
    split
    · exact List.nil_subset _
    · next f hf =>
      have hothers : (available.filter fun g => g.name != name) ⊆ sc.fragments.items :=
        fun g hg => havailable (List.mem_filter.1 hg).1
      simp only
      split
      · exact List.nil_subset _
      · exact List.cons_subset.2 ⟨havailable (List.mem_of_find?_eq_some hf),
          entered_set_subset (fun _ _ => ih hothers _ _) _ _⟩

/-- Walks enter fragments of the scope. -/
theorem entered_subset (sets : List SelectionSet) (objects : List String) :
    sc.entered sets objects ⊆ sc.fragments.items := by
  intro f hf
  obtain ⟨set, -, hf⟩ := List.mem_flatMap.1 hf
  exact entered_set_subset (fun _ _ => enteredBy_subset _ (List.Subset.refl _) _ _) set objects hf

end Scope

/-- Selection sets of a document that are different parts of it: what stands in them and in
different fragments is different. -/
structure Document.Separate (d : Document) (sets : List SelectionSet) : Prop where
  fields : ∀ set ∈ sets, set.fields ⊆ d.fields
  apart : ∀ gs : List Fragment, gs.Nodup → gs ⊆ d.fragments.items →
    ((sets.flatMap SelectionSet.topFields ++
      gs.flatMap fun g => g.selections.topFields).map (·.node.number)).Nodup

namespace Document

variable {d : Document}

/-- The fragments of a document are different definitions. -/
theorem nodup_fragments {gs : List Fragment} (h : gs.Nodup) :
    (gs.map Definition.fragment).Nodup :=
  h.map fun _ _ heq => Definition.fragment.inj heq

theorem fragments_subset {gs : List Fragment} (h : gs ⊆ d.fragments.items) :
    gs.map Definition.fragment ⊆ d.definitions := by
  intro x hx
  obtain ⟨g, hg, rfl⟩ := List.mem_map.1 hx
  exact mem_of_mem_fragments (h hg)

theorem separate_of_operation (h : (d.fields.map (·.node.number)).Nodup) {o : Operation}
    (ho : .operation o ∈ d.definitions) : d.Separate [o.selections] where
  fields := List.forall_mem_singleton.2 fun f hf => List.mem_flatMap.2 ⟨_, ho, hf⟩
  apart gs hgs hsub := by
    have hnodup : (.operation o :: gs.map Definition.fragment).Nodup :=
      List.nodup_cons.2 ⟨by simp, nodup_fragments hgs⟩
    have htop := nodup_topFields h hnodup (List.cons_subset.2 ⟨ho, fragments_subset hsub⟩)
      List.nodup_nil (List.nil_subset _)
    simpa [List.flatMap_map, Definition.selections] using htop

theorem separate_of_fields (h : (d.fields.map (·.node.number)).Nodup) {fs : List Field}
    (hfs : fs.Nodup) (hsub : fs ⊆ d.fields) : d.Separate (fs.map Field.selections) where
  fields := List.forall_mem_map.2 fun _ hf => fields_selections_subset (hsub hf)
  apart gs hgs hsub' := by
    have htop := nodup_topFields h (nodup_fragments hgs) (fragments_subset hsub') hfs hsub
    rw [List.flatMap_map] at htop ⊢
    refine List.Perm.nodup_iff ?_ |>.1 htop
    exact List.perm_append_comm.map _

end Document

/-- What is met from selection sets of a document are fields of it. -/
theorem Document.kept_subset {d : Document} {s : Schema} {vars : VariableValues}
    {sets : List SelectionSet} {objects : List String}
    (hsets : ∀ set ∈ sets, set.fields ⊆ d.fields) :
    Normal.kept s (Normal.levelOccurrences (.ofDocument s d vars) sets objects) ⊆ d.fields := by
  intro f hf
  have htop : ∀ set : SelectionSet, set.topFields ⊆ set.fields := fun set _ hf =>
    set.fields_perm.mem_iff.2 (List.mem_append_left _ hf)
  rcases List.mem_append.1 ((Scope.subperm_topFields sets objects).subset hf) with hf | hf
  · obtain ⟨set, hset, hf⟩ := List.mem_flatMap.1 hf
    exact hsets set hset (htop set hf)
  · obtain ⟨g, hg, hf⟩ := List.mem_flatMap.1 hf
    exact fields_subset_of_mem_fragments (Scope.entered_subset _ _ hg) (htop _ hf)

namespace Document.Separate

open GraphQL.Normal

variable {d : Document} {s : Schema} {vars : VariableValues} {sets : List SelectionSet}
  {objects : List String} {ns : List NormalField}

/-- If no fragment is entered twice, what the nodes of the level list is different. -/
theorem nodup_listed (h : d.Separate sets)
    (hentered : (((Scope.ofDocument s d vars).entered sets objects).map Fragment.name).Nodup)
    (hns : (listed ns).Perm (kept s (levelOccurrences (.ofDocument s d vars) sets objects))) :
    ((listed ns).map (·.node.number)).Nodup := by
  have hapart := h.apart _ hentered.of_map (Scope.entered_subset _ _)
  obtain ⟨fields, hperm, hsub⟩ := hns.subperm.trans (Scope.subperm_topFields sets objects)
  exact (hperm.map _).nodup_iff.1 ((hsub.map _).nodup hapart)

/-- The selection sets of a level below are separate as well. -/
theorem of_node (h : d.Separate sets) (hnumbers : (d.fields.map (·.node.number)).Nodup)
    (hns : (listed ns).Perm (kept s (levelOccurrences (.ofDocument s d vars) sets objects)))
    (hdistinct : ((listed ns).map (·.node.number)).Nodup) {n : NormalField} (hn : n ∈ ns) :
    d.Separate (n.fields.map Field.selections) := by
  have hlisted := fields_sublist_listed hn
  refine separate_of_fields hnumbers (hdistinct.of_map.sublist hlisted) fun f hf => ?_
  exact Document.kept_subset h.fields (hns.subset (hlisted.subset hf))

end Document.Separate

/-! ## All levels of a tree -/

namespace NormalTree

open GraphQL.Normal

/-- The selections of nodes. On each level of a normalized tree the nodes list what the walks of
the level meet, each time that they do. If no level of the tree of a document that has been read
enters a fragment twice, the nodes of each level list different selections, and so the selection
sets of a level are different ones. -/
theorem fields_distinct {text : String} {d : Document} (hd : Document.parse text = .ok d)
    {s : Schema} {operation? : Option String} {vars : VariableValues} {t : NormalTree}
    (h : ofDocument s d operation? vars = .ok t) :
    ∃ o root, d.operation operation? = .ok o ∧ o.rootTypeName s = .ok root ∧
      let sc := Scope.ofDocument s d vars
      (∀ sets objects ts, Level s o root t sets objects ts →
        (listed (ts.map NormalNode.field)).Perm (kept s (levelOccurrences sc sets objects))) ∧
      ((∀ sets objects ts, Level s o root t sets objects ts →
          ((sc.entered sets objects).map Fragment.name).Nodup) →
        (∀ sets objects ts, Level s o root t sets objects ts →
          ((listed (ts.map NormalNode.field)).map (·.node.number)).Nodup) ∧
        ∀ u ∈ NormalNode.preorders t.top, (u.field.fields.map (·.node.number)).Nodup) := by
  obtain ⟨o, root, ho, hroot, htop⟩ := trees_of_ofDocument h
  have hnumbers := Document.nodup_of_parse hd
  have hlisted : ∀ {sets objects ts}, Level s o root t sets objects ts →
      (listed (ts.map NormalNode.field)).Perm
        (kept s (levelOccurrences (.ofDocument s d vars) sets objects)) := by
    intro sets objects ts hlevel
    obtain ⟨m, level, htrees⟩ := hlevel.exists_trees htop
    exact perm_of_levelNodes (fields_of_trees htrees)
  refine ⟨o, root, ho, hroot, fun _ _ _ => hlisted, fun hentered => ?_⟩
  have hseparate : ∀ {sets objects ts}, Level s o root t sets objects ts → d.Separate sets := by
    intro sets objects ts hlevel
    induction hlevel with
    | top => exact Document.separate_of_operation hnumbers (Document.mem_of_operation ho)
    | inside hlevel hu _ ih =>
      have hdistinct := ih.nodup_listed (hentered _ _ _ hlevel) (hlisted hlevel)
      exact ih.of_node hnumbers (hlisted hlevel) hdistinct (List.mem_map_of_mem hu)
  have hdistinct : ∀ sets objects ts, Level s o root t sets objects ts →
      ((listed (ts.map NormalNode.field)).map (·.node.number)).Nodup :=
    fun _ _ _ hlevel => (hseparate hlevel).nodup_listed (hentered _ _ _ hlevel) (hlisted hlevel)
  refine ⟨hdistinct, fun u hu => ?_⟩
  obtain ⟨sets, objects, ts, hlevel, hu⟩ := exists_level htop hu
  exact ((fields_sublist_listed (List.mem_map_of_mem hu)).map _).nodup (hdistinct _ _ _ hlevel)

/-- The levels of a tree whose second nodes have no levels below them. -/
theorem Level.of_flat {s : Schema} {o : Operation} {root : String} {t : NormalTree}
    (hflat : ∀ u ∈ t.top, ∀ v ∈ u.children, childObjects? s v.field = none)
    {sets : List SelectionSet} {objects : List String} {ts : List NormalNode}
    (h : Level s o root t sets objects ts) :
    (sets = [o.selections] ∧ objects = [root] ∧ ts = t.top) ∨
      ∃ u ∈ t.top, childObjects? s u.field = some objects ∧
        sets = u.field.fields.map Field.selections ∧ ts = u.children := by
  induction h with
  | top => exact .inl ⟨rfl, rfl, rfl⟩
  | inside _ hu hobjects ih =>
    rcases ih with ⟨rfl, rfl, rfl⟩ | ⟨v, hv, -, -, rfl⟩
    · exact .inr ⟨_, hu, hobjects, rfl, rfl⟩
    · exact absurd ((hflat v hv _ hu).symm.trans hobjects) nofun

/-- A fragment that is spread below two fields, once by another fragment. -/
def namedText : String :=
  "{ all: things { ...both } all: things { id } things { ...named } } " ++
  "fragment both on Thing { id ...named } fragment named on Thing { name }"

theorem fields_distinct_named :
    ∃ d t, Document.parse namedText = .ok d ∧ ofDocument demoSchema d none [] = .ok t ∧
      (NormalNode.preorders t.top).map (fun u => (u.field.key, u.field.fields.length)) =
        [("all", 2), ("id", 2), ("name", 1), ("things", 1), ("name", 1)] ∧
      ∀ u ∈ NormalNode.preorders t.top, (u.field.fields.map (·.node.number)).Nodup := by
  have hcheck : ((Document.parse namedText).toOption.any fun d =>
      (d.operation none).toOption.any fun o =>
        (ofDocument demoSchema d none []).toOption.any fun t =>
          let sc := Scope.ofDocument demoSchema d []
          (NormalNode.preorders t.top).map (fun u => (u.field.key, u.field.fields.length)) ==
              [("all", 2), ("id", 2), ("name", 1), ("things", 1), ("name", 1)] &&
            (o.rootTypeName demoSchema).toOption == some "Query" &&
            decide ((sc.entered [o.selections] ["Query"]).map Fragment.name).Nodup &&
            t.top.all fun u =>
              (u.children.all fun v => (childObjects? demoSchema v.field).isNone) &&
              (childObjects? demoSchema u.field).all fun objects =>
                decide ((sc.entered (u.field.fields.map Field.selections) objects).map
                  Fragment.name).Nodup) = true := by
    decide +kernel
  obtain ⟨d, hd, hcheck⟩ := Except.exists_of_any hcheck
  obtain ⟨o, ho, hcheck⟩ := Except.exists_of_any hcheck
  obtain ⟨t, ht, hcheck⟩ := Except.exists_of_any hcheck
  simp only [Bool.and_eq_true, beq_iff_eq, List.all_eq_true, decide_eq_true_eq,
    Option.isNone_iff_eq_none, Option.all_eq_true] at hcheck
  obtain ⟨⟨⟨hfields, hquery⟩, htop⟩, hbelow⟩ := hcheck
  obtain ⟨o', root, ho', hroot, -, hdistinct⟩ := fields_distinct hd ht
  obtain rfl := Except.ok.inj (ho.symm.trans ho')
  obtain rfl := Except.ok.inj (hroot.symm.trans (Except.toOption_eq_some hquery))
  refine ⟨d, t, hd, ht, hfields, (hdistinct fun sets objects ts hlevel => ?_).2⟩
  rcases hlevel.of_flat fun u hu => (hbelow u hu).1 with ⟨rfl, rfl, -⟩ | ⟨u, hu, hobjects, rfl, -⟩
  · exact htop
  · exact (hbelow u hu).2 objects hobjects

/-- Two fields, each in a fragment that is spread twice. -/
def twiceText : String :=
  "{ ...F ...F } fragment F on Query { things { ...G ...G } } fragment G on Thing { name }"

/-- A valid document of which nodes list their one selection again and again: where a fragment
is spread twice on two levels, the lower one lists it four times. -/
theorem selections_multiplied :
    ∃ d t u v f g, Document.parse twiceText = .ok d ∧ Validation.findings demoSchema d = [] ∧
      d.fields = [f, g] ∧ ofDocument demoSchema d none [] = .ok t ∧ t.top = [u] ∧
      u.children = [v] ∧ u.field.fields.map (·.node.number) = [0, 0] ∧
      v.field.fields.map (·.node.number) = [1, 1, 1, 1] ∧
      ¬ (u.field.fields.map (·.node.number)).Nodup := by
  have hcheck : ((Document.parse twiceText).toOption.any fun d =>
      (Validation.findings demoSchema d).isEmpty && d.fields.length == 2 &&
      (ofDocument demoSchema d none []).toOption.any fun t =>
        t.top.length == 1 && t.top.all fun u =>
          u.children.length == 1 && u.field.fields.map (·.node.number) == [0, 0] &&
          u.children.all fun v => v.field.fields.map (·.node.number) == [1, 1, 1, 1]) = true := by
    decide +kernel
  obtain ⟨d, hd, hcheck⟩ := Except.exists_of_any hcheck
  simp only [Bool.and_eq_true, List.isEmpty_iff, beq_iff_eq] at hcheck
  obtain ⟨⟨hvalid, hfields⟩, hcheck⟩ := hcheck
  obtain ⟨t, ht, hcheck⟩ := Except.exists_of_any hcheck
  simp only [Bool.and_eq_true, List.all_eq_true, beq_iff_eq] at hcheck
  obtain ⟨htop, hcheck⟩ := hcheck
  obtain ⟨f, g, hfields⟩ := List.length_eq_two.1 hfields
  obtain ⟨u, htop⟩ := List.length_eq_one_iff.1 htop
  obtain ⟨⟨hchildren, hu⟩, hbelow⟩ := hcheck u (htop ▸ List.mem_cons_self)
  obtain ⟨v, hchildren⟩ := List.length_eq_one_iff.1 hchildren
  have hv := hbelow v (hchildren ▸ List.mem_cons_self)
  exact ⟨d, t, u, v, f, g, hd, hvalid, hfields, ht, htop, hchildren, hu, hv, hu ▸ by decide⟩

end NormalTree

end GraphQL
