/-
GraphQL.Proofs.Collecting — which selection sets executions of a plan merge.

`Plan.Collects p s route object sets` says that an execution of `p` can come, by the
fields of `route`, to an object value of the concrete type `object` and collect its
fields from the merged selection sets `sets`. It is told by the schema and the document
alone: a field leads to every possible type of its declared type, whatever its resolver
gives, so what holds of all collected sets holds in every execution.

* `Scope.mem_groupsOn` — the selections of a collected group: where they were met.
* `Node.objects` — the objects of a result tree with the fields on the way to them.
* `Plan.gathered_of_run` — every object of a result tree is one that the plan collects, and
  its children are grown for the collected groups (`Plan.keys_of_grownFields`).
-/
import GraphQL.Proofs.Walks
import GraphQL.Proofs.Positions
import GraphQL.Proofs.Conformance

namespace GraphQL

/-! ## Groups -/

namespace FieldGroups

theorem mem_fields_add {f f' : Field} {g : FieldGroup} (h : f' ∈ (g.add f).fields) :
    f' ∈ g.fields ∨ f' = f := by
  unfold FieldGroup.add at h
  split at h
  · exact .inl h
  · simp only [FieldGroup.fields, List.mem_cons, List.mem_append, List.not_mem_nil,
      or_false] at h ⊢
    tauto

theorem mem_add {f : Field} {gs : FieldGroups} {g : FieldGroup} (h : g ∈ add f gs) :
    g ∈ gs ∨ g = .single f ∨ ∃ g' ∈ gs, g'.key = f.node.responseKey ∧ g = g'.add f := by
  induction gs with
  | nil => exact .inr (.inl (List.mem_singleton.1 h))
  | cons g' gs ih =>
    rw [add] at h
    split at h
    · next hkey =>
      rcases List.mem_cons.1 h with rfl | h
      · exact .inr (.inr ⟨g', List.mem_cons_self, hkey, rfl⟩)
      · exact .inl (List.mem_cons_of_mem _ h)
    · rcases List.mem_cons.1 h with rfl | h
      · exact .inl List.mem_cons_self
      · rcases ih h with h | h | ⟨g'', hmem, hrest⟩
        · exact .inl (List.mem_cons_of_mem _ h)
        · exact .inr (.inl h)
        · exact .inr (.inr ⟨g'', List.mem_cons_of_mem _ hmem, hrest⟩)

/-- The selections of a group are among those grouped, and have its key. -/
theorem mem_of_mem_ofFields {fs : List Field} {g : FieldGroup} (hg : g ∈ ofFields fs) {f : Field}
    (hf : f ∈ g.fields) : f ∈ fs ∧ f.node.responseKey = g.key := by
  have hadd : ∀ (fs : List Field) (gs : FieldGroups) (within : List Field), fs ⊆ within →
      (∀ g ∈ gs, ∀ f ∈ g.fields, f ∈ within ∧ f.node.responseKey = g.key) →
      ∀ g ∈ fs.foldl (fun gs f => add f gs) gs, ∀ f ∈ g.fields,
        f ∈ within ∧ f.node.responseKey = g.key := by
    intro fs
    induction fs with
    | nil => exact fun gs within _ h => h
    | cons f fs ih =>
      intro gs within hsub h
      refine ih (add f gs) within (fun f hf => hsub (List.mem_cons_of_mem _ hf)) ?_
      intro g hg f' hf'
      have hf : f ∈ within := hsub List.mem_cons_self
      rcases mem_add hg with hg | rfl | ⟨g', hg', hkey, rfl⟩
      · exact h g hg f' hf'
      · obtain rfl := List.mem_singleton.1 hf'
        exact ⟨hf, rfl⟩
      · rw [FieldGroup.key_add]
        rcases mem_fields_add hf' with hf' | rfl
        · exact h g' hg' f' hf'
        · exact ⟨hf, hkey.symm⟩
  exact hadd fs [] fs (fun _ h => h) (by simp) g hg f hf

end FieldGroups

namespace Scope

variable {sc : Scope} {object : String} {sets : List SelectionSet}

/-- The groups of merged selection sets for an object type. -/
def groupsOn (sc : Scope) (object : String) (sets : List SelectionSet) : FieldGroups :=
  .ofFields (sc.fieldsOn object sets)

/-- A walk for an object type keeps the type. -/
theorem target_of_walk {fragments : Registry Fragment} {set set' : SelectionSet}
    {object' : String} (h : Walk fragments sc.restrictObject set object set' object') :
    object' = object := by
  have hkeep : ∀ {c t t' : String}, sc.restrictObject c t = some t' → t' = t := by
    intro c t t' h
    unfold restrictObject at h
    split at h
    · exact (Option.some.inj h).symm
    · simp at h
  induction h with
  | here => rfl
  | pastField _ ih => exact ih
  | pastInline _ ih => exact ih
  | pastSpread _ ih => exact ih
  | into _ _ ih => exact ih
  | intoOn _ ht _ ih => exact ih.trans (hkeep ht)
  | intoFragment _ ht _ ih => exact ih.trans (hkeep ht)

/-- A selection of a collected group has the key of the group, and it is one of the
occurrences of a merged set. -/
theorem exists_occurrence {g : FieldGroup} (hg : g ∈ sc.groupsOn object sets) {f : Field}
    (hf : f ∈ g.fields) : f.node.responseKey = g.key ∧
      ∃ set ∈ sets, ∃ o ∈ sc.occurrences sc.restrictObject set object, o.field = f := by
  obtain ⟨hmem, hkey⟩ := FieldGroups.mem_of_mem_ofFields hg hf
  obtain ⟨set, hset, hocc⟩ := List.mem_flatMap.1 hmem
  obtain ⟨o, ho, hfield⟩ := List.mem_map.1 hocc
  exact ⟨hkey, set, hset, o, ho, hfield⟩

/-- A walk over one of the merged sets stands at a selection of a collected group. -/
theorem mem_groupsOn {g : FieldGroup} (hg : g ∈ sc.groupsOn object sets) {f : Field}
    (hf : f ∈ g.fields) :
    f.node.responseKey = g.key ∧ ∃ set ∈ sets, ∃ rest,
      Walk sc.fragments sc.restrictObject set object (.field f.node f.selections rest) object := by
  obtain ⟨hkey, set, hset, o, ho, rfl⟩ := exists_occurrence hg hf
  obtain ⟨rest, hwalk⟩ := Walk.exists_of_mem_occurrences ho
  have htarget := target_of_walk hwalk
  rw [htarget] at hwalk
  exact ⟨hkey, set, hset, rest, hwalk⟩

/-- The sub-selections of a collected group stay within some fields, those of the fragments
included, that the merged sets are within. -/
theorem fields_subset_of_mem_groupsOn {within : List Field}
    (hfragments : ∀ f ∈ sc.fragments.items, f.selections.fields ⊆ within)
    (hsets : ∀ set ∈ sets, set.fields ⊆ within) {g : FieldGroup}
    (hg : g ∈ sc.groupsOn object sets) :
    ∀ set ∈ g.fields.map Field.selections, set.fields ⊆ within := by
  intro set hset
  obtain ⟨f, hf, rfl⟩ := List.mem_map.1 hset
  obtain ⟨_, set', hset', rest, hwalk⟩ := mem_groupsOn hg hf
  have hsubset := hwalk.fields_subset hfragments (hsets set' hset')
  rw [SelectionSet.fields] at hsubset
  exact fun f' hf' => hsubset (List.mem_cons_of_mem _ (List.mem_append_left _ hf'))

end Scope

/-! ## Collected selection sets -/

namespace Path

/-- The response keys of a path, list indices left out. -/
def keys (p : Path) : List String :=
  p.filterMap fun
    | .key k => some k
    | .index _ => none

theorem keys_append_key (p : Path) (k : String) : keys (p ++ [.key k]) = keys p ++ [k] := by
  simp [keys, List.filterMap_append]

theorem keys_append_index (p : Path) (i : Nat) : keys (p ++ [.index i]) = keys p := by
  simp [keys, List.filterMap_append]

end Path

/-- A field on the way of an execution: its response key, the concrete type of the object
it belongs to, and its name. -/
structure Visit where
  key : String
  object : String
  name : String
deriving DecidableEq

/-- The field of a group on an object type. -/
def FieldGroup.visit (g : FieldGroup) (object : String) : Visit := ⟨g.key, object, g.name⟩

namespace Plan

/-- What a plan looks things up in. -/
abbrev scope (p : Plan) (s : Schema) : Scope := .ofDocument s p.document p.vars

/-- By the fields of a route an execution can come to an object of a concrete type and
collect its fields from merged selection sets. -/
inductive Collects (p : Plan) (s : Schema) : List Visit → String → List SelectionSet → Prop
  | root : Collects p s [] p.root [p.operation.selections]
  | field {route : List Visit} {object : String} {sets : List SelectionSet} {g : FieldGroup}
      {d : FieldDefinition} {o : ObjectType} (h : Collects p s route object sets)
      (hg : g ∈ (p.scope s).groupsOn object sets) (hn : g.name ≠ "__typename")
      (hd : s.field? object g.name = some d) (ho : o ∈ s.possibleTypes d.type.baseName) :
      Collects p s (route ++ [g.visit object]) o.name (g.fields.map Field.selections)

/-- The plan is one of its document: it executes an operation of it on a root type that is
an object type. -/
structure Fits (p : Plan) (s : Schema) : Prop where
  operation : .operation p.operation ∈ p.document.definitions
  root : p.operation.rootTypeName s = .ok p.root
  object : ∃ o, s.object? p.root = some o

end Plan

/-- An operation that is found in a document is one of its definitions. -/
theorem Document.mem_of_operation {d : Document} {name? : Option String} {o : Operation}
    (h : d.operation name? = .ok o) : .operation o ∈ d.definitions := by
  have hmem : o ∈ d.operations := by
    unfold operation at h
    split at h
    · split at h
      · next o' ho =>
        obtain rfl := Except.ok.inj h
        exact List.mem_of_find?_eq_some ho
      · simp at h
    · split at h
      · simp at h
      · next o' ho =>
        obtain rfl := Except.ok.inj h
        rw [ho]
        exact List.mem_singleton_self _
      · simp at h
  obtain ⟨x, hx, ho⟩ := List.mem_filterMap.1 hmem
  cases x with
  | operation o' =>
    obtain rfl := Option.some.inj ho
    exact hx
  | fragment f => simp at ho

/-- An entry is found by its key if no other has the key. -/
theorem Entries.lookup_of_mem {α : Type} {entries : List (String × α)}
    (h : (Entries.keys entries).Nodup) {key : String} {v : α} (hmem : (key, v) ∈ entries) :
    entries.lookup key = some v := by
  induction entries with
  | nil => exact absurd hmem List.not_mem_nil
  | cons e entries ih =>
    obtain ⟨hnew, hrest⟩ := List.nodup_cons.1 h
    rcases List.mem_cons.1 hmem with rfl | hmem
    · rw [List.lookup_cons_self]
    · have hne : key ≠ e.1 := fun heq => hnew (heq ▸ List.mem_map_of_mem hmem)
      rw [List.lookup_cons, beq_eq_false_iff_ne.2 hne]
      exact ih hrest hmem

theorem Registry.mem_of_mem_put {α : Type} [Named α] {x y : α} {ys : List α}
    (h : y ∈ put x ys) : y = x ∨ y ∈ ys := by
  induction ys with
  | nil => exact .inl (List.mem_singleton.1 h)
  | cons z ys ih =>
    rw [put] at h
    split at h
    · rcases List.mem_cons.1 h with rfl | h
      · exact .inl rfl
      · exact .inr (List.mem_cons_of_mem _ h)
    · rcases List.mem_cons.1 h with rfl | h
      · exact .inr List.mem_cons_self
      · exact (ih h).imp_right (List.mem_cons_of_mem _)

/-- The items of a registry are among those it was made of. -/
theorem Registry.mem_of_mem_ofList {α : Type} [Named α] {x : α} {xs : List α}
    (h : x ∈ (ofList xs).items) : x ∈ xs := by
  have hfold : ∀ (xs : List α) (r : Registry α), x ∈ (xs.foldl insert r).items →
      x ∈ r.items ∨ x ∈ xs := by
    intro xs
    induction xs with
    | nil => exact fun r h => .inl h
    | cons y ys ih =>
      intro r h
      rcases ih _ h with h | h
      · rcases mem_of_mem_put h with rfl | h
        · exact .inr List.mem_cons_self
        · exact .inl h
      · exact .inr (List.mem_cons_of_mem _ h)
  rcases hfold xs empty h with h | h
  · exact absurd h List.not_mem_nil
  · exact h

/-- The fragments of a document are among its definitions. -/
theorem Document.mem_of_mem_fragments {d : Document} {f : Fragment}
    (h : f ∈ d.fragments.items) : .fragment f ∈ d.definitions := by
  obtain ⟨x, hx, hf⟩ := List.mem_filterMap.1 (Registry.mem_of_mem_ofList h)
  cases x with
  | operation o => simp at hf
  | fragment f' =>
    obtain rfl := Option.some.inj hf
    exact hx

/-- The selections of the fragments of a document are of the document. -/
theorem Document.fields_subset_of_mem_fragments {d : Document} {f : Fragment}
    (h : f ∈ d.fragments.items) : f.selections.fields ⊆ d.fields :=
  fun _ hf => List.mem_flatMap.2 ⟨_, mem_of_mem_fragments h, hf⟩

/-- The fields below a field of a selection set are in it as well. -/
theorem SelectionSet.fields_selections_subset {set : SelectionSet} {f : Field}
    (h : f ∈ set.fields) : f.selections.fields ⊆ set.fields := by
  induction set with
  | nil => exact absurd h List.not_mem_nil
  | field node sub rest ihs ih =>
    rw [fields] at h ⊢
    intro f' hf'
    refine List.mem_cons_of_mem _ (List.mem_append.2 ?_)
    rcases List.mem_cons.1 h with rfl | h
    · exact .inl hf'
    · exact (List.mem_append.1 h).imp (ihs · hf') (ih · hf')
  | inline head sub rest ihs ih =>
    rw [fields] at h ⊢
    exact fun f' hf' => List.mem_append.2 ((List.mem_append.1 h).imp (ihs · hf') (ih · hf'))
  | spread sp rest ih => exact ih h

/-- The fields below a field of a document are of the document. -/
theorem Document.fields_selections_subset {d : Document} {f : Field} (h : f ∈ d.fields) :
    f.selections.fields ⊆ d.fields := by
  obtain ⟨x, hx, hf⟩ := List.mem_flatMap.1 h
  exact fun f' hf' =>
    List.mem_flatMap.2 ⟨x, hx, SelectionSet.fields_selections_subset hf hf'⟩

theorem Request.target_eq_ok {s : Schema} {r : Request} {d : Document} {o : Operation}
    {root : String} (h : r.target s d = .ok (o, root)) : d.operation r.operation? = .ok o ∧
      o.rootTypeName s = .ok root ∧ ∃ t, s.object? root = some t := by
  unfold target at h
  split at h
  · simp at h
  · next o' ho =>
    split at h
    · simp at h
    · next root' hroot =>
      split at h
      · next t ht =>
        obtain ⟨rfl, rfl⟩ := Prod.mk.inj (Except.ok.inj h)
        exact ⟨ho, hroot, t, ht⟩
      · simp at h

/-- The stages that a request has passed when it comes to a plan. -/
theorem Request.stages_of_plan {s : Schema} {r : Request} {p : Plan} (h : r.plan s = .ok p) :
    r.document s = .ok p.document ∧ r.target s p.document = .ok (p.operation, p.root) ∧
      ∃ raw, r.rawVariables = .ok raw ∧
        coerceVariableValues s p.operation.variableDefinitions raw = .ok p.vars := by
  unfold plan at h
  cases hd : r.document s with
  | error f => simp [hd, bind, Except.bind] at h
  | ok d =>
    cases ht : r.target s d with
    | error f => simp [hd, ht, bind, Except.bind] at h
    | ok target =>
      cases hraw : r.rawVariables with
      | error f => simp [hd, ht, hraw, bind, Except.bind] at h
      | ok raw =>
        simp only [hd, ht, hraw, bind, Except.bind] at h
        split at h
        · next vars hvars =>
          obtain rfl := Except.ok.inj h
          exact ⟨rfl, ht, raw, rfl, hvars⟩
        · simp at h

/-- What a request comes to: the operation that it names, on a root type that is an object
type. -/
theorem Request.plan_eq_ok {s : Schema} {r : Request} {p : Plan} (h : r.plan s = .ok p) :
    p.document.operation r.operation? = .ok p.operation ∧
      p.operation.rootTypeName s = .ok p.root ∧ ∃ t, s.object? p.root = some t :=
  target_eq_ok (stages_of_plan h).2.1

/-- The document of a plan is the one that the text of the request writes. -/
theorem Request.parse_of_plan {s : Schema} {r : Request} {p : Plan} (h : r.plan s = .ok p) :
    Document.parse r.text = .ok p.document := by
  have hd := (stages_of_plan h).1
  unfold document at hd
  split at hd
  · simp at hd
  · next d hparse =>
    split at hd
    · rw [hparse, Except.ok.inj hd]
    · simp at hd

namespace Plan

/-- A plan that a request comes to is one of its document. -/
theorem fits_of_plan {s : Schema} {r : Request} {p : Plan} (h : r.plan s = .ok p) : p.Fits s := by
  obtain ⟨ho, hroot, hobject⟩ := Request.plan_eq_ok h
  exact ⟨Document.mem_of_operation ho, hroot, hobject⟩

/-- All selections that a plan merges are of its document. -/
theorem Collects.fields_subset {s : Schema} {p : Plan} (hp : p.Fits s) {route : List Visit}
    {object : String} {sets : List SelectionSet} (h : p.Collects s route object sets) :
    ∀ set ∈ sets, set.fields ⊆ p.document.fields := by
  induction h with
  | root =>
    intro set hset
    obtain rfl := List.mem_singleton.1 hset
    exact fun f hf => List.mem_flatMap.2 ⟨_, hp.operation, hf⟩
  | field _ hg _ _ _ ih =>
    exact Scope.fields_subset_of_mem_groupsOn
      (fun _ => Document.fields_subset_of_mem_fragments) ih hg

/-- The selections of a collected group are of the document of the plan. -/
theorem Collects.mem_fields {s : Schema} {p : Plan} (hp : p.Fits s) {route : List Visit}
    {object : String} {sets : List SelectionSet} (h : p.Collects s route object sets)
    {g : FieldGroup} (hg : g ∈ (p.scope s).groupsOn object sets) {f : Field}
    (hf : f ∈ g.fields) : f ∈ p.document.fields := by
  obtain ⟨_, set, hset, rest, hwalk⟩ := Scope.mem_groupsOn hg hf
  have hsubset :=
    hwalk.fields_subset (fun _ => Document.fields_subset_of_mem_fragments)
      (h.fields_subset hp set hset)
  rw [SelectionSet.fields] at hsubset
  exact hsubset List.mem_cons_self

/-- The selection sets that are merged for the object at a place. -/
def setsAt (p : Plan) (q : Place) : List SelectionSet :=
  match q.group? with
  | some g => g.fields.map Field.selections
  | none => [p.operation.selections]

end Plan

/-! ## Objects of a result tree -/

/-- An object of a result tree with the fields on the way to it. -/
structure ReachedObject where
  route : List Visit
  place : Place
  children : List (String × Node)

namespace Node

/-- The field of a node in an object of a concrete type. -/
def visit (object key : String) (n : Node) : Visit :=
  ⟨key, object, (n.place.group?.map FieldGroup.name).getD ""⟩

mutual

/-- The objects of a tree that is reached by a route. -/
def objects (route : List Visit) : Node → List ReachedObject
  | .object p children =>
    ⟨route, p, children⟩ :: objectsOfChildren route (p.concreteType?.getD "") children
  | .list _ items => objectsOfItems route items
  | _ => []

def objectsOfItems (route : List Visit) : List Node → List ReachedObject
  | [] => []
  | n :: ns => objects route n ++ objectsOfItems route ns

def objectsOfChildren (route : List Visit) (object : String) :
    List (String × Node) → List ReachedObject
  | [] => []
  | (key, n) :: rest =>
    objects (route ++ [n.visit object key]) n ++ objectsOfChildren route object rest

end

mutual

theorem exists_mem_objects {q : Place} {children : List (String × Node)} :
    ∀ {n : Node} {route : List Visit}, .object q children ∈ n.positions →
      ∃ r, ⟨r, q, children⟩ ∈ n.objects route
  | .leaf _ _, _, h => by simp [positions] at h
  | .null _ _, _, h => by simp [positions] at h
  | .pending _, _, h => by simp [positions] at h
  | .list _ items, route, h => by
    rcases List.mem_cons.1 h with h | h
    · simp at h
    · exact exists_mem_objectsOfItems h
  | .object _ children', route, h => by
    rcases List.mem_cons.1 h with h | h
    · obtain ⟨rfl, rfl⟩ := Node.object.inj h
      exact ⟨route, List.mem_cons_self⟩
    · obtain ⟨r, hr⟩ := exists_mem_objectsOfChildren h
      exact ⟨r, List.mem_cons_of_mem _ hr⟩

theorem exists_mem_objectsOfItems {q : Place} {children : List (String × Node)} :
    ∀ {ns : List Node} {route : List Visit}, .object q children ∈ positionsOfItems ns →
      ∃ r, ⟨r, q, children⟩ ∈ objectsOfItems route ns
  | [], _, h => by simp [positionsOfItems] at h
  | n :: ns, route, h => by
    rcases List.mem_append.1 h with h | h
    · obtain ⟨r, hr⟩ := exists_mem_objects h
      exact ⟨r, List.mem_append_left _ hr⟩
    · obtain ⟨r, hr⟩ := exists_mem_objectsOfItems h
      exact ⟨r, List.mem_append_right _ hr⟩

theorem exists_mem_objectsOfChildren {q : Place} {children : List (String × Node)}
    {object : String} : ∀ {cs : List (String × Node)} {route : List Visit},
      .object q children ∈ positionsOfChildren cs →
        ∃ r, ⟨r, q, children⟩ ∈ objectsOfChildren route object cs
  | [], _, h => by simp [positionsOfChildren] at h
  | (key, n) :: cs, route, h => by
    rcases List.mem_append.1 h with h | h
    · obtain ⟨r, hr⟩ := exists_mem_objects h
      exact ⟨r, List.mem_append_left _ hr⟩
    · obtain ⟨r, hr⟩ := exists_mem_objectsOfChildren h
      exact ⟨r, List.mem_append_right _ hr⟩

end

end Node

namespace Plan

section

variable {p : Plan} {s : Schema} {data : RequestData}

/-- An object of a result tree is one that the plan collects by the route to it, whose
response keys are those of its path, and its children are grown for the collected groups. -/
def Gathered (p : Plan) (s : Schema) (data : RequestData) (x : ReachedObject) : Prop :=
  ∃ object, p.Collects s x.route object (p.setsAt x.place) ∧
    x.place.concreteType? = some object ∧ x.route.map Visit.key = x.place.path.keys ∧
    (p.environment s data).GrownFields x.place object
      ((p.scope s).groupsOn object (p.setsAt x.place)) x.children

theorem visit_of_grown {t : TypeExpr} {q : Place} {object : String} {g : FieldGroup} {n : Node}
    (h : (p.environment s data).Grown t (q.field g.key g object t) n) :
    n.visit object g.key = g.visit object := by
  have hgroup : n.place.group? = some g :=
    congrArg Place.group? (Environment.place_of_grown h)
  simp only [Node.visit, hgroup, FieldGroup.visit, Option.map_some, Option.getD_some]

mutual

/-- What stands at the place of a collected field. -/
theorem gathered_of_grown : ∀ {t : TypeExpr} {q : Place} {n : Node},
    (p.environment s data).Grown t q n → ∀ {g : FieldGroup} {route : List Visit},
      q.group? = some g → route.map Visit.key = q.path.keys →
      (∀ o ∈ s.possibleTypes t.baseName,
        p.Collects s route o.name (g.fields.map Field.selections)) →
      ∀ x ∈ n.objects route, p.Gathered s data x
  | _, _, _, .nonNull h, _, _, hg, hkeys, hbelow, x, hx =>
    gathered_of_grown h hg hkeys hbelow x hx
  | _, _, _, .null _ _ _, _, _, _, _, _, _, hx => by simp [Node.objects] at hx
  | _, _, _, .list hitems, _, _, hg, hkeys, hbelow, x, hx =>
    gathered_of_grownItems hitems hg hkeys hbelow x hx
  | _, _, _, .scalar _ _, _, _, _, _, _, _, hx => by simp [Node.objects] at hx
  | _, _, _, .enum _ _, _, _, _, _, _, _, hx => by simp [Node.objects] at hx
  | _, q, _, @Environment.Grown.object _ _ o _ u _ ho hfields, g, route, hg, hkeys, hbelow, x,
      hx => by
    have hcollects := hbelow o ho
    have hsets : p.setsAt (q.withConcreteType o.name) = g.fields.map Field.selections := by
      have hgroup : (q.withConcreteType o.name).group? = some g := hg
      simp only [setsAt, hgroup]
    have hgroups : ((p.environment s data).subSelectionAt q o.name u).groups =
        (p.scope s).groupsOn o.name (g.fields.map Field.selections) := by
      simp only [Environment.subSelectionAt, hg]
      rfl
    rcases List.mem_cons.1 hx with rfl | hx
    · refine ⟨o.name, hsets ▸ hcollects, rfl, hkeys, ?_⟩
      rw [hsets, ← hgroups]
      exact hfields
    · exact gathered_of_grownFields hfields hcollects hkeys (hgroups ▸ List.Subset.refl _) x hx

theorem gathered_of_grownItems : ∀ {t : TypeExpr} {q : Place} {i : Nat} {ns : List Node},
    (p.environment s data).GrownItems t q i ns → ∀ {g : FieldGroup} {route : List Visit},
      q.group? = some g → route.map Visit.key = q.path.keys →
      (∀ o ∈ s.possibleTypes t.baseName,
        p.Collects s route o.name (g.fields.map Field.selections)) →
      ∀ x ∈ Node.objectsOfItems route ns, p.Gathered s data x
  | _, _, _, _, .nil _ _ _, _, _, _, _, _, _, hx => by simp [Node.objectsOfItems] at hx
  | _, q, i, _, .cons h hs, _, _, hg, hkeys, hbelow, x, hx => by
    rcases List.mem_append.1 hx with hx | hx
    · refine gathered_of_grown h hg ?_ hbelow x hx
      rw [hkeys, Place.path_item, Path.keys_append_index]
    · exact gathered_of_grownItems hs hg hkeys hbelow x hx

theorem gathered_of_grownFields : ∀ {q : Place} {object : String} {gs : FieldGroups}
    {children : List (String × Node)},
    (p.environment s data).GrownFields q object gs children →
    ∀ {route : List Visit} {sets : List SelectionSet}, p.Collects s route object sets →
      route.map Visit.key = q.path.keys → gs ⊆ (p.scope s).groupsOn object sets →
      ∀ x ∈ Node.objectsOfChildren route object children, p.Gathered s data x
  | _, _, _, _, .nil _ _, _, _, _, _, _, _, hx => by simp [Node.objectsOfChildren] at hx
  | _, _, _, _, .typename _ hs, _, _, hc, hkeys, hgs, x, hx => by
    rcases List.mem_append.1 hx with hx | hx
    · simp [Node.objects] at hx
    · exact gathered_of_grownFields hs hc hkeys (fun _ hg => hgs (List.mem_cons_of_mem _ hg)) x hx
  | _, _, _, _, .undeclared _ _ hs, _, _, hc, hkeys, hgs, x, hx =>
    gathered_of_grownFields hs hc hkeys (fun _ hg => hgs (List.mem_cons_of_mem _ hg)) x hx
  | q, object, _, _, @Environment.GrownFields.declared _ _ _ g _ _ _ _ hn hd h hs, route, _, hc,
      hkeys, hgs, x, hx => by
    rcases List.mem_append.1 hx with hx | hx
    · rw [visit_of_grown h] at hx
      have hroute : (route ++ [g.visit object]).map Visit.key =
          Path.keys (q.path ++ [PathPart.key g.key]) := by
        rw [List.map_append, hkeys, Path.keys_append_key]
        rfl
      exact gathered_of_grown h rfl hroute
        (fun o ho => hc.field (hgs List.mem_cons_self) hn hd ho) x hx
    · exact gathered_of_grownFields hs hc hkeys (fun _ hg => hgs (List.mem_cons_of_mem _ hg)) x hx

end

/-- Every object of the result tree of an execution is one that the plan collects. -/
theorem gathered_of_run {mode : Mode} {source : Json} {es : List Event} {n : Node}
    (h : (p.jobIn mode s source data).run 0 = (es, .ok n)) {x : ReachedObject}
    (hx : x ∈ n.objects []) : p.Gathered s data x := by
  obtain ⟨top, rfl, hfields⟩ := Environment.grown_objectJob _ _ _ rfl (Job.ends_of_run h)
  rcases List.mem_cons.1 hx with rfl | hx
  · exact ⟨p.root, .root, rfl, rfl, hfields⟩
  · exact gathered_of_grownFields hfields .root rfl (fun _ hg => hg) x hx

/-- Among the children of an object each group that its type answers has one, in order. -/
theorem keys_of_grownFields {q : Place} {object : String} {gs : FieldGroups}
    {children : List (String × Node)}
    (h : (p.environment s data).GrownFields q object gs children) :
    children.map Prod.fst = FieldGroups.keys (gs.filter ((p.scope s).answers object)) := by
  induction gs generalizing children with
  | nil => cases h; rfl
  | cons g gs ih =>
    cases h with
    | typename hn hs =>
      have hanswers : (p.scope s).answers object g = true := by simp [Scope.answers, hn]
      rw [List.filter_cons, if_pos hanswers, List.map_cons, ih hs]
      rfl
    | undeclared hn hd hs =>
      have hschema : (p.scope s).schema.field? object g.name = none := hd
      have hanswers : (p.scope s).answers object g = false := by
        simp [Scope.answers, hn, hschema]
      rw [List.filter_cons, hanswers, ih hs]
      rfl
    | @declared _ _ _ _ d _ _ hn hd h hs =>
      have hschema : (p.scope s).schema.field? object g.name = some d := hd
      have hanswers : (p.scope s).answers object g = true := by simp [Scope.answers, hschema]
      rw [List.filter_cons, if_pos hanswers, List.map_cons, ih hs]
      rfl

/-- A child of an object is of a group that its type answers. -/
theorem exists_group_of_mem {q : Place} {object : String} {gs : FieldGroups}
    {children : List (String × Node)}
    (h : (p.environment s data).GrownFields q object gs children) {key : String} {n : Node}
    (hmem : (key, n) ∈ children) :
    ∃ g ∈ gs, (p.scope s).answers object g = true ∧ n.visit object key = g.visit object := by
  induction gs generalizing children with
  | nil =>
    cases h
    simp at hmem
  | cons g gs ih =>
    have hrest : ∀ {children' : List (String × Node)},
        (p.environment s data).GrownFields q object gs children' → (key, n) ∈ children' →
          ∃ g' ∈ g :: gs, (p.scope s).answers object g' = true ∧
            n.visit object key = g'.visit object := fun hs hmem =>
      (ih hs hmem).imp fun _ hg => ⟨List.mem_cons_of_mem _ hg.1, hg.2⟩
    cases h with
    | typename hn hs =>
      rcases List.mem_cons.1 hmem with heq | hmem
      · obtain ⟨rfl, rfl⟩ := Prod.mk.inj heq
        exact ⟨g, List.mem_cons_self, by simp [Scope.answers, hn], rfl⟩
      · exact hrest hs hmem
    | undeclared hn hd hs => exact hrest hs hmem
    | @declared _ _ _ _ d _ _ hn hd h hs =>
      have hschema : (p.scope s).schema.field? object g.name = some d := hd
      rcases List.mem_cons.1 hmem with heq | hmem
      · obtain ⟨rfl, rfl⟩ := Prod.mk.inj heq
        exact ⟨g, List.mem_cons_self, by simp [Scope.answers, hschema], visit_of_grown h⟩
      · exact hrest hs hmem

end

end Plan

end GraphQL
