/-
GraphQL.Proofs.PartialNodes — which normalized nodes apply to all types of their parent.

A node counts as partial if it has not as many object types as its parent has possible types
(`NormalField.isPartial`). Two numbers say nothing of two lists in general. They do here: a type
condition only takes object types away, and a node that takes a selection adds those that it does
not have. So the object types of a node are some of the possible ones, each once
(`Normal.narrowed_of_levelNodes`), on every level of a tree; and the possible types of a type are
different ones unless a union names a member twice (`Schema.nodup_possibleTypes`).

* `Walk.sublist_of_restrict` — what a walk has left of its object types.
* `Normal.narrowed_of_levelNodes` — hence what the nodes of a level have of them.
* `NormalTree.partial_exactly` — hence which nodes of a tree are partial.
-/
import GraphQL.Proofs.NormalDepth

namespace GraphQL

/-! ## Possible types -/

namespace Schema

variable {s : Schema}

/-- No union names a member twice. -/
def DistinctMembers (s : Schema) : Prop :=
  ∀ u, .union u ∈ s.types.items → u.members.Nodup

theorem distinctMembers_ofQueryType (queryType : String) :
    (ofQueryType queryType).DistinctMembers := by
  intro u hu
  have hmem := Registry.mem_of_mem_ofList hu
  simp [builtinScalars] at hmem

theorem DistinctMembers.register (h : s.DistinctMembers) {x : TypeDefinition}
    (hx : ∀ u, x = .union u → u.members.Nodup) : (s.register x).DistinctMembers := by
  intro u hu
  rcases Registry.mem_of_mem_put hu with rfl | hu
  · exact hx u rfl
  · exact h u hu

/-- The implementations of an interface are different types of the schema. -/
theorem nodup_implementations (s : Schema) (name : String) :
    ((s.implementations name).map ObjectType.name).Nodup := by
  have hobject : ∀ t o, TypeDefinition.object? t = some o → o.name = Named.name t := by
    intro t o ho
    cases t <;> cases ho
    rfl
  exact s.types.nodup.sublist
    ((List.filter_sublist.map _).trans (sublist_map_filterMap hobject _))

/-- So are all possible types of a type. -/
theorem nodup_possibleTypes (hs : s.DistinctMembers) (name : String) :
    ((s.possibleTypes name).map ObjectType.name).Nodup := by
  unfold possibleTypes
  split
  · exact List.nodup_singleton _
  · exact nodup_implementations s _
  · next u hu =>
    have hnames : ((u.members.filterMap s.object?).map ObjectType.name).Sublist
        (u.members.map id) := sublist_map_filterMap (fun _ _ => name_of_object?) _
    rw [List.map_id] at hnames
    exact (hs u (Registry.mem_of_get? hu).1).sublist hnames
  · exact List.nodup_nil

/-- An object type is its own possible type. -/
theorem possibleTypes_of_object? {name : String} {o : ObjectType} (h : s.object? name = some o) :
    s.possibleTypes name = [o] := by
  obtain ⟨t, ht, ho⟩ := Option.bind_eq_some_iff.1 h
  cases t <;> cases ho
  rw [possibleTypes, ht]

end Schema

/-! ## What is left of object types -/

/-- Walks over object types take some of them away. -/
theorem Walk.sublist_of_restrict {sc : Scope} {set stop : SelectionSet}
    {objects objects' : List String}
    (h : Walk sc.fragments (Normal.restrict sc) set objects stop objects') :
    objects'.Sublist objects := by
  have hrestrict : ∀ {condition : String} {before after : List String},
      Normal.restrict sc condition before = some after → after.Sublist before := by
    intro condition before after hafter
    obtain rfl := Option.some.inj hafter
    exact List.filter_sublist
  induction h with
  | here => exact .refl _
  | pastField _ ih | pastInline _ ih | pastSpread _ ih | into _ _ ih => exact ih
  | intoOn _ ht _ ih | intoFragment _ ht _ ih => exact ih.trans (hrestrict ht)

namespace Normal

variable {sc : Scope} {level : Nat} {sets : List SelectionSet} {objects : List String}
  {n : NormalField} {o : Occurrence (List String)}

theorem nodup_addTypes {types new : List String} (h : types.Nodup) :
    (addTypes types new).Nodup := by
  unfold addTypes
  induction new generalizing types with
  | nil => exact h
  | cons t new ih =>
    refine ih ?_
    beta_reduce
    split
    · exact h
    · next hnew =>
      have hdisjoint : types.Disjoint [t] := by simpa using hnew
      exact List.nodup_append'.2 ⟨h, List.nodup_singleton t, hdisjoint⟩

/-- A node has some of the object types, each once. -/
structure Narrowed (objects : List String) (n : NormalField) : Prop where
  ne_nil : n.objectTypes ≠ []
  nodup : n.objectTypes.Nodup
  subset : n.objectTypes ⊆ objects

/-- The node that takes an occurrence on some of the object types has some of them, as before. -/
theorem Narrowed.join (h : Narrowed objects n) (htarget : o.target ⊆ objects) :
    Narrowed objects (join n o) where
  ne_nil := by
    obtain ⟨object, hobject⟩ := List.exists_mem_of_ne_nil _ h.ne_nil
    exact List.ne_nil_of_mem ((subset_addTypes n.objectTypes o.target).1 hobject)
  nodup := nodup_addTypes h.nodup
  subset _ hobject := (mem_addTypes hobject).elim (h.subset ·) (htarget ·)

/-- So has the node that it starts: it has a declared type on the first of its object types. -/
theorem narrowed_start {type : TypeExpr} {arguments : List (String × Json)}
    (htype : declaredType? sc.schema o = some type) (hobjects : objects.Nodup)
    (htarget : o.target.Sublist objects) : Narrowed objects (start o type level arguments) where
  ne_nil hnil := by
    have htargetNil : o.target = [] := hnil
    simp [declaredType?, htargetNil] at htype
  nodup := hobjects.sublist htarget
  subset := htarget.subset

/-- Occurrences that are on some of the object types have gone into nodes that have some. -/
def NarrowedBy (objects : List String) (os : List (Occurrence (List String)))
    (buckets : Buckets) : Prop :=
  (∀ o ∈ os, o.target.Sublist objects) → ∀ k, ∀ n ∈ bucket buckets k, Narrowed objects n

theorem narrowedBy_putOccurrence {os : List (Occurrence (List String))}
    {buckets buckets' : Buckets} (hobjects : objects.Nodup) (hb : NarrowedBy objects os buckets)
    (h : putOccurrence sc level buckets o = .ok buckets') :
    NarrowedBy objects (os ++ [o]) buckets' := by
  intro hos
  have htarget := hos o (List.mem_append_right _ List.mem_cons_self)
  have hbefore := hb fun o' ho' => hos o' (List.mem_append_left _ ho')
  exact forall_putOccurrence (fun n hn => hn.join htarget.subset)
    (fun _ _ htype => narrowed_start htype hobjects htarget) hbefore h

/-- The nodes of a level have some of its object types, each once. -/
theorem narrowed_of_levelNodes {ns : List NormalField} (hobjects : objects.Nodup)
    (h : levelNodes sc level sets objects = .ok ns) : ∀ n ∈ ns, Narrowed objects n := by
  have htarget : ∀ o ∈ levelOccurrences sc sets objects, o.target.Sublist objects := by
    intro o ho
    obtain ⟨set, -, ho⟩ := List.mem_flatMap.1 ho
    obtain ⟨rest, hwalk⟩ := Walk.exists_of_mem_occurrences ho
    exact hwalk.sublist_of_restrict
  obtain ⟨buckets, rfl, hfold⟩ := levelNodes_eq_ok h
  have hsorted := foldlM_putOccurrence (fun hb => sorted_putOccurrence hb) sorted_nil hfold
  have hempty : NarrowedBy objects [] [] := fun _ _ _ hn => by simp [bucket] at hn
  have hnarrowed :=
    foldlM_putOccurrence (fun hb => narrowedBy_putOccurrence hobjects hb) hempty hfold htarget
  intro n hn
  obtain ⟨e, he, hn⟩ := List.mem_flatMap.1 hn
  exact hnarrowed e.1 n (hsorted.bucket_eq he ▸ hn)

/-- What the object types of a node say, for the type of its parent. -/
structure Recognised (s : Schema) (parent : String) (n : NormalField) : Prop where
  /-- There are some, each once. -/
  ne_nil : n.objectTypes ≠ []
  nodup : n.objectTypes.Nodup
  /-- They are possible types of the parent. -/
  possible : ∀ object ∈ n.objectTypes, ∃ t ∈ s.possibleTypes parent, t.name = object
  /-- The node is not partial exactly if they are all possible types of the parent. -/
  exact : n.isPartial s parent = false ↔ ∀ t ∈ s.possibleTypes parent, t.name ∈ n.objectTypes

/-- A node with some of the possible types of its parent, each once, has them all exactly if it
has as many. -/
theorem Narrowed.recognised {s : Schema} {parent : String} (hs : s.DistinctMembers)
    (h : Narrowed ((s.possibleTypes parent).map ObjectType.name) n) : Recognised s parent n where
  ne_nil := h.ne_nil
  nodup := h.nodup
  possible _ hobject := List.mem_map.1 (h.subset hobject)
  exact := by
    have hsubperm := h.nodup.subperm h.subset
    unfold NormalField.isPartial
    rw [bne_eq_false_iff_eq]
    constructor
    · intro hlength t ht
      have hperm := hsubperm.perm_of_length_le (by rw [List.length_map, hlength])
      exact hperm.mem_iff.2 (List.mem_map_of_mem ht)
    · intro hall
      have hsubset : (s.possibleTypes parent).map ObjectType.name ⊆ n.objectTypes := by
        intro object hobject
        obtain ⟨t, ht, rfl⟩ := List.mem_map.1 hobject
        exact hall t ht
      have hle := ((Schema.nodup_possibleTypes hs parent).subperm hsubset).length_le
      rw [List.length_map] at hle
      have hge := hsubperm.length_le
      rw [List.length_map] at hge
      exact hle.antisymm hge

/-- The object types of the children of a node are the possible types of its type. -/
theorem objects_of_childObjects? {s : Schema} (h : childObjects? s n = some objects) :
    objects = (s.possibleTypes n.type.baseName).map ObjectType.name := by
  unfold childObjects? at h
  split at h
  · next t ht =>
    split at h
    · rw [← Option.some.inj h, Schema.name_of_type? ht]
    · cases h
  · cases h

end Normal

namespace NormalTree

open GraphQL.Normal

/-- In a tree whose operation has a registered object type, the nodes that are not partial are
exactly those with all possible types of their parent: the type of the operation for the nodes at
the top, and the innermost name of the parent's type for those below a node. -/
theorem partial_exactly {s : Schema} {d : Document} {operation? : Option String}
    {vars : VariableValues} {t : NormalTree} (hs : s.DistinctMembers)
    (h : ofDocument s d operation? vars = .ok t) {o : Operation} {root : String}
    (ho : d.operation operation? = .ok o) (hroot : o.rootTypeName s = .ok root)
    (hobject : (s.object? root).isSome) :
    (∀ u ∈ t.top, Recognised s root u.field) ∧
      ∀ parent ∈ NormalNode.preorders t.top, ∀ u ∈ parent.children,
        Recognised s parent.field.type.baseName u.field := by
  obtain ⟨o', root', ho', hroot', htop⟩ := trees_of_ofDocument h
  obtain rfl := Except.ok.inj (ho.symm.trans ho')
  obtain rfl := Except.ok.inj (hroot.symm.trans hroot')
  have hlevel : ∀ {parent m sets level ts}, trees (.ofDocument s d vars) m sets
      ((s.possibleTypes parent).map ObjectType.name) level = .ok ts →
        ∀ u ∈ ts, Recognised s parent u.field := by
    intro parent m sets level ts htrees u hu
    exact (narrowed_of_levelNodes (Schema.nodup_possibleTypes hs parent) (fields_of_trees htrees) _
      (List.mem_map_of_mem hu)).recognised hs
  refine ⟨?_, fun parent hparent u hu => ?_⟩
  · obtain ⟨q, hq⟩ := Option.isSome_iff_exists.1 hobject
    have hpossible : (s.possibleTypes root).map ObjectType.name = [root] := by
      rw [Schema.possibleTypes_of_object? hq, List.map_singleton, Schema.name_of_object? hq]
    exact hlevel (hpossible ▸ htop)
  · obtain ⟨sets, objects, ts, hparents, hmem⟩ := exists_level htop hparent
    obtain ⟨m, level, htrees⟩ := hparents.exists_trees htop
    rcases children_of_trees htrees hmem with ⟨-, hnone⟩ | ⟨m', objects', hobjects, hchildren⟩
    · rw [hnone] at hu
      cases hu
    · obtain rfl := objects_of_childObjects? hobjects
      exact hlevel hchildren u hu

/-- Things that can be searched for, books and people. -/
def searchSchema : Schema :=
  let field (name : String) (type : TypeExpr) : FieldDefinition := ⟨name, .empty, type, none⟩
  ((((Schema.ofQueryType "Query").register
    (.interface ⟨"Named", .ofList [field "name" (.named "String")], none⟩)).register
    (.object ⟨"Book", .ofList [field "name" (.named "String"), field "pages" (.named "Int")],
      ["Named"]⟩)).register
    (.object ⟨"Person", .ofList [field "name" (.named "String")], ["Named"]⟩)).register
    (.union ⟨"Thing", ["Person", "Book"], none⟩) |>.register
    (.object ⟨"Query", .ofList [field "search" (.list (.required "Thing"))], []⟩)

/-- The names of all things, by their types and by the interface, and the pages of books. -/
def searchText : String :=
  "{ search { ... on Book { name pages } ... on Person { name } ... on Named { id: name } } }"

theorem partial_exactly_search :
    ∃ d o t, Document.parse searchText = .ok d ∧ d.operation none = .ok o ∧
      ofDocument searchSchema d none [] = .ok t ∧
      (NormalNode.preorders t.top).map (fun u => (u.field.key, u.field.objectTypes)) =
        [("search", ["Query"]), ("name", ["Book", "Person"]), ("pages", ["Book"]),
          ("id", ["Person", "Book"])] ∧
      (∀ u ∈ t.top, Recognised searchSchema "Query" u.field) ∧
      ∀ parent ∈ NormalNode.preorders t.top, ∀ u ∈ parent.children,
        Recognised searchSchema parent.field.type.baseName u.field := by
  have hs : searchSchema.DistinctMembers := by
    refine ((((Schema.distinctMembers_ofQueryType _).register ?_).register ?_).register ?_).register
      ?_ |>.register ?_
    case refine_4 =>
      rintro u ⟨⟩
      decide
    all_goals exact nofun
  have hcheck : ((Document.parse searchText).toOption.any fun d =>
      (d.operation none).toOption.any fun o =>
        (ofDocument searchSchema d none []).toOption.any fun t =>
          (NormalNode.preorders t.top).map (fun u => (u.field.key, u.field.objectTypes)) ==
            [("search", ["Query"]), ("name", ["Book", "Person"]), ("pages", ["Book"]),
              ("id", ["Person", "Book"])] &&
            (o.rootTypeName searchSchema).toOption == some "Query") = true := by
    decide +kernel
  obtain ⟨d, hd, hcheck⟩ := Except.exists_of_any hcheck
  obtain ⟨o, ho, hcheck⟩ := Except.exists_of_any hcheck
  obtain ⟨t, ht, hcheck⟩ := Except.exists_of_any hcheck
  simp only [Bool.and_eq_true, beq_iff_eq] at hcheck
  have hroot := Except.toOption_eq_some hcheck.2
  exact ⟨d, o, t, hd, ho, ht, hcheck.1, partial_exactly hs ht ho hroot (by decide +kernel)⟩

end NormalTree

end GraphQL
