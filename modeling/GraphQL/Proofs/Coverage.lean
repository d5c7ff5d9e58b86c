/-
GraphQL.Proofs.Coverage — the normalized tree of an operation covers its executions.

The normalized tree is made before anything runs, for all possible types at once, and
looks a field up on one of them only. An execution collects for one concrete type at a
time. What links the two is `Plan.Reaches`: a selection set that an execution collects
from for a concrete type is one of a level of the tree, whose object types have the
concrete type among them and are all covered by one type that the set was checked on.

* `Node.routes` — the fields that an execution has completed, read off its result tree.
* `Plan.reaches_of_occurrence` — a collected field has a node, and what is collected
  below it is reached below the node.
* `Plan.covered_of_valid` — if the implementations of an interface give a field of it the
  same possible types, and fields that are merged have one name, each completed field is
  represented by a chain of nodes.
* `Request.not_covered_of_valid` — valid documents on schemas of which that is not so.
-/
import GraphQL.Proofs.Acceptance
import GraphQL.Proofs.Merging
import GraphQL.Proofs.NormalLevel

namespace GraphQL

/-! ## Completed fields -/

namespace Plan

/-- By the fields of a route an execution can come to complete the last of them: a group
that it collects for an object, and that the type of the object answers. -/
def Completes (p : Plan) (s : Schema) (route : List Visit) : Prop :=
  ∃ before object sets g, p.Collects s before object sets ∧
    g ∈ (p.scope s).groupsOn object sets ∧ (p.scope s).answers object g = true ∧
    route = before ++ [g.visit object]

end Plan

/-- The fields that are completed in a result tree, each with the fields on the way to it:
their response keys, the concrete types they were resolved on, and their names. -/
def Node.routes (n : Node) : List (List Visit) :=
  (n.objects []).flatMap fun x => x.children.map fun child =>
    x.route ++ [child.2.visit (x.place.concreteType?.getD "") child.1]

/-- What an execution completes is what the plan can complete. -/
theorem Plan.completes_of_run {p : Plan} {s : Schema} {data : RequestData} {mode : Mode}
    {source : Json} {es : List Event} {n : Node}
    (h : (p.jobIn mode s source data).run 0 = (es, .ok n)) {route : List Visit}
    (hroute : route ∈ n.routes) : p.Completes s route := by
  obtain ⟨x, hx, hroute⟩ := List.mem_flatMap.1 hroute
  obtain ⟨⟨key, child⟩, hchild, rfl⟩ := List.mem_map.1 hroute
  obtain ⟨object, hcollects, hobject, _, hfields⟩ := gathered_of_run h hx
  obtain ⟨g, hg, hanswers, hvisit⟩ := exists_group_of_mem hfields hchild
  refine ⟨x.route, object, _, g, hcollects, hg, hanswers, ?_⟩
  rw [hobject, Option.getD_some, hvisit]

/-! ## Chains of nodes -/

/-- Some trees have a chain of nodes for the fields of a route: one of them is of the key
and the name of the first field, can be resolved on its object type, and its children have
a chain for the others. -/
def NormalNode.represents : List Visit → List NormalNode → Bool
  | [], _ => true
  | v :: route, ts => ts.any fun t =>
    t.field.key == v.key && t.field.name == v.name && t.field.objectTypes.contains v.object &&
      represents route t.children

theorem NormalNode.represents_cons {f : NormalField} {cs ts : List NormalNode} {v : Visit}
    {route : List Visit} (ht : .node f cs ∈ ts) (hkey : f.key = v.key) (hname : f.name = v.name)
    (hobject : v.object ∈ f.objectTypes) (hroute : represents route cs = true) :
    represents (v :: route) ts = true := by
  refine List.any_eq_true.2 ⟨.node f cs, ht, ?_⟩
  simp only [field, children, hkey, hname, hroute, List.contains_iff_mem.2 hobject,
    beq_self_eq_true, Bool.and_self]

/-! ## Fields of the same possible types -/

namespace Schema

/-- The implementations of an interface give a field of it the same possible types. -/
def Uniform (s : Schema) : Prop :=
  ∀ i ∈ s.interfaces, ∀ o ∈ s.objects, i.name ∈ o.interfaces →
    ∀ o' ∈ s.objects, i.name ∈ o'.interfaces → ∀ d ∈ i.fields.items,
      ∀ e ∈ o.fields.get? d.name, ∀ e' ∈ o'.fields.get? d.name,
        ∀ t ∈ s.possibleTypes e.type.baseName, s.covers e'.type.baseName t.name = true

/-- The possible types of a field on an object type are possible on every other one that
has the field of the same type. -/
theorem covers_of_uniform {s : Schema} (hu : s.Uniform) {parent object object' name : String}
    {d e e' : FieldDefinition} (hd : s.field? parent name = some d)
    (hc : s.covers parent object = true) (hc' : s.covers parent object' = true)
    (he : s.field? object name = some e) (he' : s.field? object' name = some e')
    {t : ObjectType} (ht : t ∈ s.possibleTypes e.type.baseName) :
    s.covers e'.type.baseName t.name = true := by
  rcases covers_cases hd with hself | ⟨i, hi, hmem, rfl, himplements⟩
  · rw [hself object hc] at he
    rw [hself object' hc', he] at he'
    obtain rfl := Option.some.inj he'
    exact covers_of_mem ht
  · obtain ⟨o, ho, hinterface, hfield⟩ := himplements object hc
    obtain ⟨o', ho', hinterface', hfield'⟩ := himplements object' hc'
    exact hu i hi o ho hinterface o' ho' hinterface' d hmem e (hfield ▸ he) e' (hfield' ▸ he') t ht

end Schema

/-! ## What the levels of the tree reach -/

/-- Type conditions that let an object type pass keep it among object types. -/
theorem Normal.simulates_restrict (sc : Scope) :
    Simulates (fun object objects => object ∈ objects) sc.restrictObject (restrict sc) := by
  intro c object objects object' hmem h
  unfold Scope.restrictObject at h
  split at h
  · next hc =>
    obtain rfl := Option.some.inj h
    exact ⟨_, rfl, List.mem_filter.2 ⟨hmem, hc⟩⟩
  · simp at h

/-- A type covers all of some object types. -/
def Schema.CoversAll (s : Schema) (parent : String) (objects : List String) : Prop :=
  ∀ object ∈ objects, s.covers parent object = true

theorem Normal.coversAll_of_restrict {sc : Scope} {c : String} {objects objects' : List String}
    (h : restrict sc c objects = some objects') : sc.schema.CoversAll c objects' ∧
      ∀ parent, sc.schema.CoversAll parent objects → sc.schema.CoversAll parent objects' := by
  obtain rfl := Option.some.inj h
  exact ⟨fun object hmem => (List.mem_filter.1 hmem).2,
    fun _ hcovers object hmem => hcovers object (List.mem_filter.1 hmem).1⟩

namespace Normal

variable {s : Schema}

/-- A node whose type has a possible type has children on all possible types of it. -/
theorem childObjects?_of_covers {n : NormalField} {object : String}
    (h : s.covers n.type.baseName object = true) :
    childObjects? s n = some ((s.possibleTypes n.type.baseName).map ObjectType.name) ∧
      object ∈ (s.possibleTypes n.type.baseName).map ObjectType.name := by
  obtain ⟨t, ht, hcomposite⟩ := Schema.isComposite_of_covers h
  obtain ⟨o, ho, hname⟩ := List.any_eq_true.1 h
  have htname : t.name = n.type.baseName := Schema.name_of_type? ht
  refine ⟨?_, List.mem_map.2 ⟨o, ho, beq_iff_eq.1 hname⟩⟩
  simp [childObjects?, ht, hcomposite, htname]

end Normal

namespace Plan

variable {p : Plan} {s : Schema}

/-- A selection set that is collected from for an object type after a route is one of a
level of the tree: its object types have the object type among them and are covered by a
type that the set has been accepted on, and chains in the level lead on from the route. -/
def Reaches (p : Plan) (s : Schema) (top : List NormalNode) (route : List Visit)
    (object : String) (set : SelectionSet) : Prop :=
  ∃ n sets objects level ts parent,
    Normal.trees (p.scope s) n sets objects level = .ok ts ∧ set ∈ sets ∧ object ∈ objects ∧
      Validation.Accepts s p.document.fragments.contains set parent ∧
      s.CoversAll parent objects ∧
      ∀ below, NormalNode.represents below ts = true →
        NormalNode.represents (route ++ below) top = true

/-- What an execution collects for one object type, normalization collects for object types
with that one among them, and it has been accepted on a type that covers all of them. -/
theorem exists_occurrence (hd : Validation.findings s p.document = []) {object parent : String}
    {objects : List String} {set : SelectionSet}
    (hset : Validation.Accepts s p.document.fragments.contains set parent)
    (hparent : s.CoversAll parent objects) (hobject : object ∈ objects) {o : Occurrence String}
    (ho : o ∈ (p.scope s).occurrences (p.scope s).restrictObject set object) :
    ∃ o' ∈ (p.scope s).occurrences (Normal.restrict (p.scope s)) set objects,
      o'.field = o.field ∧ object ∈ o'.target ∧ ∃ parent' rest, s.CoversAll parent' o'.target ∧
        Validation.Accepts s p.document.fragments.contains
          (.field o.field.node o.field.selections rest) parent' := by
  obtain ⟨o', ho', hfield, htarget⟩ :=
    (p.scope s).occurrences_simulated (Normal.simulates_restrict (p.scope s)) set hobject o ho
  obtain ⟨_, hwalk⟩ := Walk.exists_of_mem_occurrences ho
  rw [Scope.target_of_walk hwalk] at htarget
  obtain ⟨rest, hwalk'⟩ := Walk.exists_of_mem_occurrences ho'
  obtain ⟨parent', haccepts, hcovers⟩ := Validation.accepts_of_walk s.CoversAll
    (fun _ hf => Validation.accepts_of_mem_fragments hd hf)
    (fun _ _ _ hr => Normal.coversAll_of_restrict hr) hwalk' hset hparent
  exact ⟨o', ho', hfield, htarget, parent', rest, hcovers, hfield ▸ haccepts⟩

/-- In a level of the tree a field that has been accepted on a type that covers the object
types has a declared type, whichever object type it is looked up on. What is possible for
the field on any of them is possible for that type, and the possible types of that are
covered by a type that the selections of the field have been accepted on. -/
theorem declaredType?_of_accepts (hs : s.Narrows) (hu : s.Uniform) {known : String → Bool}
    {o : Occurrence (List String)} {rest : SelectionSet} {parent object : String}
    (haccepts : Validation.Accepts s known (.field o.field.node o.field.selections rest) parent)
    (hcovers : s.CoversAll parent o.target) (hobject : object ∈ o.target) :
    ∃ type, Normal.declaredType? s o = some type ∧
      ∀ d, o.field.node.name ≠ "__typename" → s.field? object o.field.node.name = some d →
        ∀ t ∈ s.possibleTypes d.type.baseName, s.covers type.baseName t.name = true ∧
          ∃ below, Validation.Accepts s known o.field.selections below ∧
            s.CoversAll below ((s.possibleTypes type.baseName).map ObjectType.name) := by
  cases htypes : o.target with
  | nil => simp [htypes] at hobject
  | cons first others =>
    have hfirst : s.covers parent first = true := hcovers first (htypes ▸ List.mem_cons_self)
    by_cases hn : o.field.node.name = "__typename"
    · refine ⟨.required "String", ?_, fun _ hne => absurd hn hne⟩
      simp [Normal.declaredType?, htypes, Normal.declaration?, hn]
    · obtain ⟨e, he, hselections⟩ := Validation.field?_of_accepts haccepts hn
      obtain ⟨e', he', hnarrow⟩ := Schema.field?_of_covers hs he hfirst
      -- the level has the type that the first object type gives the field, an execution the
      -- one that its own object type does
      refine ⟨e'.type, ?_, fun d _ hfield t ht => ?_⟩
      · simp [Normal.declaredType?, htypes, Normal.declaration?, hn, he']
      · have hpossible : s.covers e'.type.baseName t.name = true :=
          Schema.covers_of_uniform hu he (hcovers object hobject) hfirst hfield he' ht
        have hbelow : s.CoversAll e.type.baseName
            ((s.possibleTypes e'.type.baseName).map ObjectType.name) := by
          intro name hname
          obtain ⟨u, hu, rfl⟩ := List.mem_map.1 hname
          exact hnarrow u hu
        obtain ⟨u, hu, hname⟩ := List.any_eq_true.1 hpossible
        obtain ⟨v, hv, hcomposite⟩ :=
          Schema.isComposite_of_covers (hbelow _ (List.mem_map_of_mem hu))
        have hvname : v.name = e.type.baseName := Schema.name_of_type? hv
        exact ⟨hpossible, v.name, hselections v hv hcomposite, hvname ▸ hbelow⟩

/-- A field that is collected for an object type has a node in the level that is reached:
it continues the chain there, and what is collected below the field is reached below it. -/
theorem reaches_of_occurrence (hs : s.Narrows) (hu : s.Uniform)
    (hd : Validation.findings s p.document = []) {top : List NormalNode} {route : List Visit}
    {object : String} {set : SelectionSet} (h : p.Reaches s top route object set)
    {o : Occurrence String}
    (ho : o ∈ (p.scope s).occurrences (p.scope s).restrictObject set object) {v : Visit}
    (hv : v = ⟨o.field.node.responseKey, object, o.field.node.name⟩) :
    NormalNode.represents (route ++ [v]) top = true ∧
      ∀ d, v.name ≠ "__typename" → s.field? object v.name = some d →
        ∀ t ∈ s.possibleTypes d.type.baseName,
          p.Reaches s top (route ++ [v]) t.name o.field.selections := by
  subst hv
  obtain ⟨n, sets, objects, level, ts, parent, htrees, hset, hobject, haccepts, hparent, hchain⟩ :=
    h
  obtain ⟨o', ho', hfield, htarget, parent', rest, hcovers, haccepts'⟩ :=
    exists_occurrence hd haccepts hparent hobject ho
  rw [← hfield] at haccepts' ⊢
  obtain ⟨type, htype, hpossible⟩ := declaredType?_of_accepts hs hu haccepts' hcovers htarget
  obtain ⟨f, cs, hf, hkey, hhome, hchildren⟩ :=
    Normal.exists_node_of_trees htrees hset ho' htype
  have hcontinues : ∀ below, NormalNode.represents below cs = true → NormalNode.represents
      (route ++ ⟨o'.field.node.responseKey, object, o'.field.node.name⟩ :: below) top = true :=
    fun below hbelow => hchain _
      (NormalNode.represents_cons hf hkey hhome.name (hhome.objects htarget) hbelow)
  refine ⟨hcontinues [] rfl, fun d hn hfield' t ht => ?_⟩
  obtain ⟨ht', below, hbelow, hall⟩ := hpossible d hn hfield' t ht
  rw [← hhome.type] at ht' hall
  obtain ⟨hobjects, hmem⟩ := Normal.childObjects?_of_covers ht'
  obtain ⟨m, sets', hm, hsets'⟩ := hchildren _ hobjects
  refine ⟨m, sets', _, _, cs, below, hm, hsets', hmem, hbelow, hall, fun rest hrest => ?_⟩
  rw [List.append_assoc]
  exact hcontinues rest hrest

/-! ## Executions -/

section

variable {operation? : Option String} {tree : NormalTree}

/-- The top level reaches the selections of the operation. -/
theorem reaches_root (hp : p.Fits s) (hd : Validation.findings s p.document = [])
    (ho : p.document.operation operation? = .ok p.operation)
    (ht : NormalTree.ofDocument s p.document operation? p.vars = .ok tree) :
    p.Reaches s tree.top [] p.root p.operation.selections := by
  obtain ⟨o, hobject⟩ := hp.object
  simp only [NormalTree.ofDocument, ho, hp.root] at ht
  split at ht
  · next top htop =>
    obtain rfl := Except.ok.inj ht
    refine ⟨_, _, _, _, top, p.root, htop, List.mem_cons_self, List.mem_cons_self,
      Validation.accepts_root hp hd, fun object hmem => ?_, fun _ hbelow => hbelow⟩
    obtain rfl := List.mem_singleton.1 hmem
    exact Schema.covers_self hobject
  · simp at ht

/-- Every selection set that an execution collects from is reached by the tree. -/
theorem reaches_of_collects (hs : s.Narrows) (hu : s.Uniform) (hp : p.Fits s)
    (hd : Validation.findings s p.document = []) (hm : p.MergesByName s)
    (ho : p.document.operation operation? = .ok p.operation)
    (ht : NormalTree.ofDocument s p.document operation? p.vars = .ok tree)
    {route : List Visit} {object : String} {sets : List SelectionSet}
    (h : p.Collects s route object sets) :
    ∀ set ∈ sets, p.Reaches s tree.top route object set := by
  induction h with
  | root =>
    intro set hset
    obtain rfl := List.mem_singleton.1 hset
    exact reaches_root hp hd ho ht
  | @field route object sets g d t h hg hn hfield hpossible ih =>
    intro set hset
    obtain ⟨f, hf, rfl⟩ := List.mem_map.1 hset
    obtain ⟨hkey, set', hset', o, hocc, rfl⟩ := Scope.exists_occurrence hg hf
    -- the first selection gave the field its name, but the set may be that of any other
    have hvisit : g.visit object = ⟨o.field.node.responseKey, object, o.field.node.name⟩ := by
      rw [hkey, hm route object sets h g hg o.field hf, FieldGroup.visit]
    exact (reaches_of_occurrence hs hu hd (ih set' hset') hocc hvisit).2 d hn hfield t hpossible

/-- The tree has a chain of nodes for every field that an execution completes. -/
theorem represents_of_completes (hs : s.Narrows) (hu : s.Uniform) (hp : p.Fits s)
    (hd : Validation.findings s p.document = []) (hm : p.MergesByName s)
    (ho : p.document.operation operation? = .ok p.operation)
    (ht : NormalTree.ofDocument s p.document operation? p.vars = .ok tree)
    {route : List Visit} (h : p.Completes s route) :
    NormalNode.represents route tree.top = true := by
  obtain ⟨before, object, sets, g, hc, hg, _, rfl⟩ := h
  obtain ⟨hkey, set, hset, o, hocc, hfield⟩ :=
    Scope.exists_occurrence hg (List.mem_cons_self : g.first ∈ g.fields)
  have hreaches := reaches_of_collects hs hu hp hd hm ho ht hc set hset
  have hvisit : g.visit object = ⟨o.field.node.responseKey, object, o.field.node.name⟩ := by
    rw [hfield]
    rfl
  exact (reaches_of_occurrence hs hu hd hreaches hocc hvisit).1

/-- A tree has a chain of nodes for every field that any execution of the plan can
complete, and so for those that have been completed in a result tree. -/
structure Covered (p : Plan) (s : Schema) (tree : NormalTree) : Prop where
  possible : ∀ route, p.Completes s route → NormalNode.represents route tree.top = true
  completed : ∀ mode source data es n, (p.jobIn mode s source data).run 0 = (es, .ok n) →
    ∀ route ∈ n.routes, NormalNode.represents route tree.top = true

/-- The normalized tree covers every execution of a valid document, if the object types
declare the fields of their interfaces, each interface one with the same possible types on
all of its implementations, and selections that are merged have one field name. -/
theorem covered_of_valid (hs : s.Narrows) (hu : s.Uniform) (hp : p.Fits s)
    (hd : Validation.findings s p.document = []) (hm : p.MergesByName s)
    (ho : p.document.operation operation? = .ok p.operation)
    (ht : NormalTree.ofDocument s p.document operation? p.vars = .ok tree) :
    p.Covered s tree where
  possible _ h := represents_of_completes hs hu hp hd hm ho ht h
  completed _ _ _ _ _ hrun _ hroute :=
    represents_of_completes hs hu hp hd hm ho ht (completes_of_run hrun hroute)

end

end Plan

/-- Pets befriend pets, by their interface. What dogs and cats do is given: the type of
their friends, if they have the field. -/
def petSchema (dogFriend? catFriend? : Option String) : Schema :=
  let field (name : String) (type : TypeExpr) : FieldDefinition := ⟨name, .empty, type, none⟩
  let fields (friend? : Option String) : Registry FieldDefinition :=
    .ofList (field "name" (.named "String") ::
      (friend?.map fun type => field "friend" (.named type)).toList)
  ((((Schema.ofQueryType "Query").register
    (.interface ⟨"Pet", fields (some "Pet"), none⟩)).register
    (.object ⟨"Dog", fields dogFriend?, ["Pet"]⟩)).register
    (.object ⟨"Cat", fields catFriend?, ["Pet"]⟩)).register
    (.object ⟨"Query", .ofList [field "pets" (.list (.named "Pet"))], []⟩)

/-- The friends of a cat, who has one. -/
def petRequest : Request :=
  { Request.ofText "{ pets { friend { name } ... on Cat { friend { kind: __typename } } } }" with
    rootValue := .obj [("pets", .arr [.obj [("__typename", .str "Cat"),
      ("friend", .obj [("__typename", .str "Cat"), ("name", .str "Tom")])]])] }

/-- The friends of both kinds of pets are dogs, a narrower type than that of the interface. -/
def dogFriendSchema : Schema := petSchema (some "Dog") (some "Dog")

theorem Plan.covered_of_valid_demo :
    dogFriendSchema.Narrows ∧ dogFriendSchema.Uniform ∧
      ∃ p tree, petRequest.plan dogFriendSchema = .ok p ∧ p.Fits dogFriendSchema ∧
        Validation.findings dogFriendSchema p.document = [] ∧ p.MergesByName dogFriendSchema ∧
        p.document.operation none = .ok p.operation ∧
        NormalTree.ofDocument dogFriendSchema p.document none p.vars = .ok tree ∧
        p.Covered dogFriendSchema tree := by
  have hs : dogFriendSchema.Narrows := by
    unfold Schema.Narrows
    decide +kernel
  have hu : dogFriendSchema.Uniform := by
    unfold Schema.Uniform
    decide +kernel
  have hplan : ((petRequest.plan dogFriendSchema).toOption.any fun p =>
      (Validation.findings dogFriendSchema p.document).isEmpty &&
        decide p.document.OneNamePerKey &&
        (NormalTree.ofDocument dogFriendSchema p.document none p.vars).toOption.isSome) =
      true := by
    decide +kernel
  cases hp : petRequest.plan dogFriendSchema with
  | error e => simp [hp, Except.toOption] at hplan
  | ok p =>
    have hfits := fits_of_plan hp
    simp only [hp, Except.toOption, Option.any_some, Bool.and_eq_true, List.isEmpty_iff,
      decide_eq_true_eq] at hplan
    obtain ⟨⟨hd, hnames⟩, htree⟩ := hplan
    have hm : p.MergesByName dogFriendSchema := mergesByName_of_fields hfits hnames
    have ho : p.document.operation none = .ok p.operation := (Request.plan_eq_ok hp).1
    cases ht : NormalTree.ofDocument dogFriendSchema p.document none p.vars with
    | error e => simp [ht] at htree
    | ok tree =>
      exact ⟨hs, hu, p, tree, rfl, hfits, hd, hm, ho, ht,
        covered_of_valid hs hu hfits hd hm ho ht⟩

/-! ## Executions that are not covered -/

namespace Request

/-- The document of a request is valid and has a normalized tree, which has no chain of
nodes for a field that the execution of the request completes. -/
def Uncovered (r : Request) (s : Schema) (route : List Visit) : Prop :=
  ∃ p tree es n, r.plan s = .ok p ∧ Validation.findings s p.document = [] ∧
    NormalTree.ofDocument s p.document r.operation? p.vars = .ok tree ∧
    (p.jobIn p.mode s r.rootValue r.data).run 0 = (es, .ok n) ∧ route ∈ n.routes ∧
    NormalNode.represents route tree.top = false

theorem uncovered_of_check {r : Request} {s : Schema} {route : List Visit}
    (h : ((r.plan s).toOption.any fun p => (Validation.findings s p.document).isEmpty &&
      (NormalTree.ofDocument s p.document r.operation? p.vars).toOption.any fun tree =>
        ((p.jobIn p.mode s r.rootValue r.data).run 0).2.toOption.any fun n =>
          n.routes.contains route && !NormalNode.represents route tree.top) = true) :
    Uncovered r s route := by
  cases hp : r.plan s with
  | error e => simp [hp, Except.toOption] at h
  | ok p =>
    simp only [hp, Except.toOption, Option.any_some, Bool.and_eq_true, List.isEmpty_iff] at h
    obtain ⟨hvalid, h⟩ := h
    cases ht : NormalTree.ofDocument s p.document r.operation? p.vars with
    | error e => simp [ht] at h
    | ok tree =>
      cases hrun : (p.jobIn p.mode s r.rootValue r.data).run 0 with
      | mk es result =>
        cases result with
        | error f => simp [ht, hrun] at h
        | ok n =>
          simp only [ht, hrun, Option.any_some, Bool.and_eq_true, List.contains_iff_mem,
            Bool.not_eq_true'] at h
          exact ⟨p, tree, es, n, hp, hvalid, ht, hrun, h.1, h.2⟩

/-- Neither fields merged under one key, nor types that the implementations of an interface
narrow differently, nor a field that one of them lacks are in the tree. -/
theorem not_covered_of_valid :
    Uncovered { conflictRequest with rootValue := .obj [("left", .obj [])] } twinSchema
        [⟨"a", "Query", "left"⟩, ⟨"name", "Item", "name"⟩] ∧
      Uncovered petRequest (petSchema (some "Dog") (some "Cat"))
        [⟨"pets", "Query", "pets"⟩, ⟨"friend", "Cat", "friend"⟩, ⟨"name", "Cat", "name"⟩] ∧
      Uncovered petRequest (petSchema none (some "Pet"))
        [⟨"pets", "Query", "pets"⟩, ⟨"friend", "Cat", "friend"⟩, ⟨"name", "Cat", "name"⟩] := by
  refine ⟨uncovered_of_check ?_, uncovered_of_check ?_, uncovered_of_check ?_⟩ <;> decide +kernel

end Request

end GraphQL
