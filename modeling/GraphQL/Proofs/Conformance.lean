/-
GraphQL.Proofs.Conformance — response data conforms to the operation.

`Conforms sc t g v` says what the value `v` of a field selected by the group `g` may
be for the type `t`, and `ObjectConforms sc object gs fields` what the object of a
concrete type may be for collected groups. Both look at the schema, at the
collected selections and at the data only: they know nothing of resolvers, result
trees or errors.

* `Node.conforms_of_grown` — a grown node settles to a conforming value, if it does
  not collapse.
* `Request.data_conforms` — hence all data of every response is null or conforms to
  the operation, whatever the resolvers do.
-/
import GraphQL.Proofs.ResultTree
import GraphQL.Proofs.Settling

namespace GraphQL

/-! ## Conforming data -/

/-- Whether objects of a type answer a group of selections: it asks for `__typename` or
for a field that the type declares. -/
def Scope.answers (sc : Scope) (object : String) (g : FieldGroup) : Bool :=
  g.name == "__typename" || (sc.schema.field? object g.name).isSome

mutual

/-- The values of a type at a field that a group of selections has selected. -/
inductive Conforms (sc : Scope) : TypeExpr → FieldGroup → Json → Prop
  | nonNull {t : TypeExpr} {g : FieldGroup} {v : Json} (hv : v ≠ .null)
      (h : Conforms sc t g v) : Conforms sc (.nonNull t) g v
  | nullList (t : TypeExpr) (g : FieldGroup) : Conforms sc (.list t) g .null
  | list {t : TypeExpr} {g : FieldGroup} {vs : List Json} (h : ∀ v ∈ vs, Conforms sc t g v) :
      Conforms sc (.list t) g (.arr vs)
  | nullNamed (name : String) (g : FieldGroup) : Conforms sc (.named name) g .null
  /-- A value that the scalar has converted for the response. -/
  | scalar {name : String} {g : FieldGroup} {t : ScalarType} {v w : Json}
      (ht : sc.schema.type? name = some (.scalar t)) (hw : t.coercion.toResult v = .ok w) :
      Conforms sc (.named name) g w
  | enum {name : String} {g : FieldGroup} {e : EnumType} {value : String}
      (he : sc.schema.type? name = some (.enum e)) (hv : value ∈ e.values) :
      Conforms sc (.named name) g (.str value)
  /-- An object of one of the possible types of the declared type. -/
  | object {name : String} {g : FieldGroup} {o : ObjectType} {fields : List (String × Json)}
      (ho : o ∈ sc.schema.possibleTypes name)
      (h : ObjectConforms sc o.name (sc.subGroups g o.name) fields) :
      Conforms sc (.named name) g (.obj fields)

/-- The objects of a concrete type for collected groups: the keys of the groups that the
type answers, in order, each with a value of the declared type of its first field. -/
inductive ObjectConforms (sc : Scope) : String → FieldGroups → List (String × Json) → Prop
  | intro {object : String} {gs : FieldGroups} {fields : List (String × Json)}
      (hkeys : Entries.keys fields = FieldGroups.keys (gs.filter (sc.answers object)))
      (htypename : ∀ g v, (g, v) ∈ (gs.filter (sc.answers object)).zip (fields.map Prod.snd) →
        g.name = "__typename" → v = .str object)
      (hdeclared : ∀ g v d,
        (g, v) ∈ (gs.filter (sc.answers object)).zip (fields.map Prod.snd) →
        g.name ≠ "__typename" → sc.schema.field? object g.name = some d →
        Conforms sc d.type g v) :
      ObjectConforms sc object gs fields

end

namespace ObjectConforms

variable {sc : Scope} {object : String} {g : FieldGroup} {gs : FieldGroups}
  {fields : List (String × Json)}

theorem nil (sc : Scope) (object : String) : ObjectConforms sc object [] [] :=
  .intro rfl (by simp) (by simp)

/-- A group that the type does not answer leaves no trace. -/
theorem skip (hn : g.name ≠ "__typename") (hd : sc.schema.field? object g.name = none)
    (h : ObjectConforms sc object gs fields) : ObjectConforms sc object (g :: gs) fields := by
  have hfilter : (g :: gs).filter (sc.answers object) = gs.filter (sc.answers object) := by
    simp [Scope.answers, hn, hd]
  cases h with
  | intro hkeys htypename hdeclared =>
    rw [← hfilter] at hkeys htypename hdeclared
    exact .intro hkeys htypename hdeclared

theorem typename (hn : g.name = "__typename") (h : ObjectConforms sc object gs fields) :
    ObjectConforms sc object (g :: gs) ((g.key, .str object) :: fields) := by
  have hfilter : (g :: gs).filter (sc.answers object) = g :: gs.filter (sc.answers object) := by
    simp [Scope.answers, hn]
  cases h with
  | intro hkeys htypename hdeclared =>
    refine .intro ?_ ?_ ?_
    · rw [hfilter]
      simpa [Entries.keys, FieldGroups.keys] using hkeys
    · intro g' v hmem hn'
      rw [hfilter, List.map_cons, List.zip_cons_cons, List.mem_cons] at hmem
      rcases hmem with heq | hmem
      · exact (Prod.mk.inj heq).2
      · exact htypename g' v hmem hn'
    · intro g' v d hmem hn' hd
      rw [hfilter, List.map_cons, List.zip_cons_cons, List.mem_cons] at hmem
      rcases hmem with heq | hmem
      · obtain ⟨rfl, rfl⟩ := Prod.mk.inj heq
        exact absurd hn hn'
      · exact hdeclared g' v d hmem hn' hd

theorem declared {d : FieldDefinition} {v : Json} (hn : g.name ≠ "__typename")
    (hd : sc.schema.field? object g.name = some d) (hv : Conforms sc d.type g v)
    (h : ObjectConforms sc object gs fields) :
    ObjectConforms sc object (g :: gs) ((g.key, v) :: fields) := by
  have hfilter : (g :: gs).filter (sc.answers object) = g :: gs.filter (sc.answers object) := by
    simp [Scope.answers, hd]
  cases h with
  | intro hkeys htypename hdeclared =>
    refine .intro ?_ ?_ ?_
    · rw [hfilter]
      simpa [Entries.keys, FieldGroups.keys] using hkeys
    · intro g' v' hmem hn'
      rw [hfilter, List.map_cons, List.zip_cons_cons, List.mem_cons] at hmem
      rcases hmem with heq | hmem
      · obtain ⟨rfl, rfl⟩ := Prod.mk.inj heq
        exact absurd hn' hn
      · exact htypename g' v' hmem hn'
    · intro g' v' d' hmem hn' hd'
      rw [hfilter, List.map_cons, List.zip_cons_cons, List.mem_cons] at hmem
      rcases hmem with heq | hmem
      · obtain ⟨rfl, rfl⟩ := Prod.mk.inj heq
        rw [hd] at hd'
        exact Option.some.inj hd' ▸ hv
      · exact hdeclared g' v' d' hmem hn' hd'

end ObjectConforms

/-! ## Settled trees conform -/

/-- A resolved enum value is one of the names of the enum. -/
theorem EnumType.toResult_eq_ok {e : EnumType} {v w : Json} (h : e.toResult v = .ok w) :
    ∃ value ∈ e.values, w = .str value := by
  unfold toResult at h
  split at h
  · next value =>
    split at h
    · next hmem =>
      exact ⟨value, List.contains_iff_mem.1 hmem, (Except.ok.inj h).symm⟩
    · simp at h
  · simp at h

namespace Node

variable {env : Environment}

/-- A grown node has the nullability of its place. -/
theorem isNonNull_of_grown {t : TypeExpr} {p : Place} {n : Node} (h : env.Grown t p n) :
    n.place.isNonNull = p.isNonNull := by
  have huntyped := congrArg Place.isNonNull (Environment.place_of_grown h)
  exact huntyped

/-- Null conforms to whatever does not exclude it. -/
theorem conforms_null {sc : Scope} {t : TypeExpr} (g : FieldGroup) (ht : t.isNonNull = false) :
    Conforms sc t g .null := by
  cases t with
  | named name => exact .nullNamed name g
  | list t => exact .nullList t g
  | nonNull t => simp [TypeExpr.isNonNull] at ht

mutual

/-- A grown node that settles to a value conforms to its type. -/
theorem conforms_of_grown : ∀ {t : TypeExpr} {p : Place} {n : Node}, env.Grown t p n →
    ∀ {g : FieldGroup} {es : List ResponseError} {v : Json}, p.group? = some g →
      n.settle = .ok (es, .value v) → (t.isNonNull = true → v ≠ .null) →
      Conforms env.scope t g v
  | _, _, _, .nonNull h, _, _, _, hg, hs, hv =>
    .nonNull (hv rfl) (conforms_of_grown h hg hs fun _ => hv rfl)
  | t, _, _, .null _ _ _, g, _, _, _, hs, hv => by
    obtain ⟨_, rfl⟩ := settleNull_eq_value (Except.ok.inj hs)
    refine conforms_null g ?_
    cases ht : t.isNonNull
    · rfl
    · exact absurd rfl (hv ht)
  | _, _, _, @Environment.Grown.list _ t _ _ h, g, _, _, hg, hs, _ => by
    obtain ⟨⟨es', parts⟩, hr, hx⟩ := settle_list hs
    rcases settleParts_eq_value.1 (congrArg Prod.snd hx).symm with hparts | ⟨_, _, rfl⟩
    · obtain ⟨vs, rfl, rfl⟩ := Option.map_eq_some_iff.1 hparts
      exact .list (conforms_of_grownItems h hg hr)
    · exact .nullList t g
  | _, p, _, @Environment.Grown.scalar _ name _ _ _ w ht hw, g, _, _, _, hs, _ => by
    by_cases hnull : w = .null
    · subst hnull
      obtain ⟨_, rfl⟩ := settleNull_eq_value (Except.ok.inj hs)
      exact .nullNamed name g
    · rw [settle_leaf_of_ne_null p hnull] at hs
      simp only [Except.ok.injEq, Prod.mk.injEq, Settled.value.injEq] at hs
      exact hs.2 ▸ .scalar ht hw
  | _, p, _, @Environment.Grown.enum _ _ e _ _ w he hw, _, _, _, _, hs, _ => by
    obtain ⟨value, hvalue, rfl⟩ := e.toResult_eq_ok hw
    rw [settle_leaf_of_ne_null p (by simp)] at hs
    simp only [Except.ok.injEq, Prod.mk.injEq, Settled.value.injEq] at hs
    exact hs.2 ▸ .enum he hvalue
  | _, p, _, @Environment.Grown.object _ name o _ u _ ho h, g, _, _, hg, hs, _ => by
    obtain ⟨⟨es', parts⟩, hr, hx⟩ := settle_object hs
    rcases settleParts_eq_value.1 (congrArg Prod.snd hx).symm with hparts | ⟨_, _, rfl⟩
    · obtain ⟨fields, rfl, rfl⟩ := Option.map_eq_some_iff.1 hparts
      have hfields := objectConforms_of_grown h hr
      have hgroups : (env.subSelectionAt p o.name u).groups = env.scope.subGroups g o.name := by
        simp [Environment.subSelectionAt, hg]
      rw [hgroups] at hfields
      exact .object ho hfields
    · exact .nullNamed name g

/-- The values of grown items conform to the type of the items. -/
theorem conforms_of_grownItems : ∀ {t : TypeExpr} {p : Place} {i : Nat} {ns : List Node},
    env.GrownItems t p i ns → ∀ {g : FieldGroup} {es : List ResponseError} {vs : List Json},
      p.group? = some g → settleItems ns = .ok (es, some vs) →
      ∀ v ∈ vs, Conforms env.scope t g v
  | _, _, _, _, .nil _ _ _, _, _, _, _, hs => by
    simp only [settleItems, Except.ok.injEq, Prod.mk.injEq, Option.some.injEq] at hs
    simp [← hs.2]
  | t, _, _, _, .cons h hrest, g, _, _, hg, hs => by
    obtain ⟨⟨es₁, c⟩, ⟨es₂, parts⟩, hc, hr, hx⟩ := settleItems_cons hs
    obtain ⟨v, vs, rfl, rfl, rfl⟩ := joinPart_eq_some.1 (congrArg Prod.snd hx).symm
    have hhead : Conforms env.scope t g v := conforms_of_grown h hg hc fun ht =>
      ne_null_of_settle ((isNonNull_of_grown h).trans ht) hc
    have htail := conforms_of_grownItems hrest hg hr
    intro w hw
    rcases List.mem_cons.1 hw with rfl | hw
    · exact hhead
    · exact htail w hw

/-- Grown children settle to a conforming object. -/
theorem objectConforms_of_grown : ∀ {p : Place} {object : String} {gs : FieldGroups}
    {children : List (String × Node)}, env.GrownFields p object gs children →
    ∀ {es : List ResponseError} {fields : List (String × Json)},
      settleChildren children = .ok (es, some fields) →
      ObjectConforms env.scope object gs fields
  | _, _, _, _, .nil _ o, _, _, hs => by
    simp only [settleChildren, Except.ok.injEq, Prod.mk.injEq, Option.some.injEq] at hs
    exact hs.2 ▸ .nil env.scope o
  | _, _, _, _, .typename hn hrest, _, _, hs => by
    obtain ⟨⟨es₁, c⟩, ⟨es₂, parts⟩, hc, hr, hx⟩ := settleChildren_cons hs
    obtain ⟨v, fields, rfl, rfl, rfl⟩ := joinPart_eq_some.1 (congrArg Prod.snd hx).symm
    rw [settle_leaf_of_ne_null _ (by simp)] at hc
    simp only [Except.ok.injEq, Prod.mk.injEq, Settled.value.injEq] at hc
    obtain rfl := hc.2
    exact .typename hn (objectConforms_of_grown hrest hr)
  | _, _, _, _, .undeclared hn hd hrest, _, _, hs =>
    .skip hn hd (objectConforms_of_grown hrest hs)
  | _, _, _, _, .declared hn hd h hrest, _, _, hs => by
    obtain ⟨⟨es₁, c⟩, ⟨es₂, parts⟩, hc, hr, hx⟩ := settleChildren_cons hs
    obtain ⟨v, fields, rfl, rfl, rfl⟩ := joinPart_eq_some.1 (congrArg Prod.snd hx).symm
    have hv := conforms_of_grown h rfl hc fun ht =>
      ne_null_of_settle ((isNonNull_of_grown h).trans ht) hc
    exact .declared hn hd hv (objectConforms_of_grown hrest hr)

end

end Node

/-! ## Responses -/

/-- The data that conforms to an operation: null, or an object of the root type for the
groups collected for it. -/
def Plan.Conforming (p : Plan) (s : Schema) (v : Json) : Prop :=
  v = .null ∨ ∃ fields, v = .obj fields ∧
    ObjectConforms (.ofDocument s p.document p.vars) p.root
      ((Scope.ofDocument s p.document p.vars).groups p.root p.operation.selections) fields

theorem Plan.conforming_of_runIn {p : Plan} {mode : Mode} {s : Schema} {source : Json}
    {data : RequestData} {v : Json} {errors : List ResponseError}
    (h : (p.runIn mode s source data).result = .ok ⟨some v, errors⟩) : p.Conforming s v := by
  obtain ⟨es, n, w, nulls, hrun, hdata, ha⟩ := Run.ofJob_eq_ok h
  obtain ⟨rfl, rfl⟩ : v = w ∧ errors = _ := by simpa using ha
  obtain ⟨children, rfl, hchildren⟩ := Environment.grown_objectJob _ _ _ rfl (Job.ends_of_run hrun)
  unfold Node.toData at hdata
  cases hs : (Node.object (p.subSelection s source).place children).settle with
  | error f => simp [hs, Except.map] at hdata
  | ok x =>
    obtain ⟨es', c⟩ := x
    rw [hs] at hdata
    cases c with
    | collapsed => exact .inl (Prod.mk.inj (Except.ok.inj hdata)).1.symm
    | value u =>
      obtain rfl : u = v := (Prod.mk.inj (Except.ok.inj hdata)).1
      obtain ⟨⟨es'', parts⟩, hr, hx⟩ := Node.settle_object hs
      rcases Node.settleParts_eq_value.1 (congrArg Prod.snd hx).symm with hparts | ⟨_, _, hu⟩
      · obtain ⟨fields, rfl, rfl⟩ := Option.map_eq_some_iff.1 hparts
        exact .inr ⟨fields, rfl, Node.objectConforms_of_grown hchildren hr⟩
      · exact .inl hu

/-- The data of every response conforms to the operation: whatever the schema, the
document, the variables, the root value and the resolvers. -/
theorem Request.data_conforms {s : Schema} {r : Request} {v : Json}
    {errors : List ResponseError} (h : (r.run s).result = .ok ⟨some v, errors⟩) :
    ∃ p, r.plan s = .ok p ∧ p.Conforming s v := by
  obtain ⟨p, hp, hrun⟩ := runIn_eq_ok h
  exact ⟨p, hp, p.conforming_of_runIn hrun⟩

/-- Crew members and ships under one interface; a rank is an enum. -/
def demoSchema : Schema :=
  let field (name : String) (type : TypeExpr) : FieldDefinition := ⟨name, .empty, type, none⟩
  let shared := [field "id" (.required "ID"), field "name" (.named "String")]
  let things := field "things" (.list (.named "Thing"))
  (((((Schema.ofQueryType "Query").register
    (.enum ⟨"Rank", ["CAPTAIN", "MATE"]⟩)).register
    (.interface ⟨"Thing", .ofList shared, none⟩)).register
    (.object ⟨"Sailor", .ofList (shared ++ [field "rank" (.named "Rank")]), ["Thing"]⟩)).register
    (.object ⟨"Ship", .ofList shared, ["Thing"]⟩)).register
    (.object ⟨"Query", .ofList [things], []⟩)

/-- Two things by their interface; the second has no `id` and is lost to it. -/
def demoRequest : Request :=
  { Request.ofText "{ __typename all: things { id ... on Sailor { rank } } }" with
    rootValue := .obj [("things", .arr [
      .obj [("__typename", .str "Sailor"), ("id", .str "s1"), ("rank", .str "MATE")],
      .obj [("__typename", .str "Ship"), ("id", .null)]])] }

theorem Request.data_conforms_demo :
    ∃ v errors, (demoRequest.run demoSchema).result = .ok ⟨some v, errors⟩ ∧
      v = .obj [("__typename", .str "Query"),
        ("all", .arr [.obj [("id", .str "s1"), ("rank", .str "MATE")], .null])] ∧
      ∃ p, demoRequest.plan demoSchema = .ok p ∧ p.Conforming demoSchema v := by
  let v : Json := .obj [("__typename", .str "Query"),
    ("all", .arr [.obj [("id", .str "s1"), ("rank", .str "MATE")], .null])]
  let lost : ResponseError :=
    ⟨"Cannot return null for non-nullable field \"Ship.id\".", [⟨1, 28⟩],
      some [.key "all", .index 1, .key "id"], none⟩
  have h : (demoRequest.run demoSchema).result = .ok ⟨some v, [lost]⟩ := by decide +kernel
  exact ⟨v, [lost], h, rfl, Request.data_conforms h⟩

end GraphQL
