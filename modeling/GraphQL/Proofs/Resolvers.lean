/-
GraphQL.Proofs.Resolvers — schemas that differ in their resolvers only.

`Schema.withResolvers ρ s` is the schema `s` with the resolvers of the table `ρ`
on its fields; every schema is one of this form (`Schema.withResolvers_resolvers`).
Resolvers are called when a field is fetched and looked at nowhere else. Everything
else that an execution does therefore comes out the same for all tables:

* lookups of types and fields, possible and concrete types;
* the coercion of variables and arguments (`coerceVariableValues_withResolvers`,
  `coerceArgumentValues_withResolvers`);
* the collection of fields (`Scope.groups_withResolvers`);
* the completion of values (`Environment.completeValue_withResolvers`);
* validation and the plan of a request (`Validation.findings_withResolvers`,
  `Request.plan_withResolvers`).
-/
import GraphQL.Proofs.ResultTree

namespace GraphQL

/-- The resolver of each field of each type; none for the property of the parent. -/
abbrev Resolvers := String → String → Option Resolver

/-! ## Registries -/

namespace Registry

variable {α : Type} [Named α]

/-- Change the items of a registry, but not their names. -/
def map (f : α → α) (hf : ∀ x, Named.name (f x) = Named.name x) (r : Registry α) : Registry α :=
  ⟨r.items.map f, by
    have hnames : Named.name ∘ f = (Named.name : α → String) := funext hf
    rw [List.map_map, hnames]
    exact r.nodup⟩

variable {f : α → α} (hf : ∀ x, Named.name (f x) = Named.name x) (r : Registry α)

@[simp] theorem items_map : (r.map f hf).items = r.items.map f := rfl

@[simp] theorem get?_map (n : String) : (r.map f hf).get? n = (r.get? n).map f := by
  have hnames : (fun x => Named.name x == n) ∘ f = fun x => Named.name x == n := by
    funext x
    exact congrArg (· == n) (hf x)
  rw [get?, items_map, List.find?_map, hnames]
  rfl

theorem map_eq_self (h : ∀ x ∈ r.items, f x = x) : r.map f hf = r := by
  obtain ⟨items, hnodup⟩ := r
  simp only [map, mk.injEq]
  exact (List.map_congr_left h).trans (List.map_id items)

end Registry

/-! ## Schemas -/

/-- The field with another resolver. -/
def FieldDefinition.withResolver (r? : Option Resolver) (d : FieldDefinition) :
    FieldDefinition :=
  { d with resolver? := r? }

theorem FieldDefinition.name_withResolver (r? : Option Resolver) (d : FieldDefinition) :
    Named.name (d.withResolver r?) = Named.name d := rfl

section

variable (ρ : Resolvers)

/-- The fields of a type with the resolvers of a table. -/
def withResolversOf (type : String) (fields : Registry FieldDefinition) :
    Registry FieldDefinition :=
  fields.map (fun d => d.withResolver (ρ type d.name)) fun d => d.name_withResolver _

/-- The object type with the resolvers of a table. -/
def ObjectType.withResolvers (o : ObjectType) : ObjectType :=
  { o with fields := withResolversOf ρ o.name o.fields }

/-- The type with the resolvers of a table. -/
def TypeDefinition.withResolvers : TypeDefinition → TypeDefinition
  | .object o => .object (o.withResolvers ρ)
  | .interface i => .interface { i with fields := withResolversOf ρ i.name i.fields }
  | t => t

theorem TypeDefinition.name_withResolvers (t : TypeDefinition) :
    Named.name (t.withResolvers ρ) = Named.name t := by
  cases t <;> rfl

/-- The schema with the resolvers of a table. -/
def Schema.withResolvers (s : Schema) : Schema :=
  { s with types := s.types.map (·.withResolvers ρ) (TypeDefinition.name_withResolvers ρ) }

end

namespace Schema

/-- The resolvers of a schema. -/
def resolvers (s : Schema) : Resolvers := fun type name =>
  (s.field? type name).bind FieldDefinition.resolver?

theorem withResolversOf_eq_self {ρ : Resolvers} {type : String}
    {fields : Registry FieldDefinition}
    (h : ∀ name, ρ type name = (fields.get? name).bind FieldDefinition.resolver?) :
    withResolversOf ρ type fields = fields := by
  refine Registry.map_eq_self _ _ fun d hd => ?_
  have hget : fields.get? d.name = some d := Registry.get?_of_mem hd
  rw [h, hget]
  rfl

/-- Every schema has the resolvers of a table. -/
theorem withResolvers_resolvers (s : Schema) : s.withResolvers s.resolvers = s := by
  have htypes : ∀ t ∈ s.types.items, t.withResolvers s.resolvers = t := by
    intro t ht
    have hget : s.type? t.name = some t := Registry.get?_of_mem ht
    have hfields : ∀ fields, t.fields? = some fields →
        withResolversOf s.resolvers t.name fields = fields := by
      intro fields hf
      refine withResolversOf_eq_self fun name => ?_
      rw [resolvers, field?, hget, Option.bind_some, hf, Option.bind_some]
    cases t with
    | object o =>
      have ho := hfields o.fields rfl
      simp only [TypeDefinition.name] at ho
      simp only [TypeDefinition.withResolvers, ObjectType.withResolvers, ho]
    | interface i =>
      have hi := hfields i.fields rfl
      simp only [TypeDefinition.name] at hi
      simp only [TypeDefinition.withResolvers, hi]
    | _ => rfl
  obtain ⟨q, m, u, types⟩ := s
  simp only [withResolvers, mk.injEq, true_and]
  exact Registry.map_eq_self _ _ htypes

variable (s : Schema) (ρ : Resolvers)

/-! ## Lookups -/

@[simp] theorem type?_withResolvers (n : String) :
    (s.withResolvers ρ).type? n = (s.type? n).map (·.withResolvers ρ) :=
  Registry.get?_map (TypeDefinition.name_withResolvers ρ) s.types n

@[simp] theorem object?_withResolvers (n : String) :
    (s.withResolvers ρ).object? n = (s.object? n).map (·.withResolvers ρ) := by
  rw [object?, object?, type?_withResolvers]
  cases s.type? n with
  | none => rfl
  | some t => cases t <;> rfl

@[simp] theorem field?_withResolvers (type name : String) :
    (s.withResolvers ρ).field? type name =
      (s.field? type name).map (·.withResolver (ρ type name)) := by
  have hof : ∀ fields : Registry FieldDefinition, (withResolversOf ρ type fields).get? name =
      (fields.get? name).map (·.withResolver (ρ type name)) := by
    intro fields
    rw [withResolversOf, Registry.get?_map]
    cases hd : fields.get? name with
    | none => rfl
    | some d =>
      have hname : d.name = name := (Registry.mem_of_get? hd).2
      simp only [Option.map_some, hname]
  rw [field?, field?, type?_withResolvers]
  cases ht : s.type? type with
  | none => rfl
  | some t =>
    have hname : t.name = type := name_of_type? ht
    cases t with
    | object o =>
      obtain rfl : o.name = type := hname
      exact hof o.fields
    | interface i =>
      obtain rfl : i.name = type := hname
      exact hof i.fields
    | _ => rfl

@[simp] theorem implementations_withResolvers (n : String) :
    (s.withResolvers ρ).implementations n = (s.implementations n).map (·.withResolvers ρ) := by
  have hobjects : ∀ types : List TypeDefinition,
      (types.map (·.withResolvers ρ)).filterMap TypeDefinition.object? =
        (types.filterMap TypeDefinition.object?).map (·.withResolvers ρ) := by
    intro types
    rw [List.filterMap_map, List.map_filterMap]
    refine List.filterMap_congr fun t _ => ?_
    cases t <;> rfl
  rw [implementations, implementations, withResolvers, Registry.items_map, hobjects,
    List.filter_map]
  rfl

@[simp] theorem possibleTypes_withResolvers (n : String) :
    (s.withResolvers ρ).possibleTypes n = (s.possibleTypes n).map (·.withResolvers ρ) := by
  rw [possibleTypes, possibleTypes, type?_withResolvers]
  cases s.type? n with
  | none => rfl
  | some t =>
    cases t with
    | interface i => exact implementations_withResolvers s ρ i.name
    | union u =>
      simp only [Option.map_some, TypeDefinition.withResolvers, List.map_filterMap]
      exact List.filterMap_congr fun m _ => object?_withResolvers s ρ m
    | _ => rfl

@[simp] theorem covers_withResolvers (condition object : String) :
    (s.withResolvers ρ).covers condition object = s.covers condition object := by
  rw [covers, covers, possibleTypes_withResolvers, List.any_map]
  rfl

@[simp] theorem concreteType?_withResolvers (n : String) (v : Json) :
    (s.withResolvers ρ).concreteType? n v = (s.concreteType? n v).map (·.withResolvers ρ) := by
  have hnamed : ∀ typeName? : Option String,
      (typeName?.bind fun typeName =>
        if (s.withResolvers ρ).covers n typeName then (s.withResolvers ρ).object? typeName
        else none) =
      (typeName?.bind fun typeName =>
        if s.covers n typeName then s.object? typeName else none).map (·.withResolvers ρ) := by
    intro typeName?
    cases typeName? with
    | none => rfl
    | some typeName =>
      rw [Option.bind_some, Option.bind_some, covers_withResolvers, object?_withResolvers]
      split <;> rfl
  simp only [concreteType?, type?_withResolvers, Option.bind_eq_bind]
  cases s.type? n with
  | none => rfl
  | some t =>
    cases t with
    | interface i =>
      simp only [Option.map_some, TypeDefinition.withResolvers, Option.bind_some]
      cases i.typeResolver? <;> exact hnamed _
    | union u =>
      simp only [Option.map_some, TypeDefinition.withResolvers, Option.bind_some]
      cases u.typeResolver? <;> exact hnamed _
    | _ => rfl

end Schema

section

variable (s : Schema) (ρ : Resolvers)

/-! ## Coercion -/

/-- A coerced value at a named type depends on leaf and input types only. -/
theorem Input.atType_withResolvers (v : Json) (parts : Input.Parts) :
    Input.atType (s.withResolvers ρ) v parts = Input.atType s v parts := by
  have hname : ∀ name, Input.atName (s.withResolvers ρ) v parts name =
      Input.atName s v parts name := by
    intro name
    rw [Input.atName, Input.atName, Schema.type?_withResolvers]
    cases s.type? name with
    | none => rfl
    | some t => cases t <;> rfl
  funext t
  induction t with
  | named name => rw [Input.atType, Input.atType, hname]
  | list item ih => cases parts <;> simp only [Input.atType, ih]
  | nonNull t ih => rw [Input.atType, Input.atType, ih]

mutual

theorem coerceInput_withResolvers : ∀ v : Json,
    coerceInput (s.withResolvers ρ) v = coerceInput s v
  | .arr items => by
    rw [coerceInput, coerceInput, Input.atType_withResolvers, coerceItems_withResolvers items]
  | .obj fields => by
    rw [coerceInput, coerceInput, Input.atType_withResolvers, coerceFields_withResolvers fields]
  | .null => Input.atType_withResolvers s ρ .null .whole
  | .bool b => Input.atType_withResolvers s ρ (.bool b) .whole
  | .num n => Input.atType_withResolvers s ρ (.num n) .whole
  | .str t => Input.atType_withResolvers s ρ (.str t) .whole

theorem coerceItems_withResolvers : ∀ vs : List Json,
    coerceItems (s.withResolvers ρ) vs = coerceItems s vs
  | [] => rfl
  | v :: rest => by
    rw [coerceItems, coerceItems, coerceInput_withResolvers v, coerceItems_withResolvers rest]

theorem coerceFields_withResolvers : ∀ fields : List (String × Json),
    coerceFields (s.withResolvers ρ) fields = coerceFields s fields
  | [] => rfl
  | (k, v) :: rest => by
    rw [coerceFields, coerceFields, coerceInput_withResolvers v, coerceFields_withResolvers rest]

end

theorem Literal.atType_withResolvers (l : Literal) (parts : Literal.Parts) :
    Literal.atType (s.withResolvers ρ) l parts = Literal.atType s l parts := by
  have hname : ∀ name, Literal.atName (s.withResolvers ρ) l parts name =
      Literal.atName s l parts name := by
    intro name
    rw [Literal.atName, Literal.atName, Schema.type?_withResolvers]
    cases s.type? name with
    | none => rfl
    | some t => cases t <;> rfl
  funext t
  induction t with
  | named name => rw [Literal.atType, Literal.atType, hname]
  | list item ih => cases parts <;> simp only [Literal.atType, ih]
  | nonNull t ih => rw [Literal.atType, Literal.atType, ih]

mutual

theorem coerceLiteral_withResolvers (vars : VariableValues) : ∀ l : Literal,
    coerceLiteral (s.withResolvers ρ) vars l = coerceLiteral s vars l
  | .var name => rfl
  | .list items => by
    rw [coerceLiteral, coerceLiteral, Literal.atType_withResolvers,
      coerceLiteralItems_withResolvers vars items]
  | .object fields => by
    rw [coerceLiteral, coerceLiteral, Literal.atType_withResolvers,
      coerceLiteralFields_withResolvers vars fields]
  | .null => Literal.atType_withResolvers s ρ .null .whole
  | .int i => Literal.atType_withResolvers s ρ (.int i) .whole
  | .float x => Literal.atType_withResolvers s ρ (.float x) .whole
  | .string t => Literal.atType_withResolvers s ρ (.string t) .whole
  | .boolean b => Literal.atType_withResolvers s ρ (.boolean b) .whole
  | .enum n => Literal.atType_withResolvers s ρ (.enum n) .whole

theorem coerceLiteralItems_withResolvers (vars : VariableValues) : ∀ ls : List Literal,
    coerceLiteralItems (s.withResolvers ρ) vars ls = coerceLiteralItems s vars ls
  | [] => rfl
  | l :: rest => by
    rw [coerceLiteralItems, coerceLiteralItems, coerceLiteral_withResolvers vars l,
      coerceLiteralItems_withResolvers vars rest]

theorem coerceLiteralFields_withResolvers (vars : VariableValues) :
    ∀ fields : List (String × Literal),
      coerceLiteralFields (s.withResolvers ρ) vars fields = coerceLiteralFields s vars fields
  | [] => rfl
  | (k, l) :: rest => by
    rw [coerceLiteralFields, coerceLiteralFields, coerceLiteral_withResolvers vars l,
      coerceLiteralFields_withResolvers vars rest]

end

theorem coerceArgumentValues_withResolvers (vars : VariableValues) (ds : List InputValue)
    (written : List (String × Literal)) :
    coerceArgumentValues (s.withResolvers ρ) vars ds written =
      coerceArgumentValues s vars ds written := by
  simp only [coerceArgumentValues, coerceLiteral_withResolvers]

theorem coerceVariableValues_withResolvers (ds : List VariableDefinition)
    (raw : List (String × Json)) :
    coerceVariableValues (s.withResolvers ρ) ds raw = coerceVariableValues s ds raw := by
  have hvalue : ∀ d : VariableDefinition, d.value (s.withResolvers ρ) raw = d.value s raw := by
    intro d
    simp only [VariableDefinition.value, coerceInput_withResolvers, coerceLiteral_withResolvers]
  simp only [coerceVariableValues, variableErrors, variableBindings, hvalue]

end

/-! ## Collection -/

namespace Scope

/-- The scope with the resolvers of a table. -/
def withResolvers (ρ : Resolvers) (sc : Scope) : Scope :=
  { sc with schema := sc.schema.withResolvers ρ }

variable (sc : Scope) (ρ : Resolvers)

theorem includes_withResolvers (ds : List Directive) :
    (sc.withResolvers ρ).includes ds = sc.includes ds := by
  have hif : ∀ name, ifArgument? (sc.schema.withResolvers ρ) sc.vars name ds =
      ifArgument? sc.schema sc.vars name ds := by
    intro name
    simp only [ifArgument?, coerceLiteral_withResolvers]
  simp only [includes, withResolvers, isIncluded, hif]

variable {τ : Type} (restrict : String → τ → Option τ)

theorem occurrencesUnder_withResolvers :
    occurrencesUnder (sc.withResolvers ρ) restrict = occurrencesUnder sc restrict := by
  funext condition? directives body t
  simp only [occurrencesUnder, includes_withResolvers]

theorem selectionOccurrences_withResolvers (enter : String → τ → List (Occurrence τ))
    (set : SelectionSet) :
    set.occurrences (sc.withResolvers ρ) restrict enter = set.occurrences sc restrict enter := by
  induction set with
  | nil => rfl
  | field node sub rest _ ih =>
    funext t
    rw [SelectionSet.occurrences, SelectionSet.occurrences, includes_withResolvers, ih]
  | inline head sub rest ihSub ih =>
    funext t
    rw [SelectionSet.occurrences, SelectionSet.occurrences, occurrencesUnder_withResolvers, ihSub,
      ih]
  | spread sp rest ih =>
    funext t
    rw [SelectionSet.occurrences, SelectionSet.occurrences, includes_withResolvers, ih]

theorem enterFragment_withResolvers (n : Nat) (available : List Fragment) :
    (sc.withResolvers ρ).enterFragment restrict n available =
      sc.enterFragment restrict n available := by
  induction n generalizing available with
  | zero => rfl
  | succ n ih =>
    funext name t
    simp only [enterFragment, ih, selectionOccurrences_withResolvers,
      occurrencesUnder_withResolvers]

theorem occurrences_withResolvers (set : SelectionSet) (t : τ) :
    (sc.withResolvers ρ).occurrences restrict set t = sc.occurrences restrict set t := by
  rw [occurrences, occurrences, selectionOccurrences_withResolvers, enterFragment_withResolvers]
  rfl

theorem fieldsOn_withResolvers (object : String) (sets : List SelectionSet) :
    (sc.withResolvers ρ).fieldsOn object sets = sc.fieldsOn object sets := by
  have hrestrict : (sc.withResolvers ρ).restrictObject = sc.restrictObject := by
    funext condition object
    rw [restrictObject, restrictObject]
    exact if_congr (by rw [withResolvers, Schema.covers_withResolvers]) rfl rfl
  simp only [fieldsOn, hrestrict, occurrences_withResolvers]

theorem groups_withResolvers (object : String) (set : SelectionSet) :
    (sc.withResolvers ρ).groups object set = sc.groups object set := by
  rw [groups, groups, fieldsOn_withResolvers]

theorem subGroups_withResolvers (g : FieldGroup) (object : String) :
    (sc.withResolvers ρ).subGroups g object = sc.subGroups g object := by
  rw [subGroups, subGroups, fieldsOn_withResolvers]

end Scope

/-! ## Completion -/

namespace Environment

/-- The environment with the resolvers of a table. -/
def withResolvers (ρ : Resolvers) (env : Environment) : Environment :=
  { env with scope := env.scope.withResolvers ρ }

variable (env : Environment) (ρ : Resolvers)

theorem pendingObject_withResolvers (p : Place) (object : String) (v : Json) :
    (env.withResolvers ρ).pendingObject p object v = env.pendingObject p object v := by
  simp only [pendingObject, withResolvers, Scope.subGroups_withResolvers]

theorem completeNamed_withResolvers (p : Place) (name : String) (v : Json) :
    (env.withResolvers ρ).completeNamed p name v = env.completeNamed p name v := by
  have htype : (env.withResolvers ρ).schema.type? name =
      (env.schema.type? name).map (·.withResolvers ρ) := Schema.type?_withResolvers _ ρ name
  have hconcrete : (env.withResolvers ρ).schema.concreteType? name v =
      (env.schema.concreteType? name v).map (·.withResolvers ρ) :=
    Schema.concreteType?_withResolvers _ ρ name v
  have hpending := pendingObject_withResolvers env ρ p
  simp only [completeNamed, htype, hconcrete, hpending]
  cases env.schema.type? name with
  | none => rfl
  | some t =>
    cases t with
    | interface | union => cases env.schema.concreteType? name v <;> rfl
    | _ => rfl

theorem completeValue_withResolvers (t : TypeExpr) (p : Place) (v : Json) (reported : Bool) :
    (env.withResolvers ρ).completeValue t p v reported = env.completeValue t p v reported := by
  induction t generalizing p v reported with
  | nonNull t ih =>
    rw [completeValue, completeValue]
    exact ih p v reported
  | list t ih => simp only [completeValue, ih]
  | named name => simp only [completeValue, completeNamed_withResolvers]

end Environment

/-! ## Validation and plans -/

namespace Validation

variable (s : Schema) (ρ : Resolvers)

theorem conditionFindings_withResolvers (name : String) (p : Position) :
    conditionFindings (s.withResolvers ρ) name p = conditionFindings s name p := by
  rw [conditionFindings, conditionFindings, Schema.type?_withResolvers]
  cases s.type? name with
  | none => rfl
  | some t => cases t <;> rfl

theorem conditionType?_withResolvers (name : String) :
    conditionType? (s.withResolvers ρ) name = conditionType? s name := by
  rw [conditionType?, conditionType?, Schema.type?_withResolvers]
  cases s.type? name with
  | none => rfl
  | some t => cases t <;> rfl

theorem fieldFindings_withResolvers (parent : String) (f : FieldNode) (hasSelection : Bool)
    (below : String → List Finding) :
    fieldFindings (s.withResolvers ρ) parent f hasSelection below =
      fieldFindings s parent f hasSelection below := by
  rw [fieldFindings, fieldFindings, Schema.field?_withResolvers]
  refine if_congr Iff.rfl rfl ?_
  cases s.field? parent f.name with
  | none => rfl
  | some d =>
    have htype := Schema.type?_withResolvers s ρ d.type.baseName
    simp only [Option.map_some, FieldDefinition.withResolver, argumentFindings, htype]
    cases s.type? d.type.baseName with
    | none => rfl
    | some t => cases t <;> rfl

theorem selectionFindings_withResolvers (known : String → Bool) (set : SelectionSet) :
    selectionFindings (s.withResolvers ρ) known set = selectionFindings s known set := by
  induction set with
  | nil => rfl
  | field node sub rest ihSub ih =>
    funext parent?
    simp only [selectionFindings, ihSub, ih, fieldFindings_withResolvers]
  | inline head sub rest ihSub ih =>
    funext parent?
    simp only [selectionFindings, ihSub, ih, conditionFindings_withResolvers,
      conditionType?_withResolvers]
  | spread sp rest ih =>
    funext parent?
    simp only [selectionFindings, ih]

/-- The checks of a document look at no resolver. -/
theorem findings_withResolvers (d : Document) :
    findings (s.withResolvers ρ) d = findings s d := by
  have hdefinition : definitionFindings (s.withResolvers ρ) d.fragments =
      definitionFindings s d.fragments := by
    funext definition
    cases definition with
    | operation o =>
      simp only [definitionFindings, selectionFindings_withResolvers]
      cases o.kind <;> rfl
    | fragment f =>
      simp only [definitionFindings, selectionFindings_withResolvers,
        conditionFindings_withResolvers, conditionType?_withResolvers]
  rw [findings, findings, hdefinition]

end Validation

namespace Request

theorem target_withResolvers (s : Schema) (ρ : Resolvers) (r : Request) (d : Document) :
    r.target (s.withResolvers ρ) d = r.target s d := by
  have hroot : ∀ o : Operation, o.rootTypeName (s.withResolvers ρ) = o.rootTypeName s := by
    intro o
    cases h : o.kind <;> simp only [Operation.rootTypeName, h] <;> rfl
  simp only [target, hroot, Schema.object?_withResolvers]
  cases d.operation r.operation? with
  | error e => rfl
  | ok o =>
    cases hname : o.rootTypeName s with
    | error e => simp only [hname]
    | ok root =>
      simp only [hname]
      cases s.object? root <;> rfl

/-- Two tables lead to the same plan if the validator gives both the same verdict. -/
theorem plan_withResolvers {s : Schema} {ρ₁ ρ₂ : Resolvers} {r : Request}
    (hv : ∀ d, r.validator (s.withResolvers ρ₁) d = r.validator (s.withResolvers ρ₂) d) :
    r.plan (s.withResolvers ρ₁) = r.plan (s.withResolvers ρ₂) := by
  have hdocument : r.document (s.withResolvers ρ₁) = r.document (s.withResolvers ρ₂) := by
    simp only [document, hv]
  simp only [plan, hdocument, target_withResolvers, coerceVariableValues_withResolvers]

end Request

/-- The sub-selection of an operation does not depend on resolvers. -/
theorem Plan.subSelection_withResolvers (p : Plan) (s : Schema) (ρ : Resolvers)
    (source : Json) : p.subSelection (s.withResolvers ρ) source = p.subSelection s source := by
  have hgroups : (Scope.ofDocument (s.withResolvers ρ) p.document p.vars).groups =
      (Scope.ofDocument s p.document p.vars).groups := by
    funext object set
    exact Scope.groups_withResolvers (.ofDocument s p.document p.vars) ρ object set
  rw [subSelection, subSelection, hgroups]

end GraphQL
