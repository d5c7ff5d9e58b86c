/-
GraphQL.Schema.Basic — type systems.

A schema names its root types and registers types by name, the five built-in
scalars first. Types refer to each other by name only, so a schema may be cyclic
and may mention types that are not registered.

Object and interface types have fields, unions have members; these three are
composite. `Schema.possibleTypes` lists the object types that a value of a
composite type can have at run time.
-/
import GraphQL.Coercion.Scalar
import GraphQL.Registry
import GraphQL.Resolver

namespace GraphQL

/-! ## Parts of types -/

/-- A declared argument or input field. -/
structure InputValue where
  name : String
  type : TypeExpr
  default? : Option Json
deriving DecidableEq, Inhabited

instance : Named InputValue := ⟨InputValue.name⟩

/-- A field of an object or interface type. -/
structure FieldDefinition where
  name : String
  arguments : Registry InputValue
  type : TypeExpr
  resolver? : Option Resolver

instance : Named FieldDefinition := ⟨FieldDefinition.name⟩

/-- Picks the object type of a value of an abstract type. -/
abbrev TypeResolver := Json → Option String

/-! ## Types -/

/-- An object type and the interfaces it implements. -/
structure ObjectType where
  name : String
  fields : Registry FieldDefinition
  interfaces : List String

/-- An interface type. -/
structure InterfaceType where
  name : String
  fields : Registry FieldDefinition
  typeResolver? : Option TypeResolver

/-- A union of object types. -/
structure UnionType where
  name : String
  members : List String
  typeResolver? : Option TypeResolver

/-- An enum type. -/
structure EnumType where
  name : String
  values : List String
deriving DecidableEq

/-- An input object type. -/
structure InputObjectType where
  name : String
  fields : Registry InputValue

/-- A scalar type. -/
structure ScalarType where
  name : String
  coercion : ScalarCoercion

/-- A type of a schema. -/
inductive TypeDefinition where
  | scalar (type : ScalarType)
  | object (type : ObjectType)
  | interface (type : InterfaceType)
  | union (type : UnionType)
  | enum (type : EnumType)
  | inputObject (type : InputObjectType)

namespace EnumType

/-- Whether a name is a value of the enum. -/
def contains (e : EnumType) (name : String) : Bool := e.values.contains name

/-- A resolved value of the enum: one of its names. -/
def toResult (e : EnumType) (v : Json) : Except Misfit Json :=
  match v with
  | .str s => if e.contains s then .ok v else .error (.notInEnum e.name v.text)
  | _ => .error (.notInEnum e.name v.text)

end EnumType

namespace TypeDefinition

/-- The name of a type. -/
def name : TypeDefinition → String
  | .scalar t => t.name
  | .object t => t.name
  | .interface t => t.name
  | .union t => t.name
  | .enum t => t.name
  | .inputObject t => t.name

instance : Named TypeDefinition := ⟨name⟩

/-- Whether values of the type have fields to select. -/
def isComposite : TypeDefinition → Bool
  | .object _ | .interface _ | .union _ => true
  | _ => false

/-- Whether values of the type have one of several object types. -/
def isAbstract : TypeDefinition → Bool
  | .interface _ | .union _ => true
  | _ => false

/-- Whether the type is a scalar or an enum. -/
def isLeaf : TypeDefinition → Bool
  | .scalar _ | .enum _ => true
  | _ => false

/-- The declared fields of an object or interface type. -/
def fields? : TypeDefinition → Option (Registry FieldDefinition)
  | .object t => some t.fields
  | .interface t => some t.fields
  | _ => none

/-- The object type itself. -/
def object? : TypeDefinition → Option ObjectType
  | .object t => some t
  | _ => none

end TypeDefinition

/-! ## Schemas -/

/-- A type system with its root types. -/
structure Schema where
  queryType : String
  mutationType? : Option String
  subscriptionType? : Option String
  types : Registry TypeDefinition

namespace Schema

/-- The scalars of every schema. -/
def builtinScalars : List ScalarType :=
  [⟨"Int", .int⟩, ⟨"Float", .float⟩, ⟨"String", .string⟩, ⟨"Boolean", .boolean⟩, ⟨"ID", .id⟩]

/-- The schema with the built-in scalars and a query type. -/
def ofQueryType (queryType : String) : Schema :=
  { queryType
    mutationType? := none
    subscriptionType? := none
    types := Registry.ofList (builtinScalars.map .scalar) }

/-- Register a type; one of the same name is replaced in place. -/
def register (s : Schema) (t : TypeDefinition) : Schema := { s with types := s.types.insert t }

/-- Name the mutation type. -/
def withMutation (s : Schema) (name : String) : Schema := { s with mutationType? := some name }

/-- Name the subscription type. -/
def withSubscription (s : Schema) (name : String) : Schema :=
  { s with subscriptionType? := some name }

/-- The type of a name. -/
def type? (s : Schema) (name : String) : Option TypeDefinition := s.types.get? name

/-- The object type of a name. -/
def object? (s : Schema) (name : String) : Option ObjectType :=
  (s.type? name).bind TypeDefinition.object?

/-- A field of an object or interface type. -/
def field? (s : Schema) (typeName fieldName : String) : Option FieldDefinition :=
  ((s.type? typeName).bind TypeDefinition.fields?).bind (·.get? fieldName)

/-- The object types that implement an interface, in registration order. -/
def implementations (s : Schema) (interface : String) : List ObjectType :=
  (s.types.items.filterMap TypeDefinition.object?).filter fun o => o.interfaces.contains interface

/-- The object types that a value of a type can have at run time: the
implementations of an interface in registration order, the registered members of
a union in the order of the union. -/
def possibleTypes (s : Schema) (name : String) : List ObjectType :=
  match s.type? name with
  | some (.object o) => [o]
  | some (.interface i) => s.implementations i.name
  | some (.union u) => u.members.filterMap s.object?
  | _ => []

/-- Whether a fragment on `condition` applies to objects of type `object`. -/
def covers (s : Schema) (condition object : String) : Bool :=
  (s.possibleTypes condition).any fun o => o.name == object

/-- The object type that an abstract type's resolver names for a value, or else
the value's `__typename`, provided it is a possible type. -/
def concreteType? (s : Schema) (name : String) (v : Json) : Option ObjectType := do
  let resolver? ← match s.type? name with
    | some (.interface i) => some i.typeResolver?
    | some (.union u) => some u.typeResolver?
    | _ => none
  let typeName ← match resolver? with
    | some resolve => resolve v
    | none => (v.property? "__typename").bind Json.string?
  if s.covers name typeName then s.object? typeName else none

end Schema

/-! ## Lookups -/

namespace Schema

/-- A registered type is found under its name. -/
theorem name_of_type? {s : Schema} {n : String} {t : TypeDefinition} (h : s.type? n = some t) :
    t.name = n :=
  (Registry.mem_of_get? h).2

/-- An object type is found under its name. -/
theorem name_of_object? {s : Schema} {n : String} {o : ObjectType} (h : s.object? n = some o) :
    o.name = n := by
  unfold object? at h
  obtain ⟨t, ht, ho⟩ := Option.bind_eq_some_iff.1 h
  cases t <;> simp [TypeDefinition.object?] at ho
  subst ho
  exact name_of_type? ht

end Schema

end GraphQL
