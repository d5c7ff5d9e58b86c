/-
GraphQL.Execution.Place — the places of a result tree.

A place says where a value of the result stands and of which type it has to be.
The root is the operation; below it a place is a field of an object or an item of
a list. An item keeps the field of its list, so its errors are located there.
Every place but the root adds one part to the path of the place around it.
-/
import GraphQL.Collection
import GraphQL.Failure

namespace GraphQL

/-- A place in the result tree. -/
structure Place where
  /-- Keys and indices from the root. -/
  path : Path
  /-- The declared type of the place. -/
  type : TypeExpr
  /-- The object type of its value, once that is known. -/
  concreteType? : Option String
  /-- The selections of the field; the root has none. -/
  group? : Option FieldGroup
  /-- The object type that the field belongs to. -/
  parentType? : Option String
deriving Inhabited

namespace Place

/-- The root of an operation. It is non-null: a null that reaches it is a null of
the whole data. -/
def root (type : String) : Place :=
  { path := []
    type := .required type
    concreteType? := some type
    group? := none
    parentType? := none }

/-- A field of an object. -/
def field (parent : Place) (key : String) (g : FieldGroup) (parentType : String)
    (type : TypeExpr) : Place :=
  { path := parent.path ++ [.key key]
    type
    concreteType? := none
    group? := some g
    parentType? := some parentType }

/-- An item of a list. -/
def item (list : Place) (index : Nat) (type : TypeExpr) : Place :=
  { path := list.path ++ [.index index]
    type
    concreteType? := none
    group? := list.group?
    parentType? := list.parentType? }

/-- The place with the object type of its value. -/
def withConcreteType (p : Place) (object : String) : Place :=
  { p with concreteType? := some object }

/-- Whether null is excluded. -/
def isNonNull (p : Place) : Bool := p.type.isNonNull

/-- The number of path parts from the root. -/
def depth (p : Place) : Nat := p.path.length

/-- The last part of the path. -/
def lastPart? (p : Place) : Option PathPart := p.path.getLast?

/-- Whether the place is below the root. -/
def hasParent (p : Place) : Bool := !p.path.isEmpty

/-- The field as `Parent.field`; the type where there is no field. -/
def coordinates (p : Place) : String :=
  match p.parentType?, p.group? with
  | some t, some g => t ++ "." ++ g.name
  | _, _ => p.type.text

/-- What a resolver sees of the place. -/
def site (p : Place) : Site :=
  { path := p.path
    fieldName := (p.group?.map FieldGroup.name).getD ""
    responseKey := (p.group?.map FieldGroup.key).getD ""
    parentType := p.parentType?.getD ""
    fieldType := p.type }

/-- An error at this place, located at its field. -/
def error (p : Place) (message : String) : ResponseError :=
  { message
    locations := (p.group?.map FieldGroup.position).toList
    path? := some p.path
    extensions? := none }

/-! ## Paths -/

@[simp] theorem path_root (type : String) : (root type).path = [] := rfl

@[simp] theorem path_field (parent : Place) (key : String) (g : FieldGroup)
    (parentType : String) (type : TypeExpr) :
    (parent.field key g parentType type).path = parent.path ++ [.key key] := rfl

@[simp] theorem path_item (list : Place) (index : Nat) (type : TypeExpr) :
    (list.item index type).path = list.path ++ [.index index] := rfl

@[simp] theorem path_withConcreteType (p : Place) (object : String) :
    (p.withConcreteType object).path = p.path := rfl

end Place

end GraphQL
