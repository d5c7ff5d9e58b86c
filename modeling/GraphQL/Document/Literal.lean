/-
GraphQL.Document.Literal — values as they are written in a document.

A literal may mention variables at any depth. The fields of an object literal
are sorted by key and a repeated key keeps its last value, so two object
literals that differ in the order of their fields are the same literal.
`Literal.same` compares literals as written: `1` and `1.0` differ, the two zeros
of floats do not.
-/
import GraphQL.Number.Binary64

namespace GraphQL

/-- A value as written in a document. -/
inductive Literal where
  | null
  | var (name : String)
  | int (value : Int)
  | float (value : FloatValue)
  | string (value : String)
  | boolean (value : Bool)
  | enum (name : String)
  | list (items : List Literal)
  | object (fields : List (String × Literal))
deriving Inhabited

namespace Literal

/-- Whether the literal is `null`. -/
def isNull : Literal → Bool
  | .null => true
  | _ => false

/-- Put a field into a list of fields sorted by key, replacing one of the same key. -/
def putField (key : String) (value : Literal) :
    List (String × Literal) → List (String × Literal)
  | [] => [(key, value)]
  | (k, v) :: rest =>
    if key = k then (key, value) :: rest
    else if key < k then (key, value) :: (k, v) :: rest
    else (k, v) :: putField key value rest

/-- The object literal with these fields in the order written. -/
def ofFields (fields : List (String × Literal)) : Literal :=
  .object (fields.foldl (fun acc p => putField p.1 p.2 acc) [])

mutual

/-- Literally equal, floats compared as numbers. -/
def same : Literal → Literal → Bool
  | .null, .null => true
  | .var a, .var b => a == b
  | .int a, .int b => a == b
  | .float a, .float b => a.sameValue b
  | .string a, .string b => a == b
  | .boolean a, .boolean b => a == b
  | .enum a, .enum b => a == b
  | .list a, .list b => sameItems a b
  | .object a, .object b => sameFields a b
  | _, _ => false

/-- Literally equal item by item. -/
def sameItems : List Literal → List Literal → Bool
  | [], [] => true
  | a :: as, b :: bs => same a b && sameItems as bs
  | _, _ => false

/-- Literally equal field by field. -/
def sameFields : List (String × Literal) → List (String × Literal) → Bool
  | [], [] => true
  | (k, a) :: as, (l, b) :: bs => k == l && same a b && sameFields as bs
  | _, _ => false

end

end Literal

end GraphQL
