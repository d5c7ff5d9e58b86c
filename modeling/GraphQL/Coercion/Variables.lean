/-
GraphQL.Coercion.Variables — the variables of a request and the arguments of a field.

`coerceVariableValues` takes every declared variable on its own: its raw value,
or else its default, coerced to its type. All failures are reported, in the order
of the declarations, and any of them ends the request. `coerceArgumentValues`
binds the declared arguments of a field from the literals written in the document.
-/
import GraphQL.Coercion.Input
import GraphQL.Coercion.Literal
import GraphQL.Document.Basic

namespace GraphQL

namespace VariableDefinition

/-- The value of a variable: none leaves it unbound. -/
def value (d : VariableDefinition) (s : Schema) (raw : List (String × Json)) :
    Except Misfit (Option Json) :=
  match raw.lookup d.name with
  | some v =>
    match coerceInput s v d.type with
    | .ok v => .ok (some v)
    | .error reason => .error (.variableMisfit d.name reason)
  | none =>
    match d.default? with
    | some l =>
      match coerceLiteral s [] l d.type with
      | .ok v => .ok v
      | .error reason => .error (.variableMisfit d.name reason)
    | none =>
      if d.type.isNonNull then .error (.variableNotProvided d.name d.type.text) else .ok none

end VariableDefinition

/-- The errors of the declared variables, in order. -/
def variableErrors (s : Schema) (raw : List (String × Json)) (ds : List VariableDefinition) :
    List Misfit :=
  ds.filterMap fun d =>
    match d.value s raw with
    | .error e => some e
    | .ok _ => none

/-- The bindings of the declared variables that have a value. -/
def variableBindings (s : Schema) (raw : List (String × Json))
    (ds : List VariableDefinition) : VariableValues :=
  ds.foldl (fun acc d =>
    match d.value s raw with
    | .ok (some v) => Entries.insert d.name v acc
    | _ => acc) []

/-- The variables of a request, or every error. -/
def coerceVariableValues (s : Schema) (ds : List VariableDefinition) (raw : List (String × Json)) :
    Except (List Misfit) VariableValues :=
  match variableErrors s raw ds with
  | [] => .ok (variableBindings s raw ds)
  | errors => .error errors

/-- The arguments of a field: the first literal written for each declared name,
its default, or nothing. -/
def coerceArgumentValues (s : Schema) (vars : VariableValues) (ds : List InputValue)
    (written : List (String × Literal)) : Except Misfit (List (String × Json)) :=
  bindAll (fun d =>
    match written.lookup d.name with
    | some l => coerceLiteral s vars l d.type
    | none => .ok none) ds

end GraphQL
