/-
GraphQL.Coercion.Binding — values for declared arguments and input fields.

Arguments of a field and fields of an input object follow one rule. The declared
names are taken in their order; each has the value given for it, or else its
default, or else it is left out, which a non-null type forbids. The first
failure in that order is the answer.
-/
import GraphQL.Schema.Basic

namespace GraphQL

namespace InputValue

/-- The value for a declared name, given or by default; none leaves it out. -/
def fill (d : InputValue) (given : Option Json) : Except Misfit (Option Json) :=
  match given.or d.default? with
  | some v => .ok (some v)
  | none =>
    if d.type.isNonNull then .error (.notProvided d.name d.type.text) else .ok none

end InputValue

/-- The values for declared names in their order; `supply` gives those that were written. -/
def bindAll (supply : InputValue → Except Misfit (Option Json)) :
    List InputValue → Except Misfit (List (String × Json))
  | [] => .ok []
  | d :: ds =>
    match supply d with
    | .error e => .error e
    | .ok given =>
      match d.fill given with
      | .error e => .error e
      | .ok none => bindAll supply ds
      | .ok (some v) =>
        match bindAll supply ds with
        | .error e => .error e
        | .ok rest => .ok ((d.name, v) :: rest)

end GraphQL
