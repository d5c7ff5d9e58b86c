/-
GraphQL.Selection — which fields a selection set selects.

A walk over a selection set follows inline fragments and fragment spreads,
leaves out what `@skip` and `@include` exclude, and restricts its target at every
type condition. The target is what the fields are selected on: one object type
for execution (`Collection`), a list of object types for normalization
(`Normal`). The walk gives the occurrences of fields in the order in which it
meets them; what is done with them is up to its users.

A fragment that the walk has entered is not available inside itself, so cyclic
fragments end: each entry leaves one fragment fewer.
-/
import GraphQL.Coercion.Variables

namespace GraphQL

/-! ## Directives -/

/-- The value of the `if` argument of the first directive of a name. A directive
without a usable boolean condition has none. -/
def ifArgument? (s : Schema) (vars : VariableValues) (name : String)
    (ds : List Directive) : Option Bool := do
  let d ← ds.find? fun d => d.name == name
  let l ← d.arguments.lookup "if"
  match coerceLiteral s vars l (.required "Boolean") with
  | .ok (some (.bool b)) => some b
  | _ => none

/-- Whether a selection takes part: not if `@skip` holds, not if `@include` does
not, whatever the other says. -/
def isIncluded (s : Schema) (vars : VariableValues) (ds : List Directive) : Bool :=
  !(ifArgument? s vars "skip" ds).getD false &&
    (ifArgument? s vars "include" ds).getD true

/-! ## The walk -/

/-- What a walk over selections looks things up in. -/
structure Scope where
  schema : Schema
  fragments : Registry Fragment
  vars : VariableValues

/-- The scope of a document. -/
def Scope.ofDocument (s : Schema) (d : Document) (vars : VariableValues) : Scope :=
  ⟨s, d.fragments, vars⟩

/-- Whether selections with these directives take part. -/
def Scope.includes (sc : Scope) (ds : List Directive) : Bool :=
  isIncluded sc.schema sc.vars ds

/-- A field selection met by a walk, and the target it was met on. -/
structure Occurrence (τ : Type) where
  field : Field
  target : τ

variable {τ : Type}

/-- The occurrences in a fragment's body: none if its directives exclude it or
its condition rules the target out. -/
def occurrencesUnder (sc : Scope) (restrict : String → τ → Option τ)
    (condition? : Option String) (directives : List Directive)
    (body : τ → List (Occurrence τ)) (t : τ) : List (Occurrence τ) :=
  if sc.includes directives then
    match condition? with
    | none => body t
    | some c =>
      match restrict c t with
      | some t' => body t'
      | none => []
  else []

/-- The occurrences in a selection set. `enter` gives those of a named fragment. -/
def SelectionSet.occurrences (sc : Scope) (restrict : String → τ → Option τ)
    (enter : String → τ → List (Occurrence τ)) :
    SelectionSet → τ → List (Occurrence τ)
  | .nil, _ => []
  | .field node sub rest, t =>
    (if sc.includes node.directives then [⟨⟨node, sub⟩, t⟩] else []) ++
      rest.occurrences sc restrict enter t
  | .inline head sub rest, t =>
    occurrencesUnder sc restrict head.condition? head.directives
        (sub.occurrences sc restrict enter) t ++
      rest.occurrences sc restrict enter t
  | .spread s rest, t =>
    (if sc.includes s.directives then enter s.name t else []) ++
      rest.occurrences sc restrict enter t

/-- The occurrences in a named fragment, of those still available; an unknown one
has none. `n` bounds how many fragments may be entered inside each other. -/
def Scope.enterFragment (sc : Scope) (restrict : String → τ → Option τ) :
    Nat → List Fragment → String → τ → List (Occurrence τ)
  | 0, _, _, _ => []
  | n + 1, available, name, t =>
    match available.find? fun f => f.name == name with
    | none => []
    | some f =>
      let others := available.filter fun g => g.name != name
      occurrencesUnder sc restrict (some f.condition) f.directives
        (f.selections.occurrences sc restrict (sc.enterFragment restrict n others)) t

/-- The occurrences in a selection set, every fragment of the scope available. -/
def Scope.occurrences (sc : Scope) (restrict : String → τ → Option τ) (set : SelectionSet)
    (t : τ) : List (Occurrence τ) :=
  set.occurrences sc restrict
    (sc.enterFragment restrict sc.fragments.items.length sc.fragments.items) t

end GraphQL
