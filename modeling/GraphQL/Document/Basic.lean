/-
GraphQL.Document.Basic — executable documents.

A document is a list of operations and fragments. A selection set is one
inductive type whose constructors are the kinds of selection followed by the
rest of the set, so every walk over a document is a plain structural recursion.

Field selections carry a number, their occurrence in the document counted from
0: definitions in order, a field before its sub-selections, inline fragments
entered, spreads not followed. The number is what tells two selections apart
that are written alike; `Document.numbered` assigns it.
-/
import GraphQL.Document.Literal
import GraphQL.Registry
import GraphQL.TypeExpr

namespace GraphQL

/-- A place in a text: line and column, both counted from 1. -/
structure Position where
  line : Nat
  column : Nat
deriving DecidableEq, Inhabited

/-- A directive on a selection or a fragment: `@skip(if: $hide)`. -/
structure Directive where
  name : String
  arguments : List (String × Literal)
deriving Inhabited

/-- What is written of a field, its sub-selection apart. -/
structure FieldNode where
  /-- The occurrence of the field in its document. -/
  number : Nat
  position : Position
  alias? : Option String
  name : String
  arguments : List (String × Literal)
  directives : List Directive
deriving Inhabited

/-- The key of the field in a response: its alias, or else its name. -/
def FieldNode.responseKey (f : FieldNode) : String := f.alias?.getD f.name

/-- What is written of an inline fragment, its selection set apart. -/
structure InlineHead where
  condition? : Option String
  position : Position
  directives : List Directive
deriving Inhabited

/-- The use of a named fragment. -/
structure Spread where
  name : String
  position : Position
  directives : List Directive
deriving Inhabited

/-- A selection and the ones after it, or the end of the set. -/
inductive SelectionSet where
  | nil
  | field (node : FieldNode) (selections rest : SelectionSet)
  | inline (head : InlineHead) (selections rest : SelectionSet)
  | spread (spread : Spread) (rest : SelectionSet)
deriving Inhabited

/-- A field selection with its sub-selection. -/
structure Field where
  node : FieldNode
  selections : SelectionSet
deriving Inhabited

/-- A declared variable of an operation. -/
structure VariableDefinition where
  name : String
  type : TypeExpr
  default? : Option Literal
deriving Inhabited

/-- The three kinds of operation. -/
inductive OperationKind where
  | query
  | mutation
  | subscription
deriving DecidableEq, Inhabited

/-- An operation of a document. -/
structure Operation where
  kind : OperationKind
  name? : Option String
  variableDefinitions : List VariableDefinition
  selections : SelectionSet
deriving Inhabited

/-- A named fragment of a document, on a type condition. -/
structure Fragment where
  name : String
  position : Position
  condition : String
  directives : List Directive
  selections : SelectionSet
deriving Inhabited

instance : Named Fragment := ⟨Fragment.name⟩

/-- A definition of a document. -/
inductive Definition where
  | operation (operation : Operation)
  | fragment (fragment : Fragment)

/-- An executable document. -/
structure Document where
  definitions : List Definition

/-! ## Walks over selection sets -/

namespace SelectionSet

/-- Whether there is no selection. -/
def isEmpty : SelectionSet → Bool
  | .nil => true
  | _ => false

/-- How many selections the set has, nested ones not counted. -/
def length : SelectionSet → Nat
  | .nil => 0
  | .field _ _ rest => rest.length + 1
  | .inline _ _ rest => rest.length + 1
  | .spread _ rest => rest.length + 1

/-- The directives of each selection of the set, in order. -/
def directives : SelectionSet → List (List Directive)
  | .nil => []
  | .field node _ rest => node.directives :: rest.directives
  | .inline head _ rest => head.directives :: rest.directives
  | .spread s rest => s.directives :: rest.directives

/-- Every field of the set, a field before its sub-selections. -/
def fields : SelectionSet → List Field
  | .nil => []
  | .field node sub rest => ⟨node, sub⟩ :: (sub.fields ++ rest.fields)
  | .inline _ sub rest => sub.fields ++ rest.fields
  | .spread _ rest => rest.fields

/-- The names of every spread in the set, nested ones included. -/
def spreads : SelectionSet → List String
  | .nil => []
  | .field _ sub rest => sub.spreads ++ rest.spreads
  | .inline _ sub rest => sub.spreads ++ rest.spreads
  | .spread s rest => s.name :: rest.spreads

/-- Number the fields of the set from `n` on; also the first number left. -/
def numberFrom (n : Nat) : SelectionSet → SelectionSet × Nat
  | .nil => (.nil, n)
  | .field node sub rest =>
    let (sub, m) := sub.numberFrom (n + 1)
    let (rest, k) := rest.numberFrom m
    (.field { node with number := n } sub rest, k)
  | .inline head sub rest =>
    let (sub, m) := sub.numberFrom n
    let (rest, k) := rest.numberFrom m
    (.inline head sub rest, k)
  | .spread s rest =>
    let (rest, k) := rest.numberFrom n
    (.spread s rest, k)

end SelectionSet

/-! ## Documents -/

namespace Definition

/-- The selection set of a definition. -/
def selections : Definition → SelectionSet
  | .operation o => o.selections
  | .fragment f => f.selections

/-- The definition with another selection set. -/
def withSelections (selections : SelectionSet) : Definition → Definition
  | .operation o => .operation { o with selections }
  | .fragment f => .fragment { f with selections }

end Definition

namespace Document

/-- The operations in order. -/
def operations (d : Document) : List Operation :=
  d.definitions.filterMap fun
    | .operation o => some o
    | .fragment _ => none

/-- The fragments by name: of two with one name the last counts. -/
def fragments (d : Document) : Registry Fragment :=
  Registry.ofList (d.definitions.filterMap fun
    | .fragment f => some f
    | .operation _ => none)

/-- Every field selection of the document: definitions in order, a field before
its sub-selections. -/
def fields (d : Document) : List Field :=
  d.definitions.flatMap fun x => x.selections.fields

/-- Number definitions from `n` on. -/
def numberDefinitions (n : Nat) : List Definition → List Definition
  | [] => []
  | d :: rest =>
    let (s, m) := d.selections.numberFrom n
    d.withSelections s :: numberDefinitions m rest

/-- The document with its fields numbered by occurrence. -/
def numbered (d : Document) : Document := ⟨numberDefinitions 0 d.definitions⟩

end Document

/-! ## Numbers are occurrences -/

namespace SelectionSet

/-- Numbering uses up as many numbers as there are fields. -/
theorem numberFrom_snd (s : SelectionSet) (n : Nat) :
    (s.numberFrom n).2 = n + s.fields.length := by
  induction s generalizing n with
  | nil => rfl
  | field node sub rest ihs ihr =>
    simp only [numberFrom, fields, List.length_cons, List.length_append, ihs, ihr]; omega
  | inline head sub rest ihs ihr =>
    simp only [numberFrom, fields, List.length_append, ihs, ihr]; omega
  | spread s rest ih => simp only [numberFrom, fields, ih]

/-- The fields of a numbered set have consecutive numbers. -/
theorem map_number_numberFrom (s : SelectionSet) (n : Nat) :
    (s.numberFrom n).1.fields.map (·.node.number) = List.range' n s.fields.length := by
  induction s generalizing n with
  | nil => rfl
  | field node sub rest ihs ihr =>
    simp only [numberFrom, fields, List.map_cons, List.map_append, ihs, ihr, numberFrom_snd,
      List.length_cons, List.length_append, List.range'_succ, List.cons.injEq, true_and]
    rw [show n + 1 + sub.fields.length = n + 1 + 1 * sub.fields.length by omega,
      List.range'_append]
  | inline head sub rest ihs ihr =>
    simp only [numberFrom, fields, List.map_append, ihs, ihr, numberFrom_snd,
      List.length_append]
    rw [show n + sub.fields.length = n + 1 * sub.fields.length by omega, List.range'_append]
  | spread s rest ih => simp only [numberFrom, fields, ih]

end SelectionSet

end GraphQL
