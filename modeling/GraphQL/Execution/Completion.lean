/-
GraphQL.Execution.Completion — from a fetched value to a node of the result tree.

The declared type of the position decides: a list fans out item by item, a leaf
is converted by its type, an object is left pending with its sub-selection collected for
its concrete type. A value that does not fit is a null with an error. Non-null
wrappers do not matter yet; they are looked at when the tree becomes data.

A `Completion` keeps the errors raised even where a fault ends the work.
-/
import GraphQL.Execution.Fetching
import GraphQL.Execution.Node

namespace GraphQL

/-- The errors raised, in order, and the outcome. -/
structure Completion (α : Type) where
  errors : List ResponseError
  outcome : Except Fault α

namespace Completion

variable {α β : Type}

/-- An outcome without errors. -/
def ok (a : α) : Completion α := ⟨[], .ok a⟩

/-- A fault. -/
def fault (f : Fault) : Completion α := ⟨[], .error f⟩

/-- Apply a function to the outcome. -/
def map (f : α → β) (a : Completion α) : Completion β := ⟨a.errors, a.outcome.map f⟩

/-- Complete items with their indices from `i` on until one meets a fault. -/
def each (f : Nat → α → Completion β) (i : Nat) : List α → Completion (List β)
  | [] => ok []
  | x :: xs =>
    let a := f i x
    match a.outcome with
    | .error e => ⟨a.errors, .error e⟩
    | .ok y =>
      let rest := each f (i + 1) xs
      ⟨a.errors ++ rest.errors, rest.outcome.map (y :: ·)⟩

end Completion

namespace Environment

/-- An error at a position, which becomes null. -/
def reject (p : Place) (message : String) : Completion Node :=
  ⟨[p.error message], .ok (.null p true)⟩

/-- A leaf converted for the response, or the error of its conversion. -/
def leaf (p : Place) (r : Except Misfit Json) : Completion Node :=
  match r with
  | .ok v => .ok (.leaf p v)
  | .error e => reject p e.message

/-- An object value of a concrete type, its fields to be resolved. -/
def pendingObject (env : Environment) (p : Place) (object : String) (v : Json) : Node :=
  let p := p.withConcreteType object
  let groups := match p.group? with
    | some g => env.scope.subGroups g object
    | none => []
  .pending ⟨v, p, groups⟩

/-- A value that is not null at a named type. -/
def completeNamed (env : Environment) (p : Place) (name : String) (v : Json) :
    Completion Node :=
  match env.schema.type? name with
  | some (.scalar t) => leaf p (t.coercion.toResult v)
  | some (.enum t) => leaf p (t.toResult v)
  | some (.object t) => .ok (env.pendingObject p t.name v)
  | some (.interface _) | some (.union _) =>
    match env.schema.concreteType? name v with
    | some t => .ok (env.pendingObject p t.name v)
    | none =>
      reject p ("Could not determine the concrete type of abstract type \"" ++ name ++ "\".")
  | some (.inputObject _) | none => .fault (.notOutputType name p.coordinates)

/-- A value at a position whose type, outer non-null wrappers aside, is `type`;
`reported` if its fetch has raised an error. -/
def completeValue (env : Environment) :
    (type : TypeExpr) → Place → Json → Bool → Completion Node
  | .nonNull t, p, v, reported => env.completeValue t p v reported
  | .list t, p, v, reported =>
    match v with
    | .null => .ok (.null p reported)
    | .arr items =>
      (Completion.each (fun i x => env.completeValue t (p.item i t) x false) 0 items).map
        (.list p)
    | v =>
      reject p ("Expected a list for field \"" ++ p.coordinates ++ "\", found " ++ v.text ++ ".")
  | .named name, p, v, reported =>
    match v with
    | .null => .ok (.null p reported)
    | v => env.completeNamed p name v

end Environment

end GraphQL
