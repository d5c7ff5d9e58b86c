/-
GraphQL.Execution.Node — result trees and the data they stand for.

Execution builds a tree in which every position is still there, nulls in
non-null positions included. `Node.settle` folds it into data from the leaves
up. A null in a non-null position collapses: it passes to the object or list
around it, and on until a nullable position takes it. Each such null is an error
unless one has been reported for it already. Nothing stops early: the errors of
branches that are discarded are listed too, in tree order.
-/
import GraphQL.Execution.Place

namespace GraphQL

/-- An object value and what to select from it. -/
structure SubSelection where
  source : Json
  place : Place
  groups : FieldGroups
deriving Inhabited

/-- A position of the result tree with what stands there. -/
inductive Node where
  | leaf (place : Place) (value : Json)
  /-- A null; `reported` if an error has been raised for it. -/
  | null (place : Place) (reported : Bool)
  | object (place : Place) (children : List (String × Node))
  | list (place : Place) (items : List Node)
  /-- An object whose fields have not been resolved. -/
  | pending (sub : SubSelection)
deriving Inhabited

/-- What a position contributes to the data. -/
inductive Settled where
  | value (v : Json)
  /-- A null that the nearest nullable position around it takes. -/
  | collapsed
deriving DecidableEq, Inhabited

namespace Node

/-- The position of a node. -/
def place : Node → Place
  | .leaf p _ => p
  | .null p _ => p
  | .object p _ => p
  | .list p _ => p
  | .pending sub => sub.place

/-- A null at a position. -/
def settleNull (p : Place) (reported : Bool) : List ResponseError × Settled :=
  if p.isNonNull then
    (if reported then []
      else [p.error ("Cannot return null for non-nullable field \"" ++ p.coordinates ++ "\".")],
      .collapsed)
  else ([], .value .null)

/-- A position whose parts are complete; it collapses with any of them. -/
def settleParts (p : Place) (parts : Option Json) : Settled :=
  match parts with
  | some v => .value v
  | none => if p.isNonNull then .collapsed else .value .null

/-- Prepend a part, unless it or another part has collapsed. -/
def joinPart {α : Type} (mk : Json → α) (c : Settled) (rest : Option (List α)) :
    Option (List α) :=
  match c, rest with
  | .value v, some vs => some (mk v :: vs)
  | _, _ => none

mutual

/-- The errors in a tree and what it contributes to the data. -/
def settle : Node → Except Fault (List ResponseError × Settled)
  | .leaf p .null => .ok (settleNull p false)
  | .leaf _ v => .ok ([], .value v)
  | .null p reported => .ok (settleNull p reported)
  | .object p children =>
    (settleChildren children).map fun r => (r.1, settleParts p (r.2.map .obj))
  | .list p items =>
    (settleItems items).map fun r => (r.1, settleParts p (r.2.map .arr))
  | .pending sub => .error (.unresolved sub.place.path)

/-- The children of an object; none if one of them collapsed. -/
def settleChildren : List (String × Node) →
    Except Fault (List ResponseError × Option (List (String × Json)))
  | [] => .ok ([], some [])
  | (key, child) :: rest =>
    match settle child with
    | .error f => .error f
    | .ok c =>
      (settleChildren rest).map fun r => (c.1 ++ r.1, joinPart (key, ·) c.2 r.2)

/-- The items of a list; none if one of them collapsed. -/
def settleItems : List Node → Except Fault (List ResponseError × Option (List Json))
  | [] => .ok ([], some [])
  | item :: rest =>
    match settle item with
    | .error f => .error f
    | .ok c =>
      (settleItems rest).map fun r => (c.1 ++ r.1, joinPart (fun v => v) c.2 r.2)

end

/-- The data of a result tree and the errors of its nulls. A collapse of the root
leaves null. -/
def toData (root : Node) : Except Fault (Json × List ResponseError) :=
  root.settle.map fun r =>
    match r.2 with
    | .value v => (v, r.1)
    | .collapsed => (.null, r.1)

end Node

end GraphQL
