/-
GraphQL.Execution.Level — resolving the fields of an object, level by level.

In parallel mode the fields of an object take turns; in serial mode each is
resolved, everything below it included, before the next one starts. The mode is
that of one level, the levels below are parallel. Items of a list take turns
too.

A fault ends a parallel level once all its fields are done, the first in order
counting; it ends a serial level and a list at once.

`levels` bounds the depth. Without cyclic fragments a branch of the result has
at most as many fields as the document; with them only the data ends it, and an
execution that goes beyond the bound ends in the fault `tooDeep`.
-/
import GraphQL.Execution.Completion

namespace GraphQL

/-- How the fields of a level are resolved. -/
inductive Mode where
  | parallel
  | serial
deriving DecidableEq, Inhabited

/-- A job that gives a node or meets a fault. -/
abbrev NodeJob := Job (Except Fault Node)

namespace Environment

mutual

/-- Resolve what is pending in a node. -/
def resolvePending (descend : SubSelection → NodeJob) : Node → NodeJob
  | .pending sub => descend sub
  | .list p items => (Job.allOk (resolvePendingItems descend items)).map fun r => r.map (.list p)
  | .leaf p v => .done (.ok (.leaf p v))
  | .null p reported => .done (.ok (.null p reported))
  | .object p children => .done (.ok (.object p children))

/-- Resolve what is pending in the items of a list. -/
def resolvePendingItems (descend : SubSelection → NodeJob) : List Node → List NodeJob
  | [] => []
  | n :: ns => resolvePending descend n :: resolvePendingItems descend ns

end

/-- Resolve one field of an object; none if the object type does not declare it. -/
def fieldJob (env : Environment) (descend : SubSelection → NodeJob) (source : Json)
    (parent : Place) (g : FieldGroup) : Job (Except Fault (Option Node)) :=
  match parent.concreteType? with
  | none => .done (.error (.noConcreteType parent.path))
  | some object =>
    if g.name = "__typename" then
      let p := parent.field g.key g object (.required "String")
      .done (.ok (some (.leaf p (.str object))))
    else
      match env.schema.field? object g.name with
      | none => .done (.ok none)
      | some d =>
        let p := parent.field g.key g object d.type
        (env.fetchField source d p).bind fun fetched =>
          let a := env.completeValue d.type p fetched.value (!fetched.errors.isEmpty)
          Job.raiseAll (fetched.errors ++ a.errors) <|
            match a.outcome with
            | .error f => .done (.error f)
            | .ok node => (resolvePending descend node).map fun r => r.map some

/-- The children of an object: the fields that it declares, under their keys. -/
def children (gs : FieldGroups) (nodes : List (Option Node)) : List (String × Node) :=
  (gs.zip nodes).filterMap fun p => p.2.map fun n => (p.1.key, n)

/-- The first fault, or all values. -/
def firstFault {α : Type} (rs : List (Except Fault α)) : Except Fault (List α) :=
  rs.mapM id

/-- Resolve all fields of an object. -/
def objectJob (env : Environment) : (levels : Nat) → Mode → SubSelection → NodeJob
  | 0, _, _ => .done (.error .tooDeep)
  | n + 1, mode, sub =>
    let fields := sub.groups.map
      (env.fieldJob (env.objectJob n .parallel) sub.source sub.place)
    let nodes := match mode with
      | .parallel => (Job.all fields).map firstFault
      | .serial => Job.inOrder fields
    nodes.map fun r => r.map fun ns => .object sub.place (children sub.groups ns)

/-- The levels that cyclic fragments are granted on top of those of the document. -/
def extraLevels : Nat := 65536

/-- More levels than any execution without cyclic fragments has. -/
def levelsFor (d : Document) : Nat := d.fields.length + 1 + extraLevels

end Environment

end GraphQL
