/-
GraphQL.Path — places in a response.

A path leads from the root of the data through response keys and list indices.
-/
import GraphQL.Json.Basic

namespace GraphQL

/-- A response key or a list index. -/
inductive PathPart where
  | key (name : String)
  | index (n : Nat)
deriving DecidableEq, Inhabited

/-- A place in a response, from the root on. -/
abbrev Path := List PathPart

namespace PathPart

/-- The text of a part. -/
def text : PathPart → String
  | .key k => k
  | .index n => toString n

/-- A part as data: keys are strings, indices are numbers. -/
def toJson : PathPart → Json
  | .key k => .str k
  | .index n => .nat n

end PathPart

namespace Path

/-- The text of a path: `/hero/friends/0`, and `/` for the root. -/
def text (p : Path) : String :=
  match p with
  | [] => "/"
  | p => String.join (p.map fun s => "/" ++ s.text)

/-- A path as data. -/
def toJson (p : Path) : Json := .arr (p.map PathPart.toJson)

end Path

end GraphQL
