/-
GraphQL.Resolver — functions that compute fields.

A resolver gets a `ResolverCall`: the parent's value, the coerced arguments,
where the field stands and the data of the request. What it then does is a
`Fetch`, a finite computation that may suspend, defer its work, write to the log
of the request, and ends in an `Outcome`. Suspending gives the other fields of
the request a turn; deferring only marks work that starts once the resolver has
returned.

A resolver is a function, so two calls that are alike do the same; what a fetch
sees of the others is the length of the log.
-/
import GraphQL.Path
import GraphQL.TypeExpr

namespace GraphQL

/-! ## Data of a request -/

/-- The kinds of values that a request carries for its resolvers. -/
inductive DatumKind where
  | string
  | int
  | bool
deriving DecidableEq

/-- A value that a request carries for its resolvers. -/
inductive Datum where
  | string (value : String)
  | int (value : Int)
  | bool (value : Bool)
deriving DecidableEq

namespace Datum

/-- The kind of a value. -/
def kind : Datum → DatumKind
  | .string _ => .string
  | .int _ => .int
  | .bool _ => .bool

/-- The value as response data. -/
def toJson : Datum → Json
  | .string s => .str s
  | .int i => .int i
  | .bool b => .bool b

end Datum

/-- The values of a request, at most one of each kind counting: the last inserted. -/
structure RequestData where
  entries : List Datum
deriving DecidableEq, Inhabited

namespace RequestData

/-- No values. -/
def empty : RequestData := ⟨[]⟩

/-- Insert a value; it takes the place of one of the same kind. -/
def insert (data : RequestData) (d : Datum) : RequestData :=
  ⟨d :: data.entries.filter fun e => e.kind != d.kind⟩

/-- The value of a kind. -/
def get? (data : RequestData) (kind : DatumKind) : Option Datum :=
  data.entries.find? fun e => e.kind == kind

end RequestData

/-! ## Calls and outcomes -/

/-- Where a resolver runs. -/
structure Site where
  path : Path
  fieldName : String
  responseKey : String
  parentType : String
  fieldType : TypeExpr
deriving DecidableEq, Inhabited

/-- What a resolver is given. -/
structure ResolverCall where
  /-- The value of the parent object. -/
  source : Json
  /-- The coerced arguments, defaults filled in. -/
  arguments : List (String × Json)
  site : Site
  data : RequestData
deriving DecidableEq, Inhabited

/-- An error of a resolver; the path is relative to its field. -/
structure ResolverError where
  message : String
  path : Path
  extensions? : Option Json
deriving DecidableEq, Inhabited

/-- An error that is only a message. -/
def ResolverError.ofMessage (message : String) : ResolverError := ⟨message, [], none⟩

/-- How a fetch ends. -/
inductive Outcome where
  | value (v : Json)
  /-- Nothing was produced; it completes like `null`. -/
  | absent
  /-- A value together with errors at or below it. -/
  | partialValue (v : Json) (errors : List ResolverError)
  | failure (error : ResolverError)
  /-- The resolver broke down, with or without a message. -/
  | breakdown (message? : Option String)
deriving DecidableEq, Inhabited

/-- What a resolver does until it has an outcome. -/
inductive Fetch where
  | finish (outcome : Outcome)
  /-- The resolver returns; the work goes on at once on behalf of the field. -/
  | defer (work : Fetch)
  /-- Wait for the next round. -/
  | suspend (next : Fetch)
  /-- Append an entry to the log of the request; the rest depends on the new length. -/
  | log (entry : String) (next : Nat → Fetch)
deriving Inhabited

/-- A resolver. -/
abbrev Resolver := ResolverCall → Fetch

namespace Fetch

/-- Suspend some times, then go on. -/
def suspended : Nat → Fetch → Fetch
  | 0, f => f
  | n + 1, f => .suspend (suspended n f)

/-- Append an entry to the log once the resolver returns; deferred work comes
after the entry, and a resolver that breaks down leaves none. -/
def thenLog (entry : String) : Fetch → Fetch
  | .finish (.breakdown message?) => .finish (.breakdown message?)
  | .finish outcome => .log entry fun _ => .finish outcome
  | .defer work => .log entry fun _ => .defer work
  | .suspend next => .suspend (thenLog entry next)
  | .log e next => .log e fun n => thenLog entry (next n)

end Fetch

namespace Resolver

/-- The resolver of a fixed outcome. -/
def ofOutcome (o : Outcome) : Resolver := fun _ => .finish o

/-- The resolver whose outcome is a function of the call. -/
def pure (f : ResolverCall → Outcome) : Resolver := fun call => .finish (f call)

/-- A value, or absence. -/
def outcomeOf (v : Option Json) : Outcome :=
  match v with
  | some v => .value v
  | none => .absent

/-- The resolver of fields without one: the parent's property of the field's name. -/
def property : Resolver :=
  pure fun call => outcomeOf (call.source.property? call.site.fieldName)

/-- The parent's property of a fixed name. -/
def propertyNamed (key : String) : Resolver :=
  pure fun call => outcomeOf (call.source.property? key)

/-- The parent's value itself. -/
def source : Resolver := pure fun call => .value call.source

/-- One argument. -/
def argument (name : String) : Resolver :=
  pure fun call => outcomeOf (call.arguments.lookup name)

/-- All arguments as an object. -/
def arguments : Resolver := pure fun call => .value (.obj call.arguments)

/-- Do the work of another resolver after returning. -/
def deferred (r : Resolver) : Resolver := fun call => .defer (r call)

/-- Suspend some times before another resolver. -/
def suspended (times : Nat) (r : Resolver) : Resolver := fun call => (r call).suspended times

/-- Log the path before and after another resolver. -/
def logged (r : Resolver) : Resolver := fun call =>
  let path := call.site.path.text
  .log ("start " ++ path) fun _ => (r call).thenLog ("end " ++ path)

/-- Log the response key and return the new length of the log. -/
def tick : Resolver := fun call =>
  .log ("tick " ++ call.site.responseKey) fun n => .finish (.value (.nat n))

end Resolver

end GraphQL
