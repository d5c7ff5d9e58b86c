/-
GraphQL.Failure — everything that can go wrong, and its wording.

* `RequestError` — a document or operation that cannot be executed. A `Finding`
  is one of these at a place of the document.
* `Fault` — a schema or result tree that is not put together right; not the
  client's doing.
* `Failure` — why a request as a whole has no result.
* `ResponseError` — an entry of the `errors` list of a response.

Each has one function with all its wording.
-/
import GraphQL.Coercion.Misfit
import GraphQL.Document.Basic
import GraphQL.Resolver

namespace GraphQL

/-! ## Documents and operations -/

/-- Why a document or one of its operations cannot be executed. -/
inductive RequestError where
  | notSupported
  | unknownField (name object : String)
  | unknownFragment (name : String)
  | unknownType (name : String)
  | fragmentOnNonComposite (name : String)
  | cyclicFragment (name : String)
  | missingArgument (field argument argumentType : String)
  | needlessSelection (field fieldType : String)
  | missingSelection (field fieldType : String)
  | mutationsNotConfigured
  | unknownOperation (name : String)
  | ambiguousOperation
  | noOperation
deriving DecidableEq, Inhabited

/-- The wording of an error. -/
def RequestError.message : RequestError → String
  | .notSupported => "Not supported."
  | .unknownField name object =>
    "Cannot query field \"" ++ name ++ "\" on type \"" ++ object ++ "\"."
  | .unknownFragment name => "Unknown fragment \"" ++ name ++ "\"."
  | .unknownType name => "Unknown type \"" ++ name ++ "\"."
  | .fragmentOnNonComposite name =>
    "Fragment cannot condition on non composite type \"" ++ name ++ "\"."
  | .cyclicFragment name => "Cannot spread fragment \"" ++ name ++ "\" within itself."
  | .missingArgument field argument argumentType =>
    "Field \"" ++ field ++ "\" argument \"" ++ argument ++ "\" of type \"" ++ argumentType ++
      "\" is required, but it was not provided."
  | .needlessSelection field fieldType =>
    "Field \"" ++ field ++ "\" must not have a selection since type \"" ++ fieldType ++
      "\" has no subfields."
  | .missingSelection field fieldType =>
    "Field \"" ++ field ++ "\" of type \"" ++ fieldType ++
      "\" must have a selection of subfields."
  | .mutationsNotConfigured => "Schema is not configured for mutations."
  | .unknownOperation name => "Unknown operation named \"" ++ name ++ "\"."
  | .ambiguousOperation =>
    "Must provide operation name if query contains multiple operations."
  | .noOperation => "Must provide an operation."

/-- An error and the place it was found at, if it has one. -/
structure Finding where
  position? : Option Position
  error : RequestError
deriving DecidableEq, Inhabited

/-! ## Faults -/

/-- What can be wrong with a schema or a result tree. -/
inductive Fault where
  /-- An object without a concrete type. -/
  | noConcreteType (path : Path)
  /-- A field type whose name is no registered output type. -/
  | notOutputType (type coordinates : String)
  /-- A result tree that still has work to do. -/
  | unresolved (path : Path)
  /-- A root type that is no registered object type. -/
  | rootNotObject (name : String)
  /-- A fault that only has a description. -/
  | other (message : String)
  /-- A document whose cyclic fragments nest without end. -/
  | tooDeep
deriving DecidableEq, Inhabited

/-- The wording of a fault. -/
def Fault.message : Fault → String
  | .noConcreteType path => "Missing runtime type at " ++ path.text
  | .notOutputType type coordinates =>
    "Type \"" ++ type ++ "\" of field \"" ++ coordinates ++ "\" is not an output type"
  | .unresolved path => "Unresolved result node at " ++ path.text
  | .rootNotObject name => "Root type \"" ++ name ++ "\" is not an object type of the schema"
  | .other message => message
  | .tooDeep => "Selections are nested too deeply"

/-! ## Entries of a response -/

/-- An entry of the `errors` list of a response. -/
structure ResponseError where
  message : String
  locations : List Position
  path? : Option Path
  extensions? : Option Json
deriving DecidableEq, Inhabited

/-- A position as data. -/
def Position.toJson (p : Position) : Json :=
  .obj [("line", .nat p.line), ("column", .nat p.column)]

namespace ResponseError

/-- An error that is only a message. -/
def ofMessage (message : String) : ResponseError := ⟨message, [], none, none⟩

/-- A resolver's error, its path continued from the field that returned it. -/
def ofResolver (e : ResolverError) (field : Path) (p : Position) : ResponseError :=
  { message := e.message
    locations := [p]
    path? := some (field ++ e.path)
    extensions? := e.extensions? }

/-- An error as data; what is empty or unset is left out. -/
def toJson (e : ResponseError) : Json :=
  let locations :=
    if e.locations.isEmpty then []
    else [("locations", Json.arr (e.locations.map Position.toJson))]
  let path := match e.path? with
    | some p => [("path", Path.toJson p)]
    | none => []
  let extensions := match e.extensions? with
    | some x => [("extensions", x)]
    | none => []
  .obj (("message", .str e.message) :: locations ++ path ++ extensions)

end ResponseError

/-! ## Failures -/

/-- Why a request as a whole has no result. -/
inductive Failure where
  /-- A text that is no JSON. -/
  | json (message : String)
  /-- A document that is malformed from this position on. -/
  | malformed (position : Position)
  /-- A document or operation that cannot be executed. -/
  | request (findings : List Finding)
  /-- Values that do not fit the declared variables or arguments. -/
  | coercion (errors : List Misfit)
  | fault (fault : Fault)
deriving DecidableEq

namespace Failure

/-- A single error without a place. -/
def ofRequestError (e : RequestError) : Failure := .request [⟨none, e⟩]

/-- The wording of a failure. -/
def message : Failure → String
  | .json m => "Json error: " ++ m
  | .malformed p =>
    "Syntax error: query parse error: Parse error at " ++ toString p.line ++ ":" ++
      toString p.column
  | .request _ => "Query error."
  | .coercion _ => "Variable coercion error."
  | .fault f => "Internal engine error: " ++ f.message

/-- The entries of a response that has nothing but this failure. -/
def toErrors : Failure → List ResponseError
  | .request findings => findings.map fun f =>
    ⟨f.error.message, f.position?.toList, none, none⟩
  | .coercion errors => errors.map fun e => .ofMessage e.message
  | f => [.ofMessage f.message]

end Failure

end GraphQL
