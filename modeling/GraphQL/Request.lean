/-
GraphQL.Request — a request from its text to its response.

`Request.plan` does everything that comes before the first resolver: the text is
parsed, the document validated, the operation and its root type chosen, the
variables coerced. The first stage that fails is the answer. `Request.run` then
resolves the fields of the operation, those of a mutation one after the other,
and turns the result tree into data; the errors raised on the way come before
those of the nulls found at the end.

A `Fault` is not an answer for the client; a run that meets one has no response.
-/
import GraphQL.Execution.Level
import GraphQL.Operation
import GraphQL.Document.Parser
import GraphQL.Response
import GraphQL.Validation

namespace GraphQL

/-- A request. -/
structure Request where
  text : String
  operation? : Option String
  /-- The raw variables as sent. -/
  variables? : Option Json
  /-- The source of the fields of the operation. -/
  rootValue : Json
  data : RequestData
  validator : Validator

/-- What is to be executed. -/
structure Plan where
  document : Document
  operation : Operation
  root : String
  vars : VariableValues

/-- What came of a request: everything that happened, and the response. -/
structure Run where
  trace : List Event
  result : Except Fault Response

namespace Run

/-- The errors raised, in order. -/
def errors (r : Run) : List ResponseError := r.trace.filterMap Event.error?

/-- The log, in order. -/
def log (r : Run) : List String := r.trace.filterMap Event.entry?

/-- The run of a job that builds a result tree: the tree becomes the data, and the
errors raised come before those of its nulls. -/
def ofJob (job : NodeJob) : Run :=
  let (trace, node) := job.run 0
  { trace
    result := node.bind fun n => n.toData.map fun (v, nulls) =>
      ⟨some v, trace.filterMap Event.error? ++ nulls⟩ }

end Run

namespace Request

/-- The request of a text and nothing else. -/
def ofText (text : String) : Request :=
  { text
    operation? := none
    variables? := none
    rootValue := .obj []
    data := .empty
    validator := Validation.findings }

/-- The raw variables: an object, or nothing. -/
def rawVariables (r : Request) : Except Failure (List (String × Json)) :=
  match r.variables? with
  | none => .ok []
  | some .null => .ok []
  | some (.obj fields) => .ok fields
  | some v => .error (.coercion [.unrepresentable "Variables" v.text])

/-- The document of a request, if it is well formed and valid. -/
def document (s : Schema) (r : Request) : Except Failure Document :=
  match Document.parse r.text with
  | .error p => .error (.malformed p)
  | .ok d =>
    match r.validator s d with
    | [] => .ok d
    | findings => .error (.request findings)

/-- The operation of a document and its root type, which must be an object type. -/
def target (s : Schema) (r : Request) (d : Document) : Except Failure (Operation × String) :=
  match d.operation r.operation? with
  | .error e => .error (.ofRequestError e)
  | .ok o =>
    match o.rootTypeName s with
    | .error e => .error (.ofRequestError e)
    | .ok root =>
      match s.object? root with
      | some _ => .ok (o, root)
      | none => .error (.fault (.rootNotObject root))

/-- Everything that comes before the first resolver. -/
def plan (s : Schema) (r : Request) : Except Failure Plan := do
  let document ← r.document s
  let (operation, root) ← r.target s document
  let raw ← r.rawVariables
  match coerceVariableValues s operation.variableDefinitions raw with
  | .ok vars => .ok { document, operation, root, vars }
  | .error errors => .error (.coercion errors)

end Request

namespace Plan

/-- The environment of an execution. -/
def environment (p : Plan) (s : Schema) (data : RequestData) : Environment :=
  ⟨.ofDocument s p.document p.vars, data⟩

/-- The fields of a mutation are serial, those of a query parallel. -/
def mode (p : Plan) : Mode :=
  match p.operation.kind with
  | .mutation => .serial
  | _ => .parallel

/-- The fields of the operation, selected on its root type. -/
def subSelection (p : Plan) (s : Schema) (source : Json) : SubSelection :=
  { source
    place := .root p.root
    groups := (Scope.ofDocument s p.document p.vars).groups p.root
      p.operation.selections }

/-- The job that builds the result tree, the fields of the operation in a mode. -/
def jobIn (p : Plan) (mode : Mode) (s : Schema) (source : Json) (data : RequestData) : NodeJob :=
  (p.environment s data).objectJob (Environment.levelsFor p.document) mode
    (p.subSelection s source)

/-- Execute a plan with the fields of the operation in a mode. -/
def runIn (p : Plan) (mode : Mode) (s : Schema) (source : Json) (data : RequestData) : Run :=
  .ofJob (p.jobIn mode s source data)

/-- Execute a plan. -/
def run (p : Plan) (s : Schema) (source : Json) (data : RequestData) : Run :=
  p.runIn p.mode s source data

end Plan

namespace Request

/-- Execute a request, the mode of its operation chosen by `mode`. -/
def runIn (mode : Plan → Mode) (s : Schema) (r : Request) : Run :=
  match r.plan s with
  | .ok p => p.runIn (mode p) s r.rootValue r.data
  | .error (.fault f) => ⟨[], .error f⟩
  | .error f => ⟨[], .ok (.ofFailure f)⟩

/-- Execute a request. -/
def run (s : Schema) (r : Request) : Run := r.runIn Plan.mode s

end Request

/-! ## Requests as they are sent -/

/-- The body of a request as clients send it. -/
structure RequestBody where
  query : String
  operationName? : Option String
  variables? : Option Json
deriving DecidableEq, Inhabited

namespace RequestBody

/-- A string, or null for none. -/
def optionalString? : Json → Option (Option String)
  | .null => some none
  | .str s => some (some s)
  | _ => none

/-- Variables are anything; null is none. -/
def variablesOf : Json → Option Json
  | .null => none
  | v => some v

/-- A body from its three parts. -/
def ofParts? (query operationName vars : Json) : Option RequestBody := do
  let query ← query.string?
  let operationName? ← optionalString? operationName
  some { query, operationName?, variables? := variablesOf vars }

/-- A body from data: an object, unknown keys ignored, or an array of exactly
query, operation name and variables. -/
def ofJson? : Json → Option RequestBody
  | .obj fields => do
    let query ← fields.lookup "query"
    ofParts? query (.ofOption (fields.lookup "operationName"))
      (.ofOption (fields.lookup "variables"))
  | .arr [query, operationName, vars] => ofParts? query operationName vars
  | _ => none

/-- A body as data. -/
def toJson (b : RequestBody) : Json :=
  .obj [("query", .str b.query),
    ("operationName", .ofOption (b.operationName?.map .str)),
    ("variables", .ofOption b.variables?)]

/-- The request of a body. -/
def toRequest (b : RequestBody) : Request :=
  { Request.ofText b.query with
    operation? := b.operationName?
    variables? := b.variables? }

end RequestBody

end GraphQL
