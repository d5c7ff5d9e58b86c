/-
GraphQL.Execution.Fetching — the value of one field.

The arguments are coerced, the resolver is called, and whatever happens becomes
a value with errors: an argument that does not fit, an error of the resolver and
its breakdown each give null and one error at the field. Deferred work is waited
for before the outcome is looked at.
-/
import GraphQL.Execution.Job
import GraphQL.Execution.Place

namespace GraphQL

/-- What the execution of an operation has at hand. -/
structure Environment where
  scope : Scope
  data : RequestData

/-- The schema of an execution. -/
def Environment.schema (env : Environment) : Schema := env.scope.schema

/-- The value of a field before completion, with the errors of its resolver. -/
structure Fetched where
  value : Json
  errors : List ResponseError
deriving DecidableEq, Inhabited

namespace Fetched

/-- No value and one error. -/
def failed (e : ResponseError) : Fetched := ⟨.null, [e]⟩

/-- The message of a breakdown that has none. -/
def defaultBreakdown : String := "Resolver panicked."

/-- What an outcome comes to at a field. -/
def ofOutcome (p : Place) (field : Position) : Outcome → Fetched
  | .value v => ⟨v, []⟩
  | .absent => ⟨.null, []⟩
  | .partialValue v errors => ⟨v, errors.map fun e => .ofResolver e p.path field⟩
  | .failure e => failed (.ofResolver e p.path field)
  | .breakdown message? => failed (p.error (message?.getD defaultBreakdown))

end Fetched

/-- The job of a fetch for the field at a path. -/
def Fetch.job (path : Path) : Fetch → Job Outcome
  | .finish o => .done o
  | .defer work => work.job path
  | .suspend next => .suspend (.emit (.resumed path) fun _ => next.job path)
  | .log entry next => .emit (.logged entry) fun n => (next n).job path

/-- The value of the field at a place of an object value. The root has no field and
no value. -/
def Environment.fetchField (env : Environment) (source : Json) (d : FieldDefinition)
    (p : Place) : Job Fetched :=
  match p.group? with
  | none => .done ⟨.null, []⟩
  | some g =>
    match coerceArgumentValues env.schema env.scope.vars d.arguments.items g.arguments with
    | .error e =>
      .done (.failed (p.error
        ("Argument error on field \"" ++ g.name ++ "\": " ++ e.message)))
    | .ok arguments =>
      let call : ResolverCall := { source, arguments, site := p.site, data := env.data }
      .emit (.invoked call) fun _ =>
        ((d.resolver?.getD Resolver.property call).job p.path).map
          (Fetched.ofOutcome p g.position)

end GraphQL
