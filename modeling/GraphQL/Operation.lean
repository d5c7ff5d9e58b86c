/-
GraphQL.Operation — which operation of a document runs, and on which type.

A request names its operation, or its document has exactly one. The fields of a
query are selected on the schema's query type, those of a mutation on its
mutation type if it has one; subscriptions are not executed.
-/
import GraphQL.Failure
import GraphQL.Schema.Basic

namespace GraphQL

/-- The operation of a name, the first if several have it, or the only operation. -/
def Document.operation (d : Document) (name? : Option String) :
    Except RequestError Operation :=
  match name? with
  | some name =>
    match d.operations.find? fun o => o.name? == some name with
    | some o => .ok o
    | none => .error (.unknownOperation name)
  | none =>
    match d.operations with
    | [] => .error .noOperation
    | [o] => .ok o
    | _ => .error .ambiguousOperation

/-- The name of the object type that the fields of an operation are selected on. -/
def Operation.rootTypeName (o : Operation) (s : Schema) : Except RequestError String :=
  match o.kind with
  | .query => .ok s.queryType
  | .mutation =>
    match s.mutationType? with
    | some name => .ok name
    | none => .error .mutationsNotConfigured
  | .subscription => .error .notSupported

end GraphQL
