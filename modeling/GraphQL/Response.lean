/-
GraphQL.Response — what a request is answered with.

Data is absent when nothing was executed and null when a null of a non-null
position reached the root. Errors are left out when there are none.
-/
import GraphQL.Failure

namespace GraphQL

/-- The answer to a request. -/
structure Response where
  data? : Option Json
  errors : List ResponseError
deriving DecidableEq, Inhabited

namespace Response

/-- The answer to a request that was not executed. -/
def ofFailure (f : Failure) : Response := ⟨none, f.toErrors⟩

/-- The answer as data. -/
def toJson (r : Response) : Json :=
  let data := match r.data? with
    | some v => [("data", v)]
    | none => []
  let errors :=
    if r.errors.isEmpty then []
    else [("errors", Json.arr (r.errors.map ResponseError.toJson))]
  .obj (data ++ errors)

end Response

end GraphQL
