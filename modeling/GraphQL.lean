import GraphQL.Normal
import GraphQL.Request
import GraphQL.Json.Reader
import GraphQL.Proofs.Conformance
import GraphQL.Proofs.NullPropagation
import GraphQL.Proofs.ScheduleIndependence
import GraphQL.Proofs.FailureIsolation
import GraphQL.Proofs.OnePass
import GraphQL.Proofs.Coverage
import GraphQL.Proofs.SerialExecution
import GraphQL.Proofs.Grouping
import GraphQL.Proofs.Traversal
import GraphQL.Proofs.InputPlaces
import GraphQL.Proofs.Spelling
import GraphQL.Proofs.InputConformance
import GraphQL.Proofs.Arguments
import GraphQL.Proofs.Incidents
import GraphQL.Proofs.FetchedOnce
import GraphQL.Proofs.Explanation
import GraphQL.Proofs.Inlining
import GraphQL.Proofs.FragmentCycles
import GraphQL.Proofs.ClosedSchemas
import GraphQL.Proofs.Rejection
import GraphQL.Proofs.Locations
import GraphQL.Proofs.NormalTypes
import GraphQL.Proofs.CycleDetection
import GraphQL.Proofs.InlinedExecution
import GraphQL.Proofs.InputFixedPoints
import GraphQL.Proofs.CycleSearch
import GraphQL.Proofs.ValidationRules
import GraphQL.Proofs.NormalDepth
import GraphQL.Proofs.NodeIdentity
import GraphQL.Proofs.RepeatedSpreads
import GraphQL.Proofs.NonNullInput
import GraphQL.Proofs.ReportedOnce
import GraphQL.Proofs.DirectiveConditions
import GraphQL.Proofs.PartialNodes
import GraphQL.Proofs.VariableCoercion
import GraphQL.Proofs.ParallelLevels
import GraphQL.Proofs.BuiltinScalars
import GraphQL.Proofs.TreeLookup
