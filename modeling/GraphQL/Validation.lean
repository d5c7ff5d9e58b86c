/-
GraphQL.Validation — what a document must satisfy before it is executed.

The rules: fields exist on the type they are selected on; fragments are known,
stand on known composite types and do not reach themselves; required arguments
are given; leaf fields have no sub-selection and composite ones have one.

Each rule appends its findings where the walk meets the offence, so findings
come in document order. Below an unknown type nothing more can be said about
fields; type conditions and spreads are still checked there.
-/
import GraphQL.Failure
import GraphQL.Schema.Basic

namespace GraphQL

/-- Checks a document against a schema before execution. -/
abbrev Validator := Schema → Document → List Finding

namespace Validation

/-- A finding at a position. -/
def found (p : Position) (e : RequestError) : Finding := ⟨some p, e⟩

/-! ## Type conditions -/

/-- What is wrong with a type condition. -/
def conditionFindings (s : Schema) (name : String) (p : Position) : List Finding :=
  match s.type? name with
  | some t => if t.isComposite then [] else [found p (.fragmentOnNonComposite name)]
  | none => [found p (.unknownType name)]

/-- The type that a condition puts the selections on, if it is a known composite one. -/
def conditionType? (s : Schema) (name : String) : Option String :=
  match s.type? name with
  | some t => if t.isComposite then some name else none
  | none => none

/-! ## Fields -/

/-- Whether an argument is written with something other than `null`. -/
def provides (f : FieldNode) (argument : String) : Bool :=
  f.arguments.any fun a => a.1 == argument && !a.2.isNull

/-- The required arguments that a field does not give. -/
def argumentFindings (d : FieldDefinition) (f : FieldNode) : List Finding :=
  d.arguments.items.filterMap fun a =>
    if a.type.isNonNull && a.default?.isNone && !provides f a.name then
      some (found f.position (.missingArgument f.name a.name a.type.text))
    else none

/-- What is wrong with a field on a type; `below` gives the findings of its
sub-selection on a composite type. -/
def fieldFindings (s : Schema) (parent : String) (f : FieldNode) (hasSelection : Bool)
    (below : String → List Finding) : List Finding :=
  if f.name = "__typename" then []
  else
    match s.field? parent f.name with
    | none => [found f.position (.unknownField f.name parent)]
    | some d =>
      argumentFindings d f ++
        match s.type? d.type.baseName with
        | none => []
        | some t =>
          if t.isLeaf && hasSelection then
            [found f.position (.needlessSelection f.name d.type.text)]
          else if t.isComposite then
            (if hasSelection then []
              else [found f.position (.missingSelection f.name d.type.text)]) ++ below t.name
          else []

/-- The findings in a selection set on a type; none if an enclosing error has
left the type unknown. -/
def selectionFindings (s : Schema) (known : String → Bool) :
    SelectionSet → Option String → List Finding
  | .nil, _ => []
  | .field node sub rest, parent? =>
    (match parent? with
      | some parent =>
        fieldFindings s parent node (!sub.isEmpty) fun t => selectionFindings s known sub (some t)
      | none => []) ++ selectionFindings s known rest parent?
  | .inline head sub rest, parent? =>
    (match head.condition? with
      | some c =>
        conditionFindings s c head.position ++
          selectionFindings s known sub (conditionType? s c)
      | none => selectionFindings s known sub parent?) ++ selectionFindings s known rest parent?
  | .spread sp rest, parent? =>
    (if known sp.name then [] else [found sp.position (.unknownFragment sp.name)]) ++
      selectionFindings s known rest parent?

/-! ## Fragment cycles -/

/-- Go through pending names: the target is found, a fragment still available is
entered, any other name is passed over. -/
def throughPending (target : String) (available : List Fragment)
    (enter : Fragment → List String → Bool) : List String → Bool
  | [] => false
  | name :: rest =>
    if name = target then true
    else
      match available.find? fun f => f.name == name with
      | some f => enter f rest
      | none => throughPending target available enter rest

/-- Whether spreads lead from the pending names to the target. Each fragment is
entered once; `n` bounds how many still are. -/
def reaches (target : String) : Nat → List Fragment → List String → Bool
  | 0, _, pending => pending.contains target
  | n + 1, available, pending =>
    throughPending target available
      (fun f rest =>
        reaches target n (available.filter fun g => g.name != f.name)
          (f.selections.spreads ++ rest))
      pending

/-- Whether a fragment's spreads lead back to its own name. -/
def isCyclic (fragments : Registry Fragment) (f : Fragment) : Bool :=
  reaches f.name fragments.items.length fragments.items f.selections.spreads

/-! ## Documents -/

/-- The type that the fields of an operation are checked on, if the schema has one. -/
def rootTypeName? (s : Schema) : OperationKind → Option String
  | .query => some s.queryType
  | .mutation => s.mutationType?
  | .subscription => s.subscriptionType?

/-- The findings of a definition. -/
def definitionFindings (s : Schema) (fragments : Registry Fragment) :
    Definition → List Finding
  | .operation o =>
    selectionFindings s fragments.contains o.selections (rootTypeName? s o.kind)
  | .fragment f =>
    conditionFindings s f.condition f.position ++
      selectionFindings s fragments.contains f.selections (conditionType? s f.condition) ++
      if isCyclic fragments f then [found f.position (.cyclicFragment f.name)] else []

/-- The findings of a document, definition by definition. -/
def findings : Validator := fun s d =>
  d.definitions.flatMap (definitionFindings s d.fragments)

/-- Accept every document. -/
def permissive : Validator := fun _ _ => []

end Validation

end GraphQL
