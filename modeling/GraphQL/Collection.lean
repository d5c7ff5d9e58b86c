/-
GraphQL.Collection — the fields of an object, grouped by response key.

Execution selects fields on one object type at a time. The occurrences of fields
that apply to it (`Selection`) are grouped by response key; the groups stand in
the order in which their keys were first met, and a group holds each selection
of the document once. Only the first selection of a group says which field is
resolved and with which arguments; the sub-selections of all of them are
collected for the value.
-/
import GraphQL.Selection

namespace GraphQL

/-- The selections of one response key. -/
structure FieldGroup where
  first : Field
  rest : List Field
deriving Inhabited

namespace FieldGroup

/-- The group of one selection. -/
def single (f : Field) : FieldGroup := ⟨f, []⟩

/-- All selections in the order they were met. -/
def fields (g : FieldGroup) : List Field := g.first :: g.rest

/-- The response key. -/
def key (g : FieldGroup) : String := g.first.node.responseKey

/-- The name of the field. -/
def name (g : FieldGroup) : String := g.first.node.name

/-- The arguments as written. -/
def arguments (g : FieldGroup) : List (String × Literal) := g.first.node.arguments

/-- The position of the field in errors. -/
def position (g : FieldGroup) : Position := g.first.node.position

/-- The group with one more selection, unless it already has it. -/
def add (g : FieldGroup) (f : Field) : FieldGroup :=
  if g.fields.any fun h => h.node.number == f.node.number then g
  else { g with rest := g.rest ++ [f] }

end FieldGroup

/-- The selections of an object, grouped. -/
abbrev FieldGroups := List FieldGroup

namespace FieldGroups

/-- Add a selection to the group of its key, or as a new group at the end. -/
def add (f : Field) : FieldGroups → FieldGroups
  | [] => [.single f]
  | g :: gs => if g.key = f.node.responseKey then g.add f :: gs else g :: add f gs

/-- The groups of selections in the order they were met. -/
def ofFields (fs : List Field) : FieldGroups := fs.foldl (fun gs f => add f gs) []

/-- The response keys in order. -/
def keys (gs : FieldGroups) : List String := gs.map FieldGroup.key

/-- The group of a key. -/
def get? (gs : FieldGroups) (key : String) : Option FieldGroup :=
  gs.find? fun g => g.key == key

end FieldGroups

/-! ## Collection -/

namespace Scope

/-- A type condition keeps an object type that is possible for it. -/
def restrictObject (sc : Scope) (condition object : String) : Option String :=
  if sc.schema.covers condition object then some object else none

/-- The fields of selection sets that apply to an object type, in the order met. -/
def fieldsOn (sc : Scope) (object : String) (sets : List SelectionSet) : List Field :=
  sets.flatMap fun set =>
    (sc.occurrences sc.restrictObject set object).map Occurrence.field

/-- The groups of a selection set for an object type. -/
def groups (sc : Scope) (object : String) (set : SelectionSet) : FieldGroups :=
  .ofFields (sc.fieldsOn object [set])

/-- The groups of the sub-selections of a group, for the object type of its value. -/
def subGroups (sc : Scope) (g : FieldGroup) (object : String) : FieldGroups :=
  .ofFields (sc.fieldsOn object (g.fields.map Field.selections))

end Scope

/-! ## Keys of groups -/

@[simp] theorem FieldGroup.key_add (g : FieldGroup) (f : Field) : (g.add f).key = g.key := by
  unfold FieldGroup.add; split <;> rfl

/-- A selection with a new key starts a group at the end; any other joins one. -/
theorem FieldGroups.keys_add (f : Field) (gs : FieldGroups) :
    FieldGroups.keys (FieldGroups.add f gs) =
      if f.node.responseKey ∈ FieldGroups.keys gs then FieldGroups.keys gs
      else FieldGroups.keys gs ++ [f.node.responseKey] := by
  induction gs with
  | nil => simp [add, keys, FieldGroup.single, FieldGroup.key]
  | cons g gs ih =>
    by_cases h : g.key = f.node.responseKey
    · simp [add, keys, h]
    · have h' : ¬ f.node.responseKey = g.key := fun e => h e.symm
      simp only [keys] at ih
      by_cases hm : f.node.responseKey ∈ gs.map FieldGroup.key
      · simp only [add, keys, h, if_false, List.map_cons, ih, hm, if_true, List.mem_cons,
          or_true]
      · simp only [add, keys, h, if_false, List.map_cons, ih, hm, List.mem_cons, h', or_self,
          List.cons_append]

end GraphQL
