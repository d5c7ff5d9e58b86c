/-
GraphQL.Coercion.Input — variable values coerced to an input type.

The type decides at each place: a non-null type refuses `null` and every other
type lets it through; a list type takes an array item by item and any other
value as the only item; a named type is a scalar, an enum or an input object.
The fields of an input object come out in the order of their declaration.

Coercion descends into the value and into the type at once. The recursion here
is on the value alone: its parts are turned into functions of the type they will
be coerced to, and `Input.atType` then walks the type. The equations
`coerceInput_*` give the rule case by case.
-/
import GraphQL.Coercion.Binding

namespace GraphQL

/-- A part of a value, waiting for the type it is coerced to. -/
abbrev InputCoercion := TypeExpr → Except Misfit Json

/-- What coercion descends into: the items of an array or the fields of an object. -/
inductive Input.Parts where
  | whole
  | items (parts : List InputCoercion)
  | fields (parts : List (String × InputCoercion))

namespace Input

/-- An enum's value is one of its names. -/
def enumValue (e : EnumType) (name : String) (v : Json) : Except Misfit Json :=
  match v with
  | .str s => if e.contains s then .ok v else .error (.notInEnum name v.text)
  | _ => .error (.notInEnum name v.text)

/-- An input object has no unknown field; the declared ones are bound in order. -/
def inputObject (o : InputObjectType) (name : String) (parts : List (String × InputCoercion)) :
    Except Misfit Json :=
  match (Entries.keys parts).find? fun k => !o.fields.contains k with
  | some k => .error (.undeclared k name)
  | none =>
    (bindAll (fun d =>
      match parts.lookup d.name with
      | some c => (c d.type).map some
      | none => .ok none) o.fields.items).map .obj

/-- A value that is not null at a named type. -/
def atName (s : Schema) (v : Json) (parts : Parts) (name : String) : Except Misfit Json :=
  match s.type? name with
  | some (.scalar t) => t.coercion.ofValue v
  | some (.enum e) => enumValue e name v
  | some (.inputObject o) =>
    match parts with
    | .fields fs => inputObject o name fs
    | _ => .error (.unrepresentable name v.text)
  | _ => .error (.notInput name)

/-- Every item of an array at one type. -/
def eachItem (item : TypeExpr) (parts : List InputCoercion) : Except Misfit (List Json) :=
  parts.mapM (· item)

/-- A value with its parts at a type. -/
def atType (s : Schema) (v : Json) (parts : Parts) : InputCoercion
  | .nonNull t =>
    if v.isNull then .error (.nullRefused (TypeExpr.nonNull t).text) else atType s v parts t
  | .list item =>
    if v.isNull then .ok .null
    else match parts with
      | .items cs => (eachItem item cs).map .arr
      | _ => (atType s v parts item).map fun w => .arr [w]
  | .named name => if v.isNull then .ok .null else atName s v parts name

end Input

mutual

/-- A variable's value coerced to an input type. -/
def coerceInput (s : Schema) : Json → InputCoercion
  | .arr items => Input.atType s (.arr items) (.items (coerceItems s items))
  | .obj fields => Input.atType s (.obj fields) (.fields (coerceFields s fields))
  | .null => Input.atType s .null .whole
  | .bool b => Input.atType s (.bool b) .whole
  | .num n => Input.atType s (.num n) .whole
  | .str t => Input.atType s (.str t) .whole

/-- The items of an array, each waiting for its type. -/
def coerceItems (s : Schema) : List Json → List InputCoercion
  | [] => []
  | v :: rest => coerceInput s v :: coerceItems s rest

/-- The fields of an object, each waiting for its type. -/
def coerceFields (s : Schema) : List (String × Json) → List (String × InputCoercion)
  | [] => []
  | (k, v) :: rest => (k, coerceInput s v) :: coerceFields s rest

end

/-! ## The rule case by case -/

/-- The parts of a value as coercion sees them. -/
def Input.parts (s : Schema) : Json → Input.Parts
  | .arr items => .items (coerceItems s items)
  | .obj fields => .fields (coerceFields s fields)
  | _ => .whole

theorem coerceInput_eq (s : Schema) (v : Json) :
    coerceInput s v = Input.atType s v (Input.parts s v) := by
  cases v <;> simp [coerceInput, Input.parts]

theorem coerceItems_eq_map (s : Schema) (vs : List Json) :
    coerceItems s vs = vs.map (coerceInput s) := by
  induction vs with
  | nil => rfl
  | cons v vs ih => simp [coerceItems, ih]

theorem coerceFields_eq_map (s : Schema) (fs : List (String × Json)) :
    coerceFields s fs = fs.map fun p => (p.1, coerceInput s p.2) := by
  induction fs with
  | nil => rfl
  | cons p fs ih => obtain ⟨k, v⟩ := p; simp [coerceFields, ih]

/-- A non-null type refuses null and otherwise changes nothing. -/
theorem coerceInput_nonNull (s : Schema) (v : Json) (t : TypeExpr) :
    coerceInput s v (.nonNull t) =
      if v.isNull then .error (.nullRefused (TypeExpr.nonNull t).text)
      else coerceInput s v t := by
  simp only [coerceInput_eq, Input.atType]

/-- Null fits every type that is not non-null. -/
theorem coerceInput_null (s : Schema) {t : TypeExpr} (h : t.isNonNull = false) :
    coerceInput s .null t = .ok .null := by
  cases t <;> simp_all [coerceInput, Input.atType, Json.isNull, TypeExpr.isNonNull]

/-- An array at a list type goes item by item. -/
theorem coerceInput_list_arr (s : Schema) (vs : List Json) (item : TypeExpr) :
    coerceInput s (.arr vs) (.list item) = (vs.mapM (coerceInput s · item)).map .arr := by
  simp [coerceInput, Input.atType, Json.isNull, Input.eachItem, coerceItems_eq_map,
    List.mapM_map, Function.comp_def]

/-- Any other value at a list type is its only item. -/
theorem coerceInput_list_single (s : Schema) {v : Json} (item : TypeExpr)
    (hn : v ≠ .null) (ha : ∀ vs, v ≠ .arr vs) :
    coerceInput s v (.list item) = (coerceInput s v item).map fun w => .arr [w] := by
  cases v <;> simp_all [coerceInput, Input.atType, Json.isNull]

end GraphQL
