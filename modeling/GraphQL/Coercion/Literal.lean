/-
GraphQL.Coercion.Literal — literals coerced to an input type.

The rule is that of variable values (`GraphQL.Coercion.Input`) with variables
mixed in. A variable stands for its bound value, whatever the type, except that
null may not reach a non-null type; an unbound variable has no value at all. A
list item without a value is null, an input field without one takes its default
or is left out.

The answer `none` means that the literal is an unbound variable.
-/
import GraphQL.Coercion.Binding

namespace GraphQL

/-- The coerced variables of a request. -/
abbrev VariableValues := List (String × Json)

/-- A part of a literal, waiting for the type it is coerced to. -/
abbrev LiteralCoercion := TypeExpr → Except Misfit (Option Json)

/-- What coercion descends into: the items of a list or the fields of an object. -/
inductive Literal.Parts where
  | whole
  | items (parts : List LiteralCoercion)
  | fields (parts : List (String × LiteralCoercion))

namespace Literal

/-- The bound value of a variable at a type. -/
def variableAt (vars : VariableValues) (name : String) : LiteralCoercion := fun t =>
  match vars.lookup name with
  | none => .ok none
  | some v =>
    if v.isNull && t.isNonNull then .error (.nullRefused t.text) else .ok (some v)

/-- An enum's value is one of its names, written without quotation marks. -/
def enumAt (e : EnumType) (typeName : String) (l : Literal) :
    Except Misfit (Option Json) :=
  match l with
  | .enum v =>
    if e.contains v then .ok (some (.str v)) else .error (.notInEnum typeName v)
  | _ => .error (.wrongForm typeName l.text)

/-- An input object has no unknown field; the declared ones are bound in order. -/
def inputObjectAt (o : InputObjectType) (typeName : String)
    (parts : List (String × LiteralCoercion)) : Except Misfit (Option Json) :=
  match (Entries.keys parts).find? fun k => !o.fields.contains k with
  | some k => .error (.undeclared k typeName)
  | none =>
    (bindAll (fun d =>
      match parts.lookup d.name with
      | some c => c d.type
      | none => .ok none) o.fields.items).map fun fields => some (.obj fields)

/-- A literal that is neither null nor a variable at a named type. -/
def atName (s : Schema) (l : Literal) (parts : Parts) (name : String) :
    Except Misfit (Option Json) :=
  match s.type? name with
  | some (.scalar t) => (t.coercion.ofLiteral l).map some
  | some (.enum e) => enumAt e name l
  | some (.inputObject o) =>
    match parts with
    | .fields fs => inputObjectAt o name fs
    | _ => .error (.wrongForm name l.text)
  | _ => .error (.notInput name)

/-- The value of a list item: an item without one is null where that is allowed. -/
def itemValue (item : TypeExpr) (v : Option Json) : Except Misfit Json :=
  match v with
  | some v => .ok v
  | none => if item.isNonNull then .error (.nullRefused item.text) else .ok .null

/-- Every item of a list at one type. -/
def eachItem (item : TypeExpr) (parts : List LiteralCoercion) :
    Except Misfit (List Json) :=
  parts.mapM fun c => (c item).bind (itemValue item)

/-- What a non-null type makes of a coerced value. -/
def refuseNull (t : TypeExpr) (v : Option Json) : Except Misfit (Option Json) :=
  match v with
  | some .null => .error (.nullRefused t.text)
  | v => .ok v

/-- A literal that is no variable, with its parts, at a type. -/
def atType (s : Schema) (l : Literal) (parts : Parts) : LiteralCoercion
  | .nonNull t => (atType s l parts t).bind (refuseNull (.nonNull t))
  | .list item =>
    if l.isNull then .ok (some .null)
    else match parts with
      | .items cs => (eachItem item cs).map fun vs => some (.arr vs)
      | _ => (atType s l parts item).map fun v => v.map fun w => .arr [w]
  | .named name => if l.isNull then .ok (some .null) else atName s l parts name

end Literal

mutual

/-- A literal coerced to an input type, bound variables in place. -/
def coerceLiteral (s : Schema) (vars : VariableValues) : Literal → LiteralCoercion
  | .var name => Literal.variableAt vars name
  | .list items =>
    Literal.atType s (.list items) (.items (coerceLiteralItems s vars items))
  | .object fields =>
    Literal.atType s (.object fields) (.fields (coerceLiteralFields s vars fields))
  | .null => Literal.atType s .null .whole
  | .int i => Literal.atType s (.int i) .whole
  | .float x => Literal.atType s (.float x) .whole
  | .string t => Literal.atType s (.string t) .whole
  | .boolean b => Literal.atType s (.boolean b) .whole
  | .enum n => Literal.atType s (.enum n) .whole

/-- The items of a list, each waiting for its type. -/
def coerceLiteralItems (s : Schema) (vars : VariableValues) :
    List Literal → List LiteralCoercion
  | [] => []
  | l :: rest => coerceLiteral s vars l :: coerceLiteralItems s vars rest

/-- The fields of an object, each waiting for its type. -/
def coerceLiteralFields (s : Schema) (vars : VariableValues) :
    List (String × Literal) → List (String × LiteralCoercion)
  | [] => []
  | (k, l) :: rest => (k, coerceLiteral s vars l) :: coerceLiteralFields s vars rest

end

/-! ## The rule case by case -/

theorem coerceLiteralItems_eq_map (s : Schema) (vars : VariableValues) (ls : List Literal) :
    coerceLiteralItems s vars ls = ls.map (coerceLiteral s vars) := by
  induction ls with
  | nil => rfl
  | cons l ls ih => simp [coerceLiteralItems, ih]

theorem coerceLiteralFields_eq_map (s : Schema) (vars : VariableValues)
    (fs : List (String × Literal)) :
    coerceLiteralFields s vars fs = fs.map fun p => (p.1, coerceLiteral s vars p.2) := by
  induction fs with
  | nil => rfl
  | cons p fs ih => obtain ⟨k, l⟩ := p; simp [coerceLiteralFields, ih]

/-- An unbound variable has no value at any type. -/
theorem coerceLiteral_unbound (s : Schema) {vars : VariableValues} {name : String}
    (h : vars.lookup name = none) (t : TypeExpr) :
    coerceLiteral s vars (.var name) t = .ok none := by
  simp [coerceLiteral, Literal.variableAt, h]

/-- A literal list at a list type goes item by item. -/
theorem coerceLiteral_list (s : Schema) (vars : VariableValues) (ls : List Literal)
    (item : TypeExpr) :
    coerceLiteral s vars (.list ls) (.list item) =
      (ls.mapM fun l => (coerceLiteral s vars l item).bind (Literal.itemValue item)).map
        fun vs => some (.arr vs) := by
  simp [coerceLiteral, Literal.atType, Literal.isNull, Literal.eachItem,
    coerceLiteralItems_eq_map, List.mapM_map, Function.comp_def]

end GraphQL
