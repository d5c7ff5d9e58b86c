/-
GraphQL.Coercion.Scalar — the conversions of scalar types.

A scalar has three: from a resolved value to the response (`toResult`), from a
variable's value (`ofValue`) and from a literal (`ofLiteral`). The five
built-in scalars are lenient on the way out and strict on the way in: Int
accepts `"7"` and `4.0` from a resolver and neither from a variable.

Whatever a built-in conversion returns is a fixed point of `toResult` and
`ofValue` of the same scalar, so a response value can be sent back as a
variable.
-/
import GraphQL.Coercion.Misfit
import GraphQL.Document.Printer
import GraphQL.Json.Printer

namespace GraphQL

/-- The conversions of a scalar type. -/
structure ScalarCoercion where
  toResult : Json → Except Misfit Json
  ofValue : Json → Except Misfit Json
  ofLiteral : Literal → Except Misfit Json

namespace ScalarCoercion

/-! ## Errors -/

/-- A value that a type cannot represent, shown as text. -/
def cannotRepresent (typeName : String) (v : Json) : Except Misfit Json :=
  .error (.unrepresentable typeName v.text)

/-- A literal that a type does not accept, shown as text. -/
def wrongLiteral (typeName : String) (l : Literal) : Except Misfit Json :=
  .error (.wrongForm typeName l.text)

/-! ## Int -/

/-- An integer of 32 bits, or the error that shows it. -/
def int32 (i : Int) : Except Misfit Json :=
  if fitsInt32 i then .ok (.int i) else .error (.notInt32 (toString i))

/-- A number as an integer of 32 bits: an integral float counts as its integer. -/
def int32OfNumber (n : Number) : Except Misfit Json :=
  match n.toInt64? with
  | some i => int32 i
  | none =>
    match n.toBinary64?.bind Binary64.toInt? with
    | some i => if fitsInt32 i then .ok (.int i) else .error (.notInt32 n.text)
    | none => .error (.notInt32 n.text)

/-- Integers of 32 bits. -/
def int : ScalarCoercion where
  toResult
    | .num n => int32OfNumber n
    | .str s =>
      match readInt64? s.toList with
      | some i => int32 i
      | none => cannotRepresent "Int" (.str s)
    | .bool b => .ok (.int (if b then 1 else 0))
    | v => cannotRepresent "Int" v
  ofValue
    | .num n =>
      match n.toInt64? with
      | some i => int32 i
      | none => cannotRepresent "Int" (.num n)
    | v => cannotRepresent "Int" v
  ofLiteral
    | .int i => int32 i
    | l => wrongLiteral "Int" l

/-! ## Float -/

/-- A number as a float. -/
def floatOfNumber (n : Number) : Except Misfit Json :=
  match n.toBinary64? with
  | some x => .ok (.num (.float x))
  | none => cannotRepresent "Float" (.num n)

/-- Finite 64-bit floats; an integer becomes the nearest float. -/
def float : ScalarCoercion where
  toResult
    | .num n => floatOfNumber n
    | .str s =>
      match (Decimal.ofText? s.toList).bind fun d => d.round.finite? with
      | some x => .ok (.num (.float x))
      | none => cannotRepresent "Float" (.str s)
    | .bool b => .ok (.num (.float (if b then .one else .posZero)))
    | v => cannotRepresent "Float" v
  ofValue
    | .num n => floatOfNumber n
    | v => cannotRepresent "Float" v
  ofLiteral
    | .int i =>
      match Binary64.ofInt? i with
      | some x => .ok (.num (.float x))
      | none => wrongLiteral "Float" (.int i)
    | .float x =>
      match x.finite? with
      | some x => .ok (.num (.float x))
      | none => wrongLiteral "Float" (.float x)
    | l => wrongLiteral "Float" l

/-! ## String, Boolean and ID -/

/-- Strings; numbers and booleans become their text on the way out. -/
def string : ScalarCoercion where
  toResult
    | .str s => .ok (.str s)
    | .num n => .ok (.str n.text)
    | .bool b => .ok (.str (if b then "true" else "false"))
    | v => cannotRepresent "String" v
  ofValue
    | .str s => .ok (.str s)
    | v => cannotRepresent "String" v
  ofLiteral
    | .string s => .ok (.str s)
    | l => wrongLiteral "String" l

/-- Booleans; on the way out a number is true unless it is zero. -/
def boolean : ScalarCoercion where
  toResult
    | .bool b => .ok (.bool b)
    | .num n =>
      match n.toBinary64? with
      | some x => .ok (.bool !x.isZero)
      | none => cannotRepresent "Boolean" (.num n)
    | v => cannotRepresent "Boolean" v
  ofValue
    | .bool b => .ok (.bool b)
    | v => cannotRepresent "Boolean" v
  ofLiteral
    | .boolean b => .ok (.bool b)
    | l => wrongLiteral "Boolean" l

/-- A string, or an integer as its digits. -/
def idOfValue : Json → Except Misfit Json
  | .str s => .ok (.str s)
  | .num (.int i) => .ok (.str (toString i))
  | v => cannotRepresent "ID" v

/-- Identifiers: strings, and integers as their digits. -/
def id : ScalarCoercion where
  toResult := idOfValue
  ofValue := idOfValue
  ofLiteral
    | .string s => .ok (.str s)
    | .int i => .ok (.str (toString i))
    | l => wrongLiteral "ID" l

end ScalarCoercion

end GraphQL
