/-
GraphQL.TypeExpr — a type as it is written on a field, an argument or a variable.

`Int`, `[Int!]`, `[Int!]!`. The wrappers nest freely, repeated non-null wrappers
included; documents only ever write one `!` in a row, schemas built by hand may
hold more.
-/

namespace GraphQL

/-- A type as written: a name, a list of a type, or a type without null. -/
inductive TypeExpr where
  | named (name : String)
  | list (item : TypeExpr)
  | nonNull (of : TypeExpr)
deriving DecidableEq, Inhabited

namespace TypeExpr

/-- A name without null. -/
def required (name : String) : TypeExpr := .nonNull (.named name)

/-- Whether null is excluded. -/
def isNonNull : TypeExpr → Bool
  | .nonNull _ => true
  | _ => false

/-- The type without its outer non-null wrappers: `[Int]!` gives `[Int]`. -/
def nullableType : TypeExpr → TypeExpr
  | .nonNull t => t.nullableType
  | t => t

/-- The innermost name: `[Int!]!` gives `Int`. -/
def baseName : TypeExpr → String
  | .named n => n
  | .list t => t.baseName
  | .nonNull t => t.baseName

/-- The text of a type. -/
def text : TypeExpr → String
  | .named n => n
  | .list t => "[" ++ t.text ++ "]"
  | .nonNull t => t.text ++ "!"

/-! ## Types read from text -/

/-- The characters that a name in a type does not have. -/
def isMark (c : Char) : Bool := c == '[' || c == ']' || c == '!'

/-- Wrap a type once for each exclamation mark that follows it. -/
def wrap (t : TypeExpr) : List Char → TypeExpr × List Char
  | '!' :: rest => wrap (.nonNull t) rest
  | rest => (t, rest)

/-- The type a text starts with, and the rest; `n` bounds the nesting of lists. -/
def read? : Nat → List Char → Option (TypeExpr × List Char)
  | 0, _ => none
  | n + 1, '[' :: rest =>
    match read? n rest with
    | some (item, ']' :: rest) => some (wrap (.list item) rest)
    | _ => none
  | _ + 1, cs =>
    some (wrap (.named (String.ofList (cs.takeWhile fun c => !isMark c)))
      (cs.dropWhile fun c => !isMark c))

/-- The type a text writes; any number of exclamation marks may follow a type. -/
def ofText? (s : String) : Option TypeExpr :=
  match read? (s.toList.length + 1) s.toList with
  | some (t, []) => some t
  | _ => none

/-! ## Laws -/

/-- Stripping leaves a name or a list. -/
theorem isNonNull_nullableType (t : TypeExpr) : t.nullableType.isNonNull = false := by
  induction t with
  | named => rfl
  | list => rfl
  | nonNull t ih => exact ih

/-- Non-null wrappers do not change the innermost name. -/
@[simp] theorem baseName_nullableType (t : TypeExpr) : t.nullableType.baseName = t.baseName := by
  induction t with
  | named => rfl
  | list => rfl
  | nonNull t ih => exact ih

end TypeExpr

end GraphQL
