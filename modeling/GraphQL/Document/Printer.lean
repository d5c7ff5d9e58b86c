/-
GraphQL.Document.Printer — literals as text.

The text appears in messages about values that cannot be coerced. Floats are
always positional and an integral one has no point. A string is written in
quotation marks unless it has several lines of printable characters; then it is
a block indented by two spaces.
-/
import GraphQL.Document.Literal
import GraphQL.Number.Shortest
import GraphQL.Text

namespace GraphQL.Literal

/-- Floats in documents never have an exponent, and of two equally near digit
strings the greater is written. -/
def layout : Layout := { positional := fun _ => true, pointZero := false, tie := .up }

/-- The text of a float. -/
def floatText : FloatValue → List Char
  | .finite x => (layout.render x).toList
  | .infinite false => ['i', 'n', 'f']
  | .infinite true => ['-', 'i', 'n', 'f']

/-! ## Strings -/

/-- The characters that may stand in a string as they are, line breaks and tabs
among them. -/
def isPrintable (c : Char) : Bool :=
  c == '\n' || c == '\r' || c == '\t' || (0x20 ≤ c.toNat && c.toNat ≤ 0xFFFF)

/-- A decimal number with at least four digits. -/
def padded4 (n : Nat) : List Char :=
  let ds := Nat.toDigits 10 n
  List.replicate (4 - ds.length) '0' ++ ds

/-- A character inside quotation marks. -/
def quotedChar (c : Char) : List Char :=
  if c = '\r' then ['\\', 'r']
  else if c = '\n' then ['\\', 'n']
  else if c = '\t' then ['\\', 't']
  else if c = '"' then ['\\', '"']
  else if c = '\\' then ['\\', '\\']
  else if isPrintable c then [c]
  else '\\' :: 'u' :: padded4 c.toNat

/-- A line inside a block, every triple quotation mark escaped. -/
def escapeTriple : List Char → List Char
  | '"' :: '"' :: '"' :: r => '\\' :: '"' :: '"' :: '"' :: escapeTriple r
  | c :: r => c :: escapeTriple r
  | [] => []

/-- A line of a block with its line feed; a blank line is empty. -/
def blockLine (line : List Char) : List Char :=
  if line.all Text.isBlank then ['\n'] else ' ' :: ' ' :: escapeTriple line ++ ['\n']

/-- A string in quotation marks or as a block. -/
def stringText (s : String) : List Char :=
  let cs := s.toList
  if !cs.contains '\n' || !cs.all isPrintable then '"' :: cs.flatMap quotedChar ++ ['"']
  else
    ['"', '"', '"', '\n'] ++ (Text.lines cs).flatMap blockLine ++ ['"', '"', '"']

/-! ## Values -/

mutual

/-- The characters of a literal. -/
def chars : Literal → List Char
  | .null => ['n', 'u', 'l', 'l']
  | .var n => '$' :: n.toList
  | .int i => (toString i).toList
  | .float x => floatText x
  | .string s => stringText s
  | .boolean true => ['t', 'r', 'u', 'e']
  | .boolean false => ['f', 'a', 'l', 's', 'e']
  | .enum n => n.toList
  | .list [] => ['[', ']']
  | .list (v :: rest) => '[' :: chars v ++ itemChars rest
  | .object [] => ['{', '}']
  | .object ((k, v) :: rest) => '{' :: k.toList ++ ':' :: ' ' :: chars v ++ fieldChars rest

/-- The items after the first, and the closing bracket. -/
def itemChars : List Literal → List Char
  | [] => [']']
  | v :: rest => ',' :: ' ' :: chars v ++ itemChars rest

/-- The fields after the first, and the closing brace. -/
def fieldChars : List (String × Literal) → List Char
  | [] => ['}']
  | (k, v) :: rest => ',' :: ' ' :: k.toList ++ ':' :: ' ' :: chars v ++ fieldChars rest

end

/-- The text of a literal. -/
def text (v : Literal) : String := String.ofList v.chars

end GraphQL.Literal
