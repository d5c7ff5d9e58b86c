/-
GraphQL.Json.Printer — data as compact text.

No blanks anywhere, keys in order, numbers by `Number.text`. In strings the
quotation mark, the backslash and the characters below U+0020 are escaped, the
five of them that have a short escape by that; everything else stands as it is.
The same text appears in responses and inside error messages.
-/
import GraphQL.Json.Basic

namespace GraphQL.Json

/-- Four lower-case hexadecimal digits of a small number. -/
def hex4 (n : Nat) : List Char :=
  [n / 4096 % 16, n / 256 % 16, n / 16 % 16, n % 16].map Nat.digitChar

/-- A character inside a quoted string. -/
def quotedChar (c : Char) : List Char :=
  if c = '"' then ['\\', '"']
  else if c = '\\' then ['\\', '\\']
  else if c.toNat = 8 then ['\\', 'b']
  else if c.toNat = 12 then ['\\', 'f']
  else if c = '\n' then ['\\', 'n']
  else if c = '\r' then ['\\', 'r']
  else if c = '\t' then ['\\', 't']
  else if c.toNat < 32 then '\\' :: 'u' :: hex4 c.toNat
  else [c]

/-- A string in quotation marks. -/
def quoted (s : String) : List Char :=
  '"' :: s.toList.flatMap quotedChar ++ ['"']

mutual

/-- The characters of a value. -/
def chars : Json → List Char
  | .null => ['n', 'u', 'l', 'l']
  | .bool true => ['t', 'r', 'u', 'e']
  | .bool false => ['f', 'a', 'l', 's', 'e']
  | .num n => n.text.toList
  | .str s => quoted s
  | .arr [] => ['[', ']']
  | .arr (v :: rest) => '[' :: chars v ++ itemChars rest
  | .obj [] => ['{', '}']
  | .obj ((k, v) :: rest) => '{' :: quoted k ++ ':' :: chars v ++ fieldChars rest

/-- The items after the first, and the closing bracket. -/
def itemChars : List Json → List Char
  | [] => [']']
  | v :: rest => ',' :: chars v ++ itemChars rest

/-- The fields after the first, and the closing brace. -/
def fieldChars : List (String × Json) → List Char
  | [] => ['}']
  | (k, v) :: rest => ',' :: quoted k ++ ':' :: chars v ++ fieldChars rest

end

/-- The compact text of a value. -/
def text (v : Json) : String := String.ofList v.chars

end GraphQL.Json
