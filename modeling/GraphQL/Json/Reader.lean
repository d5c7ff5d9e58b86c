/-
GraphQL.Json.Reader — data read from text.

A number without point and exponent that fits 64 bits, with or without a sign,
is an integer; `-0` and every other number is the nearest float, and a number
beyond the finite floats is an error. A repeated key keeps its first place and
its last value. Characters outside the Basic Multilingual Plane may be written
as a pair of surrogates; a lone surrogate is an error.

`Json.value?` spends one unit of fuel per nested value and per item; the length
of the text is always enough.
-/
import GraphQL.Json.Basic
import GraphQL.Text

namespace GraphQL.Json

/-- Drop the blanks allowed between tokens. -/
def skipBlanks (cs : List Char) : List Char :=
  cs.dropWhile fun c => c == ' ' || c == '\n' || c == '\r' || c == '\t'

/-! ## Strings -/

/-- Four hexadecimal digits and the rest. -/
def unit? : List Char → Option (Nat × List Char)
  | a :: b :: c :: d :: r => do
    let a ← Text.hexDigit? a
    let b ← Text.hexDigit? b
    let c ← Text.hexDigit? c
    let d ← Text.hexDigit? d
    some (((a * 16 + b) * 16 + c) * 16 + d, r)
  | _ => none

/-- The character of a code point that is not a surrogate. -/
def scalar? (n : Nat) : Option Char :=
  if n.isValidChar then some (Char.ofNat n) else none

/-- The character written by `\u` and four digits, or by two of these for a
pair of surrogates. -/
def unicodeEscape? (cs : List Char) : Option (Char × List Char) := do
  let (high, r) ← unit? cs
  if 0xD800 ≤ high ∧ high < 0xDC00 then
    match r with
    | '\\' :: 'u' :: r =>
      let (low, r) ← unit? r
      if 0xDC00 ≤ low ∧ low < 0xE000 then
        (scalar? (0x10000 + (high - 0xD800) * 0x400 + (low - 0xDC00))).map (·, r)
      else none
    | _ => none
  else (scalar? high).map (·, r)

/-- The character written by what follows a backslash. -/
def escape? : List Char → Option (Char × List Char)
  | 'u' :: r => unicodeEscape? r
  | '"' :: r => some ('"', r)
  | '\\' :: r => some ('\\', r)
  | '/' :: r => some ('/', r)
  | 'b' :: r => some (Char.ofNat 8, r)
  | 'f' :: r => some (Char.ofNat 12, r)
  | 'n' :: r => some ('\n', r)
  | 'r' :: r => some ('\r', r)
  | 't' :: r => some ('\t', r)
  | _ => none

/-- The characters up to the closing quotation mark, and the rest. -/
def stringBody? : Nat → List Char → Option (List Char × List Char)
  | 0, _ => none
  | _ + 1, [] => none
  | n + 1, c :: r =>
    if c = '"' then some ([], r)
    else if c = '\\' then do
      let (e, r) ← escape? r
      let (body, r) ← stringBody? n r
      some (e :: body, r)
    else if c.toNat < 32 then none
    else do
      let (body, r) ← stringBody? n r
      some (c :: body, r)

/-! ## Numbers -/

/-- The whole part of a number: `0`, or digits without a leading zero. -/
def wholePart? (cs : List Char) : Option (List Char × List Char) :=
  let (ds, r) := Numeral.takeDigits cs
  match ds with
  | [] => none
  | ['0'] => some (ds, r)
  | '0' :: _ => none
  | _ => some (ds, r)

/-- A point and at least one digit, or nothing. -/
def fractionPart? : List Char → Option (List Char × List Char)
  | '.' :: r =>
    let (ds, r) := Numeral.takeDigits r
    if ds.isEmpty then none else some ('.' :: ds, r)
  | r => some ([], r)

/-- `e`, an optional sign and at least one digit, or nothing. -/
def exponentPart? (cs : List Char) : Option (List Char × List Char) :=
  match cs with
  | [] => some ([], [])
  | c :: r =>
    if c = 'e' ∨ c = 'E' then
      let (sign, r) := match r with
        | '+' :: r => (['+'], r)
        | '-' :: r => (['-'], r)
        | r => ([], r)
      let (ds, r) := Numeral.takeDigits r
      if ds.isEmpty then none else some (c :: sign ++ ds, r)
    else some ([], cs)

/-- An integer if the text is one of 64 bits, else the nearest float. -/
def numberOf? (negative : Bool) (whole tail : List Char) : Option Number :=
  let n : Int := Decimal.ofDigits whole
  let i := if negative then -n else n
  if tail.isEmpty && !(negative && n == 0) && (fitsInt64 i || fitsNat64 i) then some (.int i)
  else do
    let d ← Decimal.ofText? (whole ++ tail)
    let x ← (Decimal.round ⟨negative, d.coefficient, d.exponent⟩).finite?
    some (.float x)

/-- The number a text starts with. -/
def number? (cs : List Char) : Option (Number × List Char) := do
  let (negative, r) := match cs with
    | '-' :: r => (true, r)
    | r => (false, r)
  let (whole, r) ← wholePart? r
  let (fraction, r) ← fractionPart? r
  let (exponent, r) ← exponentPart? r
  let n ← numberOf? negative whole (fraction ++ exponent)
  some (n, r)

/-! ## Values -/

mutual

/-- The value a text starts with, and the rest. -/
def value? : Nat → List Char → Option (Json × List Char)
  | 0, _ => none
  | n + 1, cs =>
    match skipBlanks cs with
    | 'n' :: 'u' :: 'l' :: 'l' :: r => some (.null, r)
    | 't' :: 'r' :: 'u' :: 'e' :: r => some (.bool true, r)
    | 'f' :: 'a' :: 'l' :: 's' :: 'e' :: r => some (.bool false, r)
    | '"' :: r => do
      let (s, r) ← stringBody? (r.length + 1) r
      some (.str (String.ofList s), r)
    | '[' :: r =>
      match skipBlanks r with
      | ']' :: r => some (.arr [], r)
      | r => do
        let (items, r) ← items? n r
        some (.arr items, r)
    | '{' :: r =>
      match skipBlanks r with
      | '}' :: r => some (.obj [], r)
      | r => do
        let (fields, r) ← fields? n r
        some (.obj (Entries.ofPairs fields), r)
    | cs => do
      let (x, r) ← number? cs
      some (.num x, r)

/-- Items separated by commas, and what follows the closing bracket. -/
def items? : Nat → List Char → Option (List Json × List Char)
  | 0, _ => none
  | n + 1, cs => do
    let (v, r) ← value? n cs
    match skipBlanks r with
    | ',' :: r =>
      let (vs, r) ← items? n r
      some (v :: vs, r)
    | ']' :: r => some ([v], r)
    | _ => none

/-- Fields separated by commas, and what follows the closing brace. -/
def fields? : Nat → List Char → Option (List (String × Json) × List Char)
  | 0, _ => none
  | n + 1, cs =>
    match skipBlanks cs with
    | '"' :: r => do
      let (k, r) ← stringBody? (r.length + 1) r
      match skipBlanks r with
      | ':' :: r =>
        let (v, r) ← value? n r
        match skipBlanks r with
        | ',' :: r =>
          let (vs, r) ← fields? n r
          some ((String.ofList k, v) :: vs, r)
        | '}' :: r => some ([(String.ofList k, v)], r)
        | _ => none
      | _ => none
    | _ => none

end

/-- The value a text writes, blanks around it allowed. -/
def ofText? (s : String) : Option Json :=
  let cs := s.toList
  match value? (cs.length + 1) cs with
  | some (v, r) => if (skipBlanks r).isEmpty then some v else none
  | none => none

end GraphQL.Json
