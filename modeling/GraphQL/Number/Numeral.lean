/-
GraphQL.Number.Numeral — numbers read from decimal text.

Two readers. `Decimal.ofText?` takes an optional sign, digits with at most one
point (a digit on at least one side of it) and an optional exponent.
`readInt64?` takes an optional sign and digits whose value fits 64 bits with a
sign. Neither admits blanks, separators or other digits than ASCII ones.
-/
import GraphQL.Number.Binary64

namespace GraphQL

/-- The integers of 64 bits with a sign: -2^63 to 2^63 - 1. -/
def fitsInt64 (i : Int) : Bool := -9223372036854775808 ≤ i && i ≤ 9223372036854775807

/-- The integers of 32 bits with a sign: -2^31 to 2^31 - 1. -/
def fitsInt32 (i : Int) : Bool := -2147483648 ≤ i && i ≤ 2147483647

/-- The integers of 64 bits without a sign: 0 to 2^64 - 1. -/
def fitsNat64 (i : Int) : Bool := 0 ≤ i && i ≤ 18446744073709551615

namespace Numeral

/-- A leading sign and the rest; true means minus. -/
def takeSign : List Char → Bool × List Char
  | '-' :: r => (true, r)
  | '+' :: r => (false, r)
  | r => (false, r)

/-- The digits a text starts with, and the rest. -/
def takeDigits (cs : List Char) : List Char × List Char :=
  (cs.takeWhile Char.isDigit, cs.dropWhile Char.isDigit)

/-- The exponent after a mantissa: nothing, or `e`, an optional sign and digits to the end. -/
def exponent? : List Char → Option Int
  | [] => some 0
  | c :: r =>
    if c = 'e' ∨ c = 'E' then
      let (negative, ds) := takeSign r
      if ds.isEmpty || !ds.all Char.isDigit then none
      else some (if negative then -(Decimal.ofDigits ds : Int) else Decimal.ofDigits ds)
    else none

end Numeral

/-- The number written by a decimal text. -/
def Decimal.ofText? (cs : List Char) : Option Decimal :=
  let (negative, r) := Numeral.takeSign cs
  let (whole, r) := Numeral.takeDigits r
  let (fraction, r) := match r with
    | '.' :: r => Numeral.takeDigits r
    | r => ([], r)
  if whole.isEmpty && fraction.isEmpty then none
  else (Numeral.exponent? r).map fun e =>
    ⟨negative, Decimal.ofDigits (whole ++ fraction), e - fraction.length⟩

/-- The 64-bit integer written by a text of digits. -/
def readInt64? (cs : List Char) : Option Int :=
  let (negative, ds) := Numeral.takeSign cs
  if ds.isEmpty || !ds.all Char.isDigit then none
  else
    let n : Int := if negative then -(Decimal.ofDigits ds : Int) else Decimal.ofDigits ds
    if fitsInt64 n then some n else none

end GraphQL
