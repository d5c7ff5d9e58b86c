/-
GraphQL.Number.Binary64 — finite 64-bit binary floating-point numbers as exact
integers.

A `Binary64` is a sign, a mantissa below 2^53 and an exponent between -1074 and
971; its value is ± mantissa · 2^exponent. The field `canonical` leaves one
triple per number, so equality of triples is equality of numbers up to the sign
of zero. Nothing here uses the machine's floating point: every rounding is a
comparison of natural numbers, which the kernel can evaluate.

`Decimal` is the other side: a sign, a coefficient and a power of ten.
`Decimal.round` gives the nearest binary number (ties to the even mantissa), or
an infinity when the number is too large.
-/

namespace GraphQL

/-- 2^52, the least mantissa of a number that is not tiny. -/
def Binary64.leastMantissa : Nat := 4503599627370496

/-- 2^53, which mantissas stay below. -/
def Binary64.mantissaLimit : Nat := 9007199254740992

/-- Mantissa and exponent of a finite binary64: one pair per magnitude. -/
def Binary64.Canonical (mantissa : Nat) (exponent : Int) : Prop :=
  mantissa < mantissaLimit ∧ -1074 ≤ exponent ∧ exponent ≤ 971 ∧
    (exponent = -1074 ∨ leastMantissa ≤ mantissa)

instance (m : Nat) (e : Int) : Decidable (Binary64.Canonical m e) := by
  unfold Binary64.Canonical; infer_instance

/-- A finite number ± mantissa · 2^exponent. -/
structure Binary64 where
  negative : Bool
  mantissa : Nat
  exponent : Int
  canonical : Binary64.Canonical mantissa exponent
deriving DecidableEq

namespace Binary64

/-- Zero with a sign. -/
def zero (negative : Bool) : Binary64 :=
  ⟨negative, 0, -1074, by decide⟩

instance : Inhabited Binary64 := ⟨zero false⟩

/-- The number with these parts, if they are in range. -/
def ofParts? (negative : Bool) (mantissa : Nat) (exponent : Int) : Option Binary64 :=
  if h : Canonical mantissa exponent then some ⟨negative, mantissa, exponent, h⟩ else none

/-- Zero of either sign. -/
def isZero (x : Binary64) : Bool := x.mantissa == 0

/-- Equal as numbers: the sign of zero does not count. -/
def sameValue (x y : Binary64) : Bool := (x.isZero && y.isZero) || x == y

/-- The quotient rounded to the nearest natural number, a half to the even one. -/
def roundQuotient (num den : Nat) : Nat :=
  let q := num / den
  let r := num % den
  if 2 * r < den then q
  else if den < 2 * r then q + 1
  else if q % 2 = 0 then q else q + 1

/-- The exponent of the binary64 grid around a positive quotient: 53 binary
digits, fewer near zero. -/
def gridExponent (num den : Nat) : Int :=
  let shift : Int := (num.log2 : Int) - (den.log2 : Int)
  let below : Bool :=
    if 0 ≤ shift then num < den * Nat.pow 2 shift.toNat
    else num * Nat.pow 2 (-shift).toNat < den
  let e : Int := if below then shift - 53 else shift - 52
  if e < -1074 then -1074 else e

/-- The number nearest to a quotient; none when it exceeds the finite range. -/
def ofQuotient? (negative : Bool) (num den : Nat) : Option Binary64 :=
  if num = 0 then some (zero negative) else
    let e := gridExponent num den
    let m := if 0 ≤ e then roundQuotient num (den * Nat.pow 2 e.toNat)
      else roundQuotient (num * Nat.pow 2 (-e).toNat) den
    if m = mantissaLimit then ofParts? negative leastMantissa (e + 1) else ofParts? negative m e

/-- The number nearest to an integer. -/
def ofInt? (i : Int) : Option Binary64 := ofQuotient? (i < 0) i.natAbs 1

/-- The magnitude when it is a natural number. A mantissa below 2^53 loses a
binary digit under any division by 2^53, so smaller exponents need no division. -/
def natAbs? (x : Binary64) : Option Nat :=
  if x.mantissa = 0 then some 0
  else if 0 ≤ x.exponent then some (x.mantissa * Nat.pow 2 x.exponent.toNat)
  else if x.exponent < -52 then none
  else
    let den := Nat.pow 2 (-x.exponent).toNat
    if x.mantissa % den = 0 then some (x.mantissa / den) else none

/-- The integer this number is, if it is one; both zeros are 0. -/
def toInt? (x : Binary64) : Option Int :=
  x.natAbs?.map fun n => if x.negative then -(n : Int) else n

/-- Zero. -/
def posZero : Binary64 := zero false

/-- One. -/
def one : Binary64 := ⟨false, leastMantissa, -52, by decide⟩

end Binary64

/-! ## Numbers written in decimal -/

/-- A number that may be too large for binary64. -/
inductive FloatValue where
  | finite (value : Binary64)
  | infinite (negative : Bool)
deriving DecidableEq, Inhabited

namespace FloatValue

/-- Equal as numbers: the sign of zero does not count, that of infinity does. -/
def sameValue : FloatValue → FloatValue → Bool
  | .finite x, .finite y => x.sameValue y
  | .infinite a, .infinite b => a == b
  | _, _ => false

/-- The finite number, if it is one. -/
def finite? : FloatValue → Option Binary64
  | .finite x => some x
  | .infinite _ => none

end FloatValue

/-- The number ± coefficient · 10^exponent. -/
structure Decimal where
  negative : Bool
  coefficient : Nat
  exponent : Int
deriving DecidableEq, Inhabited

namespace Decimal

/-- Value of a run of decimal digits; other characters count by their distance from `0`. -/
def ofDigits (ds : List Char) : Nat :=
  ds.foldl (fun n c => n * 10 + (c.toNat - '0'.toNat)) 0

/-- How many decimal digits a positive number has. -/
def digitCount (n : Nat) : Nat := (Nat.toDigits 10 n).length

/-- The nearest binary number. Magnitudes from 10^310 up are infinite and those
below 10^-330 are zero whatever their digits, so the powers of ten that are
computed stay small. -/
def round (d : Decimal) : FloatValue :=
  if d.coefficient = 0 then .finite (.zero d.negative) else
    let top : Int := d.exponent + digitCount d.coefficient
    if 311 < top then .infinite d.negative
    else if top < -330 then .finite (.zero d.negative)
    else
      let nearest :=
        if 0 ≤ d.exponent then
          Binary64.ofQuotient? d.negative (d.coefficient * Nat.pow 10 d.exponent.toNat) 1
        else
          Binary64.ofQuotient? d.negative d.coefficient (Nat.pow 10 (-d.exponent).toNat)
      match nearest with
      | some x => .finite x
      | none => .infinite d.negative

end Decimal

end GraphQL
