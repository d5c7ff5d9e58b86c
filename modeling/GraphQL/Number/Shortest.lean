/-
GraphQL.Number.Shortest — the fewest decimal digits that read back as a given
binary number, and how a format lays them out.

A positive binary number owns an interval: the reals that round to it. Its ends
lie half a step away (a quarter step below a power of two) and belong to it when
the mantissa is even. `Binary64.shortest` looks at the decimal grids with 1, 2,
… 17 digits in turn and takes the first one on which a neighbour of the number
lies in the interval: of two such neighbours the nearer, and `Tie` says which
when both are equally near. All comparisons are between natural numbers.

`Layout` holds a format's own decisions: which exponents are written without an
exponent part, whether an integral number keeps `.0`, and the tie.
-/
import GraphQL.Number.Binary64

namespace GraphQL

/-- Which of two equally near digit strings is taken. -/
inductive Tie where
  | toEven
  | up
deriving DecidableEq

/-- Decimal digits d₁d₂…dₙ with the exponent of the first: d₁.d₂…dₙ · 10^exponent. -/
structure Digits where
  digits : List Char
  exponent : Int
deriving DecidableEq

namespace Digits

/-- The digits of `coefficient · 10^grid` without trailing zeros. -/
def ofGrid (coefficient : Nat) (grid : Int) : Digits :=
  let ds := Nat.toDigits 10 coefficient
  let kept := (ds.reverse.dropWhile (· == '0')).reverse
  ⟨if kept.isEmpty then ['0'] else kept, (ds.length : Int) - 1 + grid⟩

end Digits

/-! ## The interval of a number -/

/-- The reals that round to a positive binary number: `lower / den` to
`upper / den` around `centre / den`, ends included if `closed`. -/
structure Binary64.Interval where
  lower : Nat
  centre : Nat
  upper : Nat
  den : Nat
  closed : Bool

namespace Binary64

/-- In quarters of the number's last binary digit: 4·mantissa in the middle, two
quarters to each side, one quarter below a power of two with a finer grid under it. -/
def interval (x : Binary64) : Interval :=
  let below := if x.mantissa = leastMantissa ∧ x.exponent ≠ -1074 then 1 else 2
  let unit := if 2 ≤ x.exponent then Nat.pow 2 (x.exponent - 2).toNat else 1
  let den := if 2 ≤ x.exponent then 1 else Nat.pow 2 (2 - x.exponent).toNat
  { lower := (4 * x.mantissa - below) * unit
    centre := 4 * x.mantissa * unit
    upper := (4 * x.mantissa + 2) * unit
    den := den
    closed := x.mantissa % 2 = 0 }

namespace Interval

/-- The exponent of the first decimal digit of the centre. -/
def firstExponent (i : Interval) : Int :=
  if i.den ≤ i.centre then (Decimal.digitCount (i.centre / i.den) : Int) - 1
  else -(Decimal.digitCount ((i.den + i.centre - 1) / i.centre - 1) : Int)

/-- The better of the centre's two neighbours on the grid of multiples of
10^grid, if one of them lies in the interval. -/
def onGrid? (i : Interval) (tie : Tie) (grid : Int) : Option Nat :=
  let scale := if 0 ≤ grid then 1 else Nat.pow 10 (-grid).toNat
  let spacing := if 0 ≤ grid then i.den * Nat.pow 10 grid.toNat else i.den
  let inside (d : Nat) : Bool :=
    if i.closed then i.lower * scale ≤ d * spacing ∧ d * spacing ≤ i.upper * scale
    else i.lower * scale < d * spacing ∧ d * spacing < i.upper * scale
  let d := i.centre * scale / spacing
  let below := i.centre * scale - d * spacing
  let above := (d + 1) * spacing - i.centre * scale
  match inside d, inside (d + 1) with
  | true, true =>
    if below < above then some d
    else if above < below then some (d + 1)
    else match tie with
      | .up => some (d + 1)
      | .toEven => some (if d % 2 = 0 then d else d + 1)
  | true, false => some d
  | false, true => some (d + 1)
  | false, false => none

/-- The first grid of at most 17 digits with a point in the interval; 17 always
suffice for a binary64. -/
def shortest (i : Interval) (tie : Tie) : Digits :=
  let first := i.firstExponent
  let onDigits (n : Nat) : Option Digits :=
    let grid := first - n
    (i.onGrid? tie grid).map fun d => Digits.ofGrid d grid
  ((List.range 17).findSome? onDigits).getD ⟨['0'], 0⟩

end Interval

/-- The fewest digits that read back as the magnitude of this number. -/
def shortest (x : Binary64) (tie : Tie) : Digits :=
  if x.isZero then ⟨['0'], 0⟩ else x.interval.shortest tie

end Binary64

/-! ## Layout -/

/-- How a format writes a floating-point number. -/
structure Layout where
  /-- Exponents of the first digit that are written without an exponent part. -/
  positional : Int → Bool
  /-- Whether an integral number ends in `.0`. -/
  pointZero : Bool
  tie : Tie

namespace Layout

/-- The digits with a point at its place and zeros up to it. -/
def placed (l : Layout) (d : Digits) : List Char :=
  let n : Int := d.digits.length
  if n - 1 ≤ d.exponent then
    d.digits ++ List.replicate (d.exponent - (n - 1)).toNat '0' ++
      (if l.pointZero then ['.', '0'] else [])
  else if 0 ≤ d.exponent then
    d.digits.take (d.exponent.toNat + 1) ++ '.' :: d.digits.drop (d.exponent.toNat + 1)
  else
    '0' :: '.' :: List.replicate (-d.exponent - 1).toNat '0' ++ d.digits

/-- One digit before the point and a signed exponent. -/
def scientific (d : Digits) : List Char :=
  let mantissa := match d.digits with
    | a :: b :: rest => a :: '.' :: b :: rest
    | short => short
  mantissa ++ 'e' :: (if d.exponent < 0 then '-' else '+') :: Nat.toDigits 10 d.exponent.natAbs

/-- The text of a number. -/
def render (l : Layout) (x : Binary64) : String :=
  let d := x.shortest l.tie
  let body := if l.positional d.exponent then l.placed d else scientific d
  String.ofList (if x.negative then '-' :: body else body)

end Layout

end GraphQL
