/-
GraphQL.Number.Basic — the numbers of response and variable data.

A number is an integer or a binary64: `1` and `1.0` are different data and stay
so on the way through the library. Integers are unbounded here; text never
produces one beyond 64 bits (see `GraphQL.Json.Reader`).
-/
import GraphQL.Number.Shortest
import GraphQL.Number.Numeral

namespace GraphQL

/-- A number of response or variable data. -/
inductive Number where
  | int (value : Int)
  | float (value : Binary64)
deriving DecidableEq, Inhabited

namespace Number

/-- Floats in data are positional from 0.00001 up to sixteen digits before the
point, `.0` marks an integral one, and of two equally near digit strings the
even one is written. -/
def layout : Layout :=
  { positional := fun e => -5 ≤ e && e ≤ 15, pointZero := true, tie := .toEven }

/-- The text of a number in data and in messages. -/
def text : Number → String
  | .int i => toString i
  | .float x => layout.render x

/-- The value when it is an integer of 64 bits; floats are none. -/
def toInt64? : Number → Option Int
  | .int i => if fitsInt64 i then some i else none
  | .float _ => none

/-- The value as a float, rounded to the nearest. -/
def toBinary64? : Number → Option Binary64
  | .int i => Binary64.ofInt? i
  | .float x => some x

end Number

end GraphQL
