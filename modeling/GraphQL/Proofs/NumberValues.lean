/-
GraphQL.Proofs.NumberValues — what numbers and numerals denote.

Numbers of data denote rational numbers, floats exactly (`Number.value`), and a text of decimal
digits denotes an integer, by the place of each digit (`Numeral.Writes`). Against these the
conversions between them are measured.

* `Binary64.toInt?_eq_some_iff` — a float is taken for an integer if it is that integer.
* `Binary64.leastMantissa_le_abs_value` — rounding to a float keeps large integers large, so none
  beyond 64 bits comes back as one of 32 bits (`Binary64.toInt?_of_beyond`).
* `Numeral.readInt64?_eq_some_iff` — reading an integer accepts the numerals of 64 bits.
* `Numeral.writes_toString`, `Numeral.length_toString_le` — the text of an integer is a numeral
  of it, and none is shorter.
-/
import Mathlib.Algebra.Order.Field.Power
import Mathlib.Algebra.Order.Field.Rat
import Mathlib.Data.Nat.Digits.Lemmas
import Mathlib.Tactic.Linarith
import Mathlib.Tactic.NormNum
import Mathlib.Tactic.Positivity
import GraphQL.Number.Basic

namespace GraphQL

/-! ## Values of floats -/

namespace Binary64

/-- The rational number that a float is, its sign apart. -/
def magnitude (x : Binary64) : ℚ := x.mantissa * 2 ^ x.exponent

/-- The rational number that a float is; both zeros are 0. -/
def value (x : Binary64) : ℚ := if x.negative then -x.magnitude else x.magnitude

variable {x : Binary64}

theorem magnitude_nonneg (x : Binary64) : 0 ≤ x.magnitude := by
  unfold magnitude
  positivity

theorem abs_value (x : Binary64) : |x.value| = x.magnitude := by
  unfold value
  split
  · rw [abs_neg, abs_of_nonneg x.magnitude_nonneg]
  · exact abs_of_nonneg x.magnitude_nonneg

/-- A float without fractional digits is a whole number. -/
theorem magnitude_of_exponent_nonneg (h : 0 ≤ x.exponent) :
    x.magnitude = (x.mantissa * 2 ^ x.exponent.toNat : ℕ) := by
  obtain ⟨k, hk⟩ := Int.eq_ofNat_of_zero_le h
  simp [magnitude, hk]

/-- A float with fractional digits is a whole number if they are all zero. -/
theorem magnitude_eq_iff (h : x.exponent < 0) {n : ℕ} :
    x.magnitude = n ↔ x.mantissa = n * 2 ^ (-x.exponent).toNat := by
  obtain ⟨k, hk⟩ := Int.eq_ofNat_of_zero_le (Int.neg_nonneg_of_nonpos h.le)
  have hexponent : x.exponent = -(k : ℤ) := by omega
  have hpos : (0 : ℚ) < 2 ^ k := by positivity
  rw [magnitude, hexponent, zpow_neg, zpow_natCast, neg_neg, Int.toNat_natCast,
    ← div_eq_mul_inv, div_eq_iff hpos.ne']
  exact_mod_cast Iff.rfl

theorem natAbs?_eq_some_iff {n : ℕ} : x.natAbs? = some n ↔ x.magnitude = n := by
  have hmantissa : x.mantissa < 2 ^ 53 := x.canonical.1
  unfold natAbs?
  split
  · next hzero => simp [magnitude, hzero, eq_comm]
  · next hzero =>
    split
    · next hexponent =>
      rw [magnitude_of_exponent_nonneg hexponent, Option.some.injEq, Nat.cast_inj, Nat.pow_eq]
    · next hexponent =>
      rw [magnitude_eq_iff (not_le.1 hexponent)]
      split
      · next hsmall =>
        -- the mantissa is smaller than the place of the ones
        have hplace : 2 ^ 53 ≤ 2 ^ (-x.exponent).toNat :=
          Nat.pow_le_pow_right (by decide) (by omega)
        refine iff_of_false nofun fun heq => ?_
        rcases Nat.eq_zero_or_pos n with rfl | hn
        · exact hzero (by simpa using heq)
        · have hle := Nat.le_mul_of_pos_left (2 ^ (-x.exponent).toNat) hn
          omega
      · have hpos : 0 < 2 ^ (-x.exponent).toNat := Nat.two_pow_pos _
        simp only [Nat.pow_eq]
        split
        · next hdvd =>
          rw [Option.some.injEq, Nat.div_eq_iff_eq_mul_left hpos (Nat.dvd_of_mod_eq_zero hdvd)]
        · next hdvd =>
          refine iff_of_false nofun fun heq => hdvd ?_
          rw [heq, Nat.mul_mod_left]

theorem toInt?_eq (x : Binary64) :
    x.toInt? = x.natAbs?.map fun n : ℕ => if x.negative then -(n : ℤ) else n := by
  unfold toInt?
  cases x.natAbs? <;> rfl

/-- A float is taken for an integer exactly if it is that integer. -/
theorem toInt?_eq_some_iff {i : ℤ} : x.toInt? = some i ↔ x.value = i := by
  rw [toInt?_eq, Option.map_eq_some_iff]
  constructor
  · rintro ⟨n, hn, rfl⟩
    rw [natAbs?_eq_some_iff] at hn
    unfold value
    split <;> simp [hn]
  · intro h
    have habs : x.magnitude = (i.natAbs : ℕ) := by
      rw [← abs_value, h, Nat.cast_natAbs, Int.cast_abs]
    refine ⟨i.natAbs, natAbs?_eq_some_iff.2 habs, ?_⟩
    have hnonneg := x.magnitude_nonneg
    unfold value at h
    split at h
    · next hnegative =>
      have hi : i ≤ 0 := by
        have hcast : (i : ℚ) ≤ 0 := by linarith
        exact_mod_cast hcast
      rw [if_pos hnegative]
      omega
    · next hpositive =>
      have hi : 0 ≤ i := by exact_mod_cast (h ▸ hnonneg)
      rw [if_neg hpositive]
      omega

/-! ## Rounding large integers -/

theorem le_roundQuotient (num den : ℕ) : num / den ≤ roundQuotient num den := by
  unfold roundQuotient
  dsimp only
  split
  · exact le_rfl
  · split
    · exact Nat.le_succ _
    · split
      · exact le_rfl
      · exact Nat.le_succ _

theorem ofParts?_eq_some {negative : Bool} {m : ℕ} {e : ℤ}
    (h : ofParts? negative m e = some x) : x.mantissa = m ∧ x.exponent = e := by
  unfold ofParts? at h
  split at h
  · obtain rfl := Option.some.inj h
    exact ⟨rfl, rfl⟩
  · cases h

/-- The last digit of a float near a large integer is one of its binary digits. -/
theorem gridExponent_of_large {n : ℕ} (hn : leastMantissa ≤ n) :
    52 ≤ n.log2 ∧ gridExponent n 1 = ((n.log2 - 52 : ℕ) : ℤ) := by
  have hne : n ≠ 0 := fun h => by simp [h, leastMantissa] at hn
  have hlog : 52 ≤ n.log2 := (Nat.le_log2 hne).2 hn
  have hself := Nat.log2_self_le hne
  refine ⟨hlog, ?_⟩
  have hone : Nat.log2 1 = 0 := by decide
  simp only [gridExponent, hone, Nat.cast_zero, sub_zero, Nat.cast_nonneg, if_true, Nat.pow_eq,
    Int.toNat_natCast, one_mul, hself.not_gt, decide_false, Bool.false_eq_true, if_false]
  split <;> omega

/-- The float next to a large integer has all its 53 digits before the point. -/
theorem ofQuotient?_of_large {negative : Bool} {n : ℕ} (hn : leastMantissa ≤ n)
    (h : ofQuotient? negative n 1 = some x) : leastMantissa ≤ x.mantissa ∧ 0 ≤ x.exponent := by
  obtain ⟨hlog, hgrid⟩ := gridExponent_of_large hn
  have hne : n ≠ 0 := fun h => by simp [h, leastMantissa] at hn
  have hround : leastMantissa ≤ roundQuotient n (1 * 2 ^ (n.log2 - 52)) := by
    refine le_trans ?_ (le_roundQuotient _ _)
    rw [one_mul, Nat.le_div_iff_mul_le (Nat.two_pow_pos _)]
    have hsum : leastMantissa * 2 ^ (n.log2 - 52) = 2 ^ n.log2 := by
      rw [show leastMantissa = 2 ^ 52 from rfl, ← pow_add, Nat.add_sub_cancel' hlog]
    exact hsum ▸ Nat.log2_self_le hne
  simp only [ofQuotient?, hne, if_false, hgrid, Nat.cast_nonneg, if_true, Nat.pow_eq,
    Int.toNat_natCast] at h
  split at h
  · obtain ⟨hm, he⟩ := ofParts?_eq_some h
    exact ⟨hm.ge, by omega⟩
  · obtain ⟨hm, he⟩ := ofParts?_eq_some h
    exact ⟨hm ▸ hround, by omega⟩

/-- An integer of 53 binary digits or more is not rounded to a smaller one. -/
theorem leastMantissa_le_abs_value {i : ℤ} (hi : leastMantissa ≤ i.natAbs)
    (h : ofInt? i = some x) : (leastMantissa : ℚ) ≤ |x.value| := by
  obtain ⟨hmantissa, hexponent⟩ := ofQuotient?_of_large hi h
  rw [abs_value, magnitude_of_exponent_nonneg hexponent]
  exact_mod_cast hmantissa.trans (Nat.le_mul_of_pos_right _ (Nat.two_pow_pos _))

/-- An integer beyond 64 bits is not rounded to one of 32 bits. -/
theorem toInt?_of_beyond {i j : ℤ} (hi : fitsInt64 i = false)
    (hx : ofInt? i = some x) (hj : x.toInt? = some j) : fitsInt32 j = false := by
  have hlarge : leastMantissa ≤ i.natAbs := by
    simp only [fitsInt64, Bool.and_eq_false_iff, decide_eq_false_iff_not] at hi
    simp only [leastMantissa]
    omega
  have habs := leastMantissa_le_abs_value hlarge hx
  rw [toInt?_eq_some_iff.1 hj] at habs
  have hj : (leastMantissa : ℤ) ≤ |j| := by exact_mod_cast habs
  rw [Int.abs_eq_natAbs] at hj
  simp only [fitsInt32, Bool.and_eq_false_iff, decide_eq_false_iff_not]
  simp only [leastMantissa] at hj
  omega

end Binary64

/-- The rational number that a number of data is. -/
def Number.value : Number → ℚ
  | .int i => i
  | .float x => x.value

/-! ## Numerals -/

namespace Numeral

/-- The number that decimal digits write: the last one counts ones, the one before it tens. -/
def digitsValue (ds : List Char) : ℕ :=
  Nat.ofDigits 10 (ds.reverse.map fun d => d.toNat - '0'.toNat)

/-- Some characters write an integer: decimal digits, at least one, with at most one sign in
front. -/
inductive Writes : List Char → ℤ → Prop
  | unsigned {ds : List Char} (hne : ds ≠ []) (hds : ∀ d ∈ ds, d.isDigit = true) :
      Writes ds (digitsValue ds)
  | plus {ds : List Char} (hne : ds ≠ []) (hds : ∀ d ∈ ds, d.isDigit = true) :
      Writes ('+' :: ds) (digitsValue ds)
  | minus {ds : List Char} (hne : ds ≠ []) (hds : ∀ d ∈ ds, d.isDigit = true) :
      Writes ('-' :: ds) (-digitsValue ds)

variable {cs ds : List Char} {i : ℤ}

theorem digitsValue_eq (ds : List Char) : digitsValue ds = Nat.ofDigitChars 10 ds 0 := by
  rw [digitsValue, Nat.ofDigits_eq_foldr, List.map_reverse, List.foldr_reverse, List.foldl_map,
    Nat.ofDigitChars_eq_foldl]
  simp only [Nat.cast_id, Nat.add_comm]

theorem ofDigits_eq (ds : List Char) : Decimal.ofDigits ds = digitsValue ds := by
  rw [digitsValue_eq, Nat.ofDigitChars_eq_foldl, Decimal.ofDigits]
  simp only [Nat.mul_comm]

theorem digitsValue_lt (hds : ∀ d ∈ ds, d.isDigit = true) : digitsValue ds < 10 ^ ds.length := by
  have h := Nat.ofDigits_lt_base_pow_length (b := 10)
    (l := ds.reverse.map fun d => d.toNat - '0'.toNat) (by decide) fun k hk => ?_
  · simpa [digitsValue] using h
  · obtain ⟨d, hd, rfl⟩ := List.mem_map.1 hk
    have hdigit := Char.isDigit_iff_toNat.1 (hds d (List.mem_reverse.1 hd))
    simp only [Char.reduceToNat] at hdigit ⊢
    omega

/-- No sign is a digit. -/
theorem takeSign_of_digits (hds : ∀ d ∈ ds, d.isDigit = true) : takeSign ds = (false, ds) := by
  unfold takeSign
  split
  · exact absurd (hds '-' List.mem_cons_self) (by decide)
  · exact absurd (hds '+' List.mem_cons_self) (by decide)
  · rfl

/-- A text writes an integer if what is left of it without a sign are digits. -/
theorem writes_iff : Writes cs i ↔
    ((takeSign cs).2 ≠ [] ∧ ∀ d ∈ (takeSign cs).2, d.isDigit = true) ∧
      (if (takeSign cs).1 then -(digitsValue (takeSign cs).2 : ℤ)
        else digitsValue (takeSign cs).2) = i := by
  constructor
  · intro h
    cases h with
    | unsigned hne hds =>
      rw [takeSign_of_digits hds]
      exact ⟨⟨hne, hds⟩, rfl⟩
    | plus hne hds => exact ⟨⟨hne, hds⟩, rfl⟩
    | minus hne hds => exact ⟨⟨hne, hds⟩, rfl⟩
  · unfold takeSign
    split
    · rintro ⟨⟨hne, hds⟩, rfl⟩
      exact .minus hne hds
    · rintro ⟨⟨hne, hds⟩, rfl⟩
      exact .plus hne hds
    · rintro ⟨⟨hne, hds⟩, rfl⟩
      exact .unsigned hne hds

/-- A text writes one integer at most. -/
theorem Writes.unique {j : ℤ} (hi : Writes cs i) (hj : Writes cs j) : i = j :=
  (writes_iff.1 hi).2.symm.trans (writes_iff.1 hj).2

/-- Reading an integer accepts the numerals of those with 64 bits. -/
theorem readInt64?_eq_some_iff : readInt64? cs = some i ↔ Writes cs i ∧ fitsInt64 i = true := by
  rw [writes_iff, readInt64?]
  obtain ⟨negative, ds⟩ := takeSign cs
  simp only [ofDigits_eq]
  have hcheck : (ds.isEmpty || !ds.all Char.isDigit) = true ↔
      ¬ (ds ≠ [] ∧ ∀ d ∈ ds, d.isDigit = true) := by
    rw [not_and_or, not_not, Bool.or_eq_true, List.isEmpty_iff, Bool.not_eq_true',
      ← Bool.not_eq_true, List.all_eq_true]
  by_cases hdigits : ds ≠ [] ∧ ∀ d ∈ ds, d.isDigit = true
  · rw [if_neg (hcheck.not.2 (not_not.2 hdigits)), Option.ite_none_right_eq_some,
      Option.some.injEq]
    constructor
    · rintro ⟨hfits, rfl⟩
      exact ⟨⟨hdigits, rfl⟩, hfits⟩
    · rintro ⟨⟨-, rfl⟩, hfits⟩
      exact ⟨hfits, rfl⟩
  · rw [if_pos (hcheck.2 hdigits)]
    exact iff_of_false nofun fun h => hdigits h.1.1

theorem toList_toString (i : ℤ) : (toString i).toList =
    if 0 ≤ i then Nat.toDigits 10 i.natAbs else '-' :: Nat.toDigits 10 i.natAbs := by
  rw [Int.toString_eq_repr, Int.repr_eq_if]
  split
  · rw [Nat.toList_repr, show i.toNat = i.natAbs by omega]
  · rw [String.toList_append, Nat.toList_repr, show (-i).toNat = i.natAbs by omega]
    rfl

theorem digitsValue_toDigits (n : ℕ) : digitsValue (Nat.toDigits 10 n) = n := by
  rw [digitsValue_eq, Nat.ofDigitChars_toDigits (by decide) (by decide)]

/-- The text of an integer writes it. -/
theorem writes_toString (i : ℤ) : Writes (toString i).toList i := by
  have hdigits : ∀ d ∈ Nat.toDigits 10 i.natAbs, d.isDigit = true := fun d hd =>
    Nat.isDigit_of_mem_toDigits (by decide) (by decide) hd
  rw [toList_toString]
  split
  · have h := Writes.unsigned Nat.toDigits_ne_nil hdigits
    rwa [digitsValue_toDigits, Int.natAbs_of_nonneg ‹0 ≤ i›] at h
  · have h := Writes.minus Nat.toDigits_ne_nil hdigits
    rwa [digitsValue_toDigits, show -(i.natAbs : ℤ) = i by omega] at h

/-- No text that writes an integer is shorter than its own. -/
theorem length_toString_le (h : Writes cs i) : (toString i).length ≤ cs.length := by
  have hlength : ∀ {ds : List Char}, ds ≠ [] → (∀ d ∈ ds, d.isDigit = true) →
      (Nat.toDigits 10 (digitsValue ds)).length ≤ ds.length := fun hne hds =>
    Nat.toDigits_length _ _ _ (List.length_pos_iff.2 hne) (digitsValue_lt hds)
  rw [← String.length_toList, toList_toString]
  cases h with
  | unsigned hne hds => simpa using hlength hne hds
  | plus hne hds => simpa using (hlength hne hds).trans (Nat.le_succ _)
  | minus hne hds =>
    rw [Int.natAbs_neg, Int.natAbs_natCast]
    split
    · exact (hlength hne hds).trans (Nat.le_succ _)
    · exact Nat.succ_le_succ (hlength hne hds)

end Numeral

end GraphQL
