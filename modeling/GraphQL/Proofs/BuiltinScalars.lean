/-
GraphQL.Proofs.BuiltinScalars — the built-in scalars are stable, and exact on integers.

Each built-in scalar has values of its own (`ScalarCoercion.Gives`): integers of 32 bits, floats,
strings, booleans, and again strings for identifiers. Its three conversions lead to these from
all that they accept, and the two that start from data leave these as they are. So it does not
matter by which way a value came, nor how often it goes out and comes back in.

What `Int` makes of numbers and texts is measured against what they denote
(`Number.value`, `Numeral.Writes`). The one case that is not plain is an integer beyond 64 bits,
which is only looked at after it has been rounded to a float.

* `ScalarCoercion.int32OfNumber_eq` — what becomes of a number that is an integer.
* `ScalarCoercion.IsBuiltin.gives_of_yields` — all conversions give values of the scalar.
* `ScalarCoercion.Gives.result_fixed` — such a value is left as it is on the way out.
* `ScalarCoercion.builtins_stable` — so all five are stable, and two are exact on integers.
-/
import GraphQL.Proofs.InputFixedPoints
import GraphQL.Proofs.NumberValues

namespace GraphQL

/-- The integers of 32 bits with a sign. -/
def IsInt32 (i : ℤ) : Prop := -2 ^ 31 ≤ i ∧ i ≤ 2 ^ 31 - 1

theorem fitsInt32_iff {i : ℤ} : fitsInt32 i = true ↔ IsInt32 i := by
  simp [fitsInt32, IsInt32]

namespace ScalarCoercion

variable {c : ScalarCoercion} {v w : Json}

/-! ## Integers -/

/-- A number that is an integer becomes that integer if 32 bits are enough for it, and is refused
otherwise. -/
theorem int32OfNumber_eq {n : Number} {i : ℤ} (h : n.value = i) :
    int32OfNumber n = if fitsInt32 i then .ok (.int i) else .error (.notInt32 n.text) := by
  cases n with
  | int j =>
    obtain rfl : j = i := Int.cast_inj.1 h
    cases hfits : fitsInt64 j with
    | true => simp [int32OfNumber, Number.toInt64?, hfits, int32, Number.text]
    | false =>
      have hi : fitsInt32 j = false := by
        by_contra hi
        rw [fitsInt64_of_fitsInt32 (by simpa using hi)] at hfits
        cases hfits
      -- the integer is not looked at before it has been rounded
      cases hround : (Binary64.ofInt? j).bind Binary64.toInt? with
      | none => simp [int32OfNumber, Number.toInt64?, Number.toBinary64?, hfits, hi, hround]
      | some k =>
        obtain ⟨x, hx, hk⟩ := Option.bind_eq_some_iff.1 hround
        simp [int32OfNumber, Number.toInt64?, Number.toBinary64?, hfits, hi, hround,
          Binary64.toInt?_of_beyond hfits hx hk]
  | float x =>
    have hx : x.toInt? = some i := Binary64.toInt?_eq_some_iff.2 h
    simp [int32OfNumber, Number.toInt64?, Number.toBinary64?, hx]

/-- A number that is no integer is refused. -/
theorem int32OfNumber_of_fraction {n : Number} (h : ∀ i : ℤ, n.value ≠ i) :
    int32OfNumber n = .error (.notInt32 n.text) := by
  cases n with
  | int j => exact absurd rfl (h j)
  | float x =>
    have hx : x.toInt? = none := Option.eq_none_iff_forall_ne_some.2 fun i hi =>
      h i (Binary64.toInt?_eq_some_iff.1 hi)
    simp [int32OfNumber, Number.toInt64?, Number.toBinary64?, hx]

theorem int32_eq_ok_iff {i : ℤ} : int32 i = .ok w ↔ IsInt32 i ∧ w = .int i := by
  unfold int32
  split
  · next hi =>
    rw [Except.ok.injEq, eq_comm]
    exact (and_iff_right (fitsInt32_iff.1 hi)).symm
  · next hi => exact iff_of_false nofun fun h => hi (fitsInt32_iff.2 h.1)

theorem int32OfNumber_eq_ok_iff {n : Number} :
    int32OfNumber n = .ok w ↔ ∃ i : ℤ, IsInt32 i ∧ n.value = i ∧ w = .int i := by
  by_cases hvalue : ∃ i : ℤ, n.value = i
  · obtain ⟨i, hi⟩ := hvalue
    rw [int32OfNumber_eq hi]
    split
    · next hfits =>
      refine ⟨fun h => ⟨i, fitsInt32_iff.1 hfits, hi, (Except.ok.inj h).symm⟩, ?_⟩
      rintro ⟨j, -, hj, rfl⟩
      rw [Int.cast_inj.1 (hi.symm.trans hj)]
    · next hfits =>
      refine iff_of_false nofun fun ⟨j, hfits', hj, _⟩ => hfits (fitsInt32_iff.2 ?_)
      rwa [Int.cast_inj.1 (hi.symm.trans hj)]
  · rw [int32OfNumber_of_fraction fun i hi => hvalue ⟨i, hi⟩]
    exact iff_of_false nofun fun ⟨i, _, hi, _⟩ => hvalue ⟨i, hi⟩

theorem cannotRepresent_ne_ok {name : String} : cannotRepresent name v ≠ .ok w := by
  simp [cannotRepresent]

theorem int_ofText_eq_ok_iff {t : String} : ScalarCoercion.int.toResult (.str t) = .ok w ↔
    ∃ i : ℤ, IsInt32 i ∧ Numeral.Writes t.toList i ∧ w = .int i := by
  have hread : ∀ {i : ℤ}, IsInt32 i → Numeral.Writes t.toList i →
      readInt64? t.toList = some i := fun hi hwrites =>
    Numeral.readInt64?_eq_some_iff.2 ⟨hwrites, fitsInt64_of_fitsInt32 (fitsInt32_iff.2 hi)⟩
  simp only [ScalarCoercion.int]
  split
  · next i hi =>
    rw [int32_eq_ok_iff]
    constructor
    · rintro ⟨hfits, rfl⟩
      exact ⟨i, hfits, (Numeral.readInt64?_eq_some_iff.1 hi).1, rfl⟩
    · rintro ⟨j, hfits, hwrites, rfl⟩
      obtain rfl := Option.some.inj (hi.symm.trans (hread hfits hwrites))
      exact ⟨hfits, rfl⟩
  · next hnone =>
    refine iff_of_false cannotRepresent_ne_ok ?_
    rintro ⟨i, hfits, hwrites, -⟩
    rw [hread hfits hwrites] at hnone
    cases hnone

theorem int_ofValue_eq_ok_iff : ScalarCoercion.int.ofValue v = .ok w ↔
    ∃ i : ℤ, IsInt32 i ∧ v = .int i ∧ w = .int i := by
  constructor
  · intro h
    cases v with
    | num n =>
      simp only [ScalarCoercion.int] at h
      split at h
      · next i hi =>
        cases n with
        | int j =>
          simp only [Number.toInt64?, Option.ite_none_right_eq_some, Option.some.injEq] at hi
          obtain ⟨-, rfl⟩ := hi
          obtain ⟨hfits, rfl⟩ := int32_eq_ok_iff.1 h
          exact ⟨j, hfits, rfl, rfl⟩
        | float x => cases hi
      · exact absurd h cannotRepresent_ne_ok
    | _ => exact absurd h cannotRepresent_ne_ok
  · rintro ⟨i, hi, rfl, rfl⟩
    exact (Gives.int (fitsInt32_iff.2 hi)).fixed

theorem int_ofLiteral_eq_ok_iff {l : Literal} : ScalarCoercion.int.ofLiteral l = .ok w ↔
    ∃ i : ℤ, IsInt32 i ∧ l = .int i ∧ w = .int i := by
  constructor
  · intro h
    cases l with
    | int i =>
      obtain ⟨hi, rfl⟩ := int32_eq_ok_iff.1 h
      exact ⟨i, hi, rfl, rfl⟩
    | _ => simp [ScalarCoercion.int, wrongLiteral] at h
  · rintro ⟨i, hi, rfl, rfl⟩
    exact int32_eq_ok_iff.2 ⟨hi, rfl⟩

/-! ## Values that conversions lead to -/

/-- A value that some conversion of a scalar gives. -/
inductive Yields (c : ScalarCoercion) (w : Json) : Prop
  | result {v : Json} (h : c.toResult v = .ok w)
  | value {v : Json} (h : c.ofValue v = .ok w)
  | literal {l : Literal} (h : c.ofLiteral l = .ok w)

/-- What a built-in scalar makes of a resolved value is a value of it, -/
theorem IsBuiltin.gives_of_toResult (hc : c.IsBuiltin) (h : c.toResult v = .ok w) :
    c.Gives w := by
  rcases hc with rfl | rfl | rfl | rfl | rfl
  · cases v with
    | num n =>
      obtain ⟨i, hi, -, rfl⟩ := int32OfNumber_eq_ok_iff.1 h
      exact .int (fitsInt32_iff.2 hi)
    | str t =>
      obtain ⟨i, hi, -, rfl⟩ := int_ofText_eq_ok_iff.1 h
      exact .int (fitsInt32_iff.2 hi)
    | bool b => exact Except.ok.inj h ▸ .int (by cases b <;> rfl)
    | _ => exact absurd h cannotRepresent_ne_ok
  · cases v with
    | num n => exact float_of_floatOfNumber h
    | str t =>
      simp only [ScalarCoercion.float] at h
      split at h
      · exact Except.ok.inj h ▸ .float _
      · exact absurd h cannotRepresent_ne_ok
    | bool b => exact Except.ok.inj h ▸ .float _
    | _ => exact absurd h cannotRepresent_ne_ok
  · cases v with
    | str t => exact Except.ok.inj h ▸ .string _
    | num n => exact Except.ok.inj h ▸ .string _
    | bool b => exact Except.ok.inj h ▸ .string _
    | _ => exact absurd h cannotRepresent_ne_ok
  · cases v with
    | bool b => exact Except.ok.inj h ▸ .boolean _
    | num n =>
      simp only [ScalarCoercion.boolean] at h
      split at h
      · exact Except.ok.inj h ▸ .boolean _
      · exact absurd h cannotRepresent_ne_ok
    | _ => exact absurd h cannotRepresent_ne_ok
  · obtain ⟨t, rfl⟩ := idOfValue_eq_ok h
    exact .id t

/-- and so is what it makes of a literal. -/
theorem IsBuiltin.gives_of_ofLiteral (hc : c.IsBuiltin) {l : Literal}
    (h : c.ofLiteral l = .ok w) : c.Gives w := by
  have hadmits := admits_of_ofLiteral h
  rcases hc with rfl | rfl | rfl | rfl | rfl
  · obtain ⟨i, rfl, hi⟩ := hadmits.int rfl
    exact .int hi
  · simp only [ScalarCoercion.float] at h
    split at h
    · split at h
      · exact Except.ok.inj h ▸ .float _
      · simp [wrongLiteral] at h
    · split at h
      · exact Except.ok.inj h ▸ .float _
      · simp [wrongLiteral] at h
    · simp [wrongLiteral] at h
  · obtain ⟨t, rfl⟩ := hadmits.string rfl
    exact .string t
  · obtain ⟨b, rfl⟩ := hadmits.boolean rfl
    exact .boolean b
  · obtain ⟨t, rfl⟩ := hadmits.id rfl
    exact .id t

/-- All conversions of a built-in scalar give values of it. -/
theorem IsBuiltin.gives_of_yields (hc : c.IsBuiltin) (h : c.Yields w) : c.Gives w := by
  cases h with
  | result h => exact hc.gives_of_toResult h
  | value h => exact hc.gives h
  | literal h => exact hc.gives_of_ofLiteral h

/-- A value of a built-in scalar is left as it is on the way out. -/
theorem Gives.result_fixed (h : c.Gives w) : c.toResult w = .ok w := by
  cases h with
  | int hi => exact int32OfNumber_eq_ok_iff.2 ⟨_, fitsInt32_iff.1 hi, rfl, rfl⟩
  | _ => rfl

/-! ## The built-in scalars -/

/-- What a scalar has given stays as it is, when it goes out once more, and when it comes back
in as the value of a variable that is declared with the scalar, nullable or not. -/
structure Stable (c : ScalarCoercion) : Prop where
  result : ∀ w, c.Yields w → c.toResult w = .ok w
  value : ∀ w, c.Yields w → c.ofValue w = .ok w
  sentBack : ∀ w, c.Yields w → ∀ (s : Schema) (name : String) (t : ScalarType),
    s.type? name = some (.scalar t) → t.coercion = c →
      coerceInput s w (.named name) = .ok w ∧ coerceInput s w (.required name) = .ok w

/-- How a scalar of integers converts: of what comes in it accepts the integers of 32 bits, each
as itself, and of what goes out the numbers and the texts that denote one, as that integer. -/
structure CountsExactly (c : ScalarCoercion) : Prop where
  range : ∀ w, c.Yields w → ∃ i : ℤ, IsInt32 i ∧ w = .int i
  number : ∀ n w, c.toResult (.num n) = .ok w ↔ ∃ i : ℤ, IsInt32 i ∧ n.value = i ∧ w = .int i
  text : ∀ t w, c.toResult (.str t) = .ok w ↔
    ∃ i : ℤ, IsInt32 i ∧ Numeral.Writes t.toList i ∧ w = .int i
  value : ∀ v w, c.ofValue v = .ok w ↔ ∃ i : ℤ, IsInt32 i ∧ v = .int i ∧ w = .int i
  literal : ∀ l w, c.ofLiteral l = .ok w ↔ ∃ i : ℤ, IsInt32 i ∧ l = .int i ∧ w = .int i
  /-- Integers beyond 32 bits are refused, also those that no signed 64 bits hold, -/
  beyond : ∀ (n : Number) (i : ℤ), n.value = i → ¬ IsInt32 i →
    c.toResult (.num n) = .error (.notInt32 n.text) ∧ ∃ e, c.ofValue (.num n) = .error e
  /-- and so are texts that write them. -/
  beyondText : ∀ (t : String) (i : ℤ), Numeral.Writes t.toList i → ¬ IsInt32 i →
    ∃ e, c.toResult (.str t) = .error e

/-- A scalar of texts keeps the digits of integers: whichever way one comes, it becomes the text
that writes it, and no shorter text does. -/
structure KeepsDigits (c : ScalarCoercion) : Prop where
  result : ∀ i : ℤ, c.toResult (.int i) = .ok (.str (toString i))
  value : ∀ i : ℤ, c.ofValue (.int i) = .ok (.str (toString i))
  literal : ∀ i : ℤ, c.ofLiteral (.int i) = .ok (.str (toString i))
  writes : ∀ i : ℤ, Numeral.Writes (toString i).toList i
  shortest : ∀ (i : ℤ) (cs : List Char), Numeral.Writes cs i → (toString i).length ≤ cs.length

theorem IsBuiltin.stable (hc : c.IsBuiltin) : c.Stable where
  result _ h := (hc.gives_of_yields h).result_fixed
  value _ h := (hc.gives_of_yields h).fixed
  sentBack w h s name t ht hcoercion := by
    have hgives : t.coercion.Gives w := hcoercion ▸ hc.gives_of_yields h
    have hcomplete : InputComplete s (.named name) w := .scalar ht hgives
    exact ⟨coerceInput_of_complete hcomplete,
      coerceInput_of_complete (.nonNull hgives.ne_null hcomplete)⟩

theorem countsExactly_int : ScalarCoercion.int.CountsExactly where
  range w h := by
    have hgives := IsBuiltin.gives_of_yields (.inl rfl) h
    obtain ⟨i, rfl, hi⟩ := (admits_of_ofValue hgives.fixed).int rfl
    exact ⟨i, fitsInt32_iff.1 hi, rfl⟩
  number _ _ := int32OfNumber_eq_ok_iff
  text _ _ := int_ofText_eq_ok_iff
  value _ _ := int_ofValue_eq_ok_iff
  literal _ _ := int_ofLiteral_eq_ok_iff
  beyond n i hvalue hi := by
    have hfits : ¬ fitsInt32 i = true := fun h => hi (fitsInt32_iff.1 h)
    refine ⟨(int32OfNumber_eq hvalue).trans (if_neg hfits), ?_⟩
    cases h : ScalarCoercion.int.ofValue (.num n) with
    | error e => exact ⟨e, rfl⟩
    | ok w =>
      obtain ⟨j, hj, hnum, -⟩ := int_ofValue_eq_ok_iff.1 h
      obtain rfl := Json.num.inj hnum
      exact absurd (Int.cast_inj.1 hvalue ▸ hj) hi
  beyondText t i hwrites hi := by
    cases h : ScalarCoercion.int.toResult (.str t) with
    | error e => exact ⟨e, rfl⟩
    | ok w =>
      obtain ⟨j, hj, hwrites', -⟩ := int_ofText_eq_ok_iff.1 h
      exact absurd (hwrites'.unique hwrites ▸ hj) hi

theorem keepsDigits_id : ScalarCoercion.id.KeepsDigits where
  result _ := rfl
  value _ := rfl
  literal _ := rfl
  writes := Numeral.writes_toString
  shortest _ _ := Numeral.length_toString_le

/-- The built-in scalars are stable: whatever any of their conversions gives stays as it is when
it goes out again and when it is sent back as a variable. `Int` is exact on what denotes an
integer and refuses what is beyond 32 bits, and `ID` keeps the digits of integers. -/
theorem builtins_stable : (∀ c : ScalarCoercion, c.IsBuiltin → c.Stable) ∧
    ScalarCoercion.int.CountsExactly ∧ ScalarCoercion.id.KeepsDigits :=
  ⟨fun _ hc => hc.stable, countsExactly_int, keepsDigits_id⟩

/-- The least integer as a text, a float that is the greatest one, and an identifier that only
an unsigned integer of 64 bits holds. -/
theorem builtins_stable_limits :
    let greatest : Binary64 := ⟨false, 2147483647 * 2 ^ 22, -22, by decide⟩
    ScalarCoercion.int.toResult (.str "-2147483648") = .ok (.int (-2147483648)) ∧
      ScalarCoercion.int.ofValue (.int (-2147483648)) = .ok (.int (-2147483648)) ∧
      ScalarCoercion.int.toResult (.num (.float greatest)) = .ok (.int 2147483647) ∧
      greatest.value = (2147483647 : ℤ) ∧
      ScalarCoercion.float.toResult (.str "-0") = .ok (.num (.float (.zero true))) ∧
      ScalarCoercion.float.ofValue (.num (.float (.zero true))) =
        .ok (.num (.float (.zero true))) ∧
      ScalarCoercion.id.ofValue (.int 18446744073709551615) =
        .ok (.str "18446744073709551615") ∧
      Numeral.Writes "18446744073709551615".toList 18446744073709551615 := by
  intro greatest
  obtain ⟨hstable, hint, hid⟩ := builtins_stable
  have hleast : ScalarCoercion.int.toResult (.str "-2147483648") = .ok (.int (-2147483648)) := by
    decide +kernel
  have hgreatest : ScalarCoercion.int.toResult (.num (.float greatest)) =
      .ok (.int 2147483647) := by
    decide +kernel
  have hzero : ScalarCoercion.float.toResult (.str "-0") = .ok (.num (.float (.zero true))) := by
    decide +kernel
  obtain ⟨i, -, hi, heq⟩ := (hint.number _ _).1 hgreatest
  obtain rfl : 2147483647 = i := by simpa [Json.int] using heq
  exact ⟨hleast, (hstable _ (.inl rfl)).value _ (.result hleast), hgreatest, hi, hzero,
    (hstable _ (.inr (.inl rfl))).value _ (.result hzero), hid.value _,
    hid.writes 18446744073709551615⟩

end ScalarCoercion

end GraphQL
