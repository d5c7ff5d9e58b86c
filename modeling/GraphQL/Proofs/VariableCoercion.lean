/-
GraphQL.Proofs.VariableCoercion — the variables of a request, each on its own.

A variable takes the value given for it, coerced to its type; without one it takes its default;
with neither it stays unbound. It fails if what it takes does not fit, or if it is of a non-null
type and has nothing to take (`VariableDefinition.Takes`, `VariableDefinition.Fails`). A default
without variables always has a value (`coerceLiteral_ne_none`), so what is given or has a default
is bound once nothing fails.

Variables with different names do not get in each other's way: an insertion never replaces one
(`variableBindings_eq_filterMap`). So the errors and the bindings are those of the variables, one
by one and in their order.

* `oneEach_filterMap` — what a list of partners is.
* `VariableDefinition.value_eq_error_iff`, `VariableDefinition.value_eq_some_iff` — the rule.
* `coerceVariableValues_perVariable` — hence what becomes of all variables.
-/
import GraphQL.Proofs.Collecting
import GraphQL.Proofs.NonNullInput

namespace GraphQL

/-! ## Partners -/

/-- The second list has, in order, one partner for each member of the first that has any. -/
inductive OneEach {α β : Type} (R : α → β → Prop) : List α → List β → Prop
  | nil : OneEach R [] []
  | without {x : α} {xs : List α} {ys : List β} (hx : ∀ y, ¬ R x y) (h : OneEach R xs ys) :
      OneEach R (x :: xs) ys
  | one {x : α} {y : β} {xs : List α} {ys : List β} (hxy : R x y) (h : OneEach R xs ys) :
      OneEach R (x :: xs) (y :: ys)

theorem oneEach_filterMap {α β : Type} {R : α → β → Prop} {f : α → Option β}
    (hf : ∀ x y, f x = some y ↔ R x y) (xs : List α) : OneEach R xs (xs.filterMap f) := by
  induction xs with
  | nil => exact .nil
  | cons x xs ih =>
    cases hx : f x with
    | none =>
      rw [List.filterMap_cons_none hx]
      exact .without (fun y hy => by simp [(hf x y).2 hy] at hx) ih
    | some y =>
      rw [List.filterMap_cons_some hx]
      exact .one ((hf x y).1 hx) ih

theorem OneEach.eq_nil_iff {α β : Type} {R : α → β → Prop} {xs : List α} {ys : List β}
    (h : OneEach R xs ys) : ys = [] ↔ ∀ x ∈ xs, ∀ y, ¬ R x y := by
  induction h with
  | nil => simp
  | without hx _ ih => rw [ih, List.forall_mem_cons, and_iff_right hx]
  | one hxy _ _ => exact ⟨nofun, fun h => absurd hxy (h _ List.mem_cons_self _)⟩

/-! ## Literals that have a value -/

theorem Except.map_ne_none {ε α β : Type} {x : Except ε α} {f : α → Option β}
    (hf : ∀ a, f a ≠ none) : x.map f ≠ .ok none := by
  cases x with
  | error e => exact nofun
  | ok a => exact fun h => hf a (Except.ok.inj h)

namespace Literal

variable {s : Schema} {l : Literal} {parts : Parts}

theorem atName_ne_none {name : String} : atName s l parts name ≠ .ok none := by
  unfold atName
  split
  · exact Except.map_ne_none (by simp)
  · unfold enumAt
    split
    · split <;> simp
    · simp
  · split
    · unfold inputObjectAt
      split
      · simp
      · exact Except.map_ne_none (by simp)
    · simp
  · simp

/-- A literal that is no variable has a value if it fits: by induction on the type. -/
theorem atType_ne_none {t : TypeExpr} : atType s l parts t ≠ .ok none := by
  induction t with
  | named name =>
    unfold atType
    split
    · simp
    · exact atName_ne_none
  | list item ih =>
    unfold atType
    split
    · simp
    · split
      · exact Except.map_ne_none (by simp)
      · intro h
        obtain ⟨v, hv, hnone⟩ := Except.map_eq_ok h
        exact ih (Option.map_eq_none_iff.1 hnone ▸ hv)
  | nonNull t ih =>
    unfold atType
    cases hv : atType s l parts t with
    | error e => simp [Except.bind]
    | ok v =>
      cases v with
      | none => exact absurd hv ih
      | some v =>
        -- null is refused, and any other value is left as it is
        cases v <;> simp [Except.bind, refuseNull]

end Literal

/-- A literal without variables is never without a value. -/
theorem coerceLiteral_ne_none {s : Schema} {vars : VariableValues} {l : Literal}
    (hl : l.VariableFree) {t : TypeExpr} : coerceLiteral s vars l t ≠ .ok none := by
  cases hl with
  | leaf hvar hlist hobject =>
    cases l with
    | var name => exact absurd rfl (hvar name)
    | list items => exact absurd rfl (hlist items)
    | object fields => exact absurd rfl (hobject fields)
    | _ => exact Literal.atType_ne_none
  | list | object =>
    rw [coerceLiteral]
    exact Literal.atType_ne_none

/-! ## One variable -/

namespace VariableDefinition

variable {s : Schema} {raw : List (String × Json)} {d : VariableDefinition}

/-- A variable fails, with an error that names it. -/
inductive Fails (s : Schema) (raw : List (String × Json)) (d : VariableDefinition) : Misfit → Prop
  /-- The value given for it does not fit. -/
  | value {v : Json} {reason : Misfit} (hraw : raw.lookup d.name = some v)
      (h : coerceInput s v d.type = .error reason) : Fails s raw d (.variableMisfit d.name reason)
  /-- No value is given, and the default does not fit. -/
  | default {l : Literal} {reason : Misfit} (hraw : raw.lookup d.name = none)
      (hl : d.default? = some l) (h : coerceLiteral s [] l d.type = .error reason) :
      Fails s raw d (.variableMisfit d.name reason)
  /-- There is neither value nor default, and its type excludes null. -/
  | missing (hraw : raw.lookup d.name = none) (hl : d.default? = none)
      (hnonNull : d.type.isNonNull = true) :
      Fails s raw d (.variableNotProvided d.name d.type.text)

/-- A variable takes a value. -/
inductive Takes (s : Schema) (raw : List (String × Json)) (d : VariableDefinition) : Json → Prop
  /-- The value given for it, coerced to its type. -/
  | value {v w : Json} (hraw : raw.lookup d.name = some v) (h : coerceInput s v d.type = .ok w) :
      Takes s raw d w
  /-- The default if no value is given. -/
  | default {l : Literal} {w : Json} (hraw : raw.lookup d.name = none)
      (hl : d.default? = some l) (h : coerceLiteral s [] l d.type = .ok (some w)) :
      Takes s raw d w

/-- A value is given for the variable, or it has a default. -/
def hasSource (raw : List (String × Json)) (d : VariableDefinition) : Bool :=
  (raw.lookup d.name).isSome || d.default?.isSome

theorem value_eq_error_iff {e : Misfit} : d.value s raw = .error e ↔ d.Fails s raw e := by
  constructor
  · intro h
    unfold value at h
    split at h
    · next v hraw =>
      split at h
      · cases h
      · next reason hreason =>
        obtain rfl := Except.error.inj h
        exact .value hraw hreason
    · next hraw =>
      split at h
      · next l hl =>
        split at h
        · cases h
        · next reason hreason =>
          obtain rfl := Except.error.inj h
          exact .default hraw hl hreason
      · next hl =>
        split at h
        · next hnonNull =>
          obtain rfl := Except.error.inj h
          exact .missing hraw hl hnonNull
        · cases h
  · rintro (⟨hraw, h⟩ | ⟨hraw, hl, h⟩ | ⟨hraw, hl, hnonNull⟩)
    · simp only [value, hraw, h]
    · simp only [value, hraw, hl, h]
    · simp only [value, hraw, hl, hnonNull, if_true]

theorem value_eq_some_iff {w : Json} : d.value s raw = .ok (some w) ↔ d.Takes s raw w := by
  constructor
  · intro h
    unfold value at h
    split at h
    · next v hraw =>
      split at h
      · next w' hw =>
        obtain rfl := Option.some.inj (Except.ok.inj h)
        exact .value hraw hw
      · cases h
    · next hraw =>
      split at h
      · next l hl =>
        split at h
        · next w' hw =>
          obtain rfl := Except.ok.inj h
          exact .default hraw hl hw
        · cases h
      · split at h <;> cases h
  · rintro (⟨hraw, h⟩ | ⟨hraw, hl, h⟩)
    · simp only [value, hraw, h]
    · simp only [value, hraw, hl, h]

/-- A variable that does not fail takes a value exactly if it has one to take. -/
theorem isSome_of_value (hdefault : ∀ l, d.default? = some l → l.VariableFree) {w : Option Json}
    (h : d.value s raw = .ok w) : w.isSome = d.hasSource raw := by
  unfold value at h
  unfold hasSource
  split at h
  · next v hraw =>
    split at h
    · obtain rfl := Except.ok.inj h
      rw [hraw, Option.isSome_some, Option.isSome_some, Bool.true_or]
    · cases h
  · next hraw =>
    rw [hraw, Option.isSome_none, Bool.false_or]
    split at h
    · next l hl =>
      split at h
      · next v hv =>
        obtain rfl := Except.ok.inj h
        rw [hl, Option.isSome_some]
        cases v with
        | none => exact absurd hv (coerceLiteral_ne_none (hdefault l hl))
        | some v => rfl
      · cases h
    · next hl =>
      split at h
      · cases h
      · obtain rfl := Except.ok.inj h
        rw [hl]
        rfl

/-- A variable of a non-null type has something to take, or it fails. -/
theorem hasSource_of_isNonNull (hnonNull : d.type.isNonNull = true) {w : Option Json}
    (h : d.value s raw = .ok w) : d.hasSource raw = true := by
  by_contra hnone
  simp only [hasSource, Bool.not_eq_true, Bool.or_eq_false_iff, Option.isSome_eq_false_iff,
    Option.isNone_iff_eq_none] at hnone
  have hmissing : d.Fails s raw _ := .missing hnone.1 hnone.2 hnonNull
  rw [value_eq_error_iff.2 hmissing] at h
  cases h

/-- Null does not fit a non-null type, be there a default or not. -/
theorem fails_of_null (hnonNull : d.type.isNonNull = true)
    (hraw : raw.lookup d.name = some .null) :
    d.Fails s raw (.variableMisfit d.name (.nullRefused d.type.text)) := by
  refine .value hraw ?_
  cases htype : d.type with
  | nonNull t => rw [coerceInput_nonNull, Json.isNull, if_pos rfl]
  | _ => simp [htype, TypeExpr.isNonNull] at hnonNull

/-- A variable depends on nothing that is given but its own value. -/
theorem value_congr {raw' : List (String × Json)}
    (h : raw'.lookup d.name = raw.lookup d.name) : d.value s raw' = d.value s raw := by
  rw [value, value, h]

/-- The binding of a variable that takes a value. -/
def binding? (s : Schema) (raw : List (String × Json)) (d : VariableDefinition) :
    Option (String × Json) :=
  ((d.value s raw).toOption.bind id).map fun w => (d.name, w)

theorem binding?_eq_some_iff {b : String × Json} :
    d.binding? s raw = some b ↔ d.name = b.1 ∧ d.Takes s raw b.2 := by
  obtain ⟨name, w⟩ := b
  rw [← value_eq_some_iff, binding?]
  cases d.value s raw with
  | error e => simp [Except.toOption]
  | ok w' => cases w' <;> simp [Except.toOption, eq_comm]

theorem binding?_of_value {w : Option Json} (h : d.value s raw = .ok w) :
    d.binding? s raw = w.map fun w => (d.name, w) := by
  rw [binding?, h]
  rfl

end VariableDefinition

/-! ## All variables -/

section

variable {s : Schema} {raw : List (String × Json)} {ds : List VariableDefinition}

theorem Entries.insert_eq_append {α : Type} {key : String} {v : α} {entries : List (String × α)}
    (hnew : key ∉ keys entries) : insert key v entries = entries ++ [(key, v)] := by
  induction entries with
  | nil => rfl
  | cons e entries ih =>
    have hne : e.1 ≠ key := fun heq => hnew (heq ▸ List.mem_cons_self)
    rw [insert, if_neg hne, ih fun hmem => hnew (List.mem_cons_of_mem _ hmem), List.cons_append]

/-- Pairs with different keys are all kept. -/
theorem Entries.ofPairs_of_nodup {α : Type} {pairs : List (String × α)}
    (h : (keys pairs).Nodup) : ofPairs pairs = pairs := by
  -- by induction on the pairs, after entries of other keys
  have hfold : ∀ entries : List (String × α), (keys (entries ++ pairs)).Nodup →
      pairs.foldl (fun acc p => insert p.1 p.2 acc) entries = entries ++ pairs := by
    clear h
    induction pairs with
    | nil => exact fun entries _ => (List.append_nil entries).symm
    | cons p pairs ih =>
      intro entries hnodup
      have hnew : p.1 ∉ keys entries := by
        intro hmem
        rw [keys, List.map_append, List.nodup_append] at hnodup
        exact hnodup.2.2 _ hmem _ List.mem_cons_self rfl
      rw [List.append_cons] at hnodup
      rw [List.foldl_cons, insert_eq_append hnew, ih _ hnodup, List.append_assoc]
      rfl
  exact hfold [] h

theorem variableBindings_eq_ofPairs (s : Schema) (raw : List (String × Json))
    (ds : List VariableDefinition) :
    variableBindings s raw ds = Entries.ofPairs (ds.filterMap (·.binding? s raw)) := by
  unfold variableBindings Entries.ofPairs
  rw [List.foldl_filterMap]
  congr 1
  funext acc d
  unfold VariableDefinition.binding?
  rcases d.value s raw with _ | _ | _ <;> rfl

/-- Under different names each variable that takes a value is bound, in order. -/
theorem variableBindings_eq_filterMap (hnames : (ds.map (·.name)).Nodup) :
    variableBindings s raw ds = ds.filterMap (·.binding? s raw) := by
  rw [variableBindings_eq_ofPairs]
  refine Entries.ofPairs_of_nodup (hnames.sublist (sublist_map_filterMap (fun d b hb => ?_) ds))
  exact (VariableDefinition.binding?_eq_some_iff.1 hb).1.symm

/-- Where nothing fails, the variables that are bound are those with something to take. -/
theorem keys_filterMap_binding? (hvalue : ∀ d ∈ ds, ∃ w, d.value s raw = .ok w)
    (hdefault : ∀ d ∈ ds, ∀ l, d.default? = some l → l.VariableFree) :
    Entries.keys (ds.filterMap (·.binding? s raw)) =
      (ds.filter (·.hasSource raw)).map (·.name) := by
  induction ds with
  | nil => rfl
  | cons d ds ih =>
    obtain ⟨⟨w, hw⟩, hvalue⟩ := List.forall_mem_cons.1 hvalue
    obtain ⟨hd, hdefault⟩ := List.forall_mem_cons.1 hdefault
    have hsource := VariableDefinition.isSome_of_value hd hw
    have hbinding := VariableDefinition.binding?_of_value hw
    have htail := ih hvalue hdefault
    cases w with
    | none =>
      rw [List.filterMap_cons_none hbinding, htail, List.filter_cons_of_neg (by simp [← hsource])]
    | some w =>
      rw [List.filterMap_cons_some hbinding, List.filter_cons_of_pos hsource.symm, List.map_cons,
        ← htail]
      rfl

/-- The errors of all variables: one for each that fails. -/
theorem oneEach_variableErrors (s : Schema) (raw : List (String × Json))
    (ds : List VariableDefinition) :
    OneEach (VariableDefinition.Fails s raw) ds (variableErrors s raw ds) := by
  refine oneEach_filterMap (fun d e => ?_) ds
  rw [← VariableDefinition.value_eq_error_iff]
  cases d.value s raw <;> simp

theorem coerceVariableValues_eq_error_iff {es : List Misfit} :
    coerceVariableValues s ds raw = .error es ↔ es ≠ [] ∧ variableErrors s raw ds = es := by
  unfold coerceVariableValues
  split
  · next hnone =>
    rw [hnone]
    exact ⟨nofun, fun h => absurd h.2.symm h.1⟩
  · next hne =>
    rw [Except.error.injEq]
    exact ⟨fun h => ⟨h ▸ hne, h⟩, And.right⟩

theorem coerceVariableValues_eq_ok {vars : VariableValues}
    (h : coerceVariableValues s ds raw = .ok vars) :
    variableBindings s raw ds = vars ∧ variableErrors s raw ds = [] := by
  unfold coerceVariableValues at h
  split at h
  · next hnone => exact ⟨Except.ok.inj h, hnone⟩
  · cases h

/-- Where there are no errors every variable takes a value or stays unbound. -/
theorem exists_value_of_variableErrors (h : variableErrors s raw ds = []) :
    ∀ d ∈ ds, ∃ w, d.value s raw = .ok w := by
  intro d hd
  cases hvalue : d.value s raw with
  | ok w => exact ⟨w, rfl⟩
  | error e => simpa [hvalue] using List.filterMap_eq_nil_iff.1 h d hd

/-- A variable that is bound has what it takes. -/
theorem lookup_variableBindings_iff (hnames : (ds.map (·.name)).Nodup) {d : VariableDefinition}
    (hd : d ∈ ds) {w : Json} :
    (variableBindings s raw ds).lookup d.name = some w ↔ d.Takes s raw w := by
  constructor
  · intro h
    obtain ⟨d', hd', hname, hvalue⟩ := exists_definition_of_bound h
    obtain rfl := List.inj_on_of_nodup_map hnames hd' hd hname
    exact VariableDefinition.value_eq_some_iff.1 hvalue
  · intro h
    have hkeys : (Entries.keys (ds.filterMap (·.binding? s raw))).Nodup :=
      hnames.sublist (sublist_map_filterMap (fun d b hb =>
        (VariableDefinition.binding?_eq_some_iff.1 hb).1.symm) ds)
    rw [variableBindings_eq_filterMap hnames]
    refine Entries.lookup_of_mem hkeys (List.mem_filterMap.2 ⟨d, hd, ?_⟩)
    exact VariableDefinition.binding?_eq_some_iff.2 ⟨rfl, h⟩

/-- What values are given for the variables is all that matters. -/
theorem coerceVariableValues_congr {raw' : List (String × Json)}
    (h : ∀ d ∈ ds, raw'.lookup d.name = raw.lookup d.name) :
    coerceVariableValues s ds raw' = coerceVariableValues s ds raw := by
  have hvalue : ∀ d ∈ ds, d.value s raw' = d.value s raw :=
    fun d hd => VariableDefinition.value_congr (h d hd)
  have herrors : variableErrors s raw' ds = variableErrors s raw ds :=
    List.filterMap_congr fun d hd => by rw [hvalue d hd]
  have hbindings : variableBindings s raw' ds = variableBindings s raw ds := by
    rw [variableBindings_eq_ofPairs, variableBindings_eq_ofPairs]
    refine congrArg _ (List.filterMap_congr fun d hd => ?_)
    rw [VariableDefinition.binding?, hvalue d hd, VariableDefinition.binding?]
  rw [coerceVariableValues, herrors, hbindings, coerceVariableValues]

end

/-- What becomes of the variables of a request, from what becomes of each of them. -/
structure PerVariable (s : Schema) (ds : List VariableDefinition) (raw : List (String × Json)) :
    Prop where
  /-- They are refused exactly if one of them fails. -/
  refused : (∃ es, coerceVariableValues s ds raw = .error es) ↔ ∃ d ∈ ds, ∃ e, d.Fails s raw e
  /-- The errors are those of the variables that fail, one for each, in order. -/
  errors : ∀ es, coerceVariableValues s ds raw = .error es →
    OneEach (VariableDefinition.Fails s raw) ds es
  /-- A variable fails or takes a value as it would if there were no other. -/
  alone : ∀ d ∈ ds,
    (∀ es, coerceVariableValues s [d] raw = .error es ↔ ∃ e, es = [e] ∧ d.Fails s raw e) ∧
      ∀ w, coerceVariableValues s [d] raw = .ok [(d.name, w)] ↔ d.Takes s raw w
  /-- For a non-null type null is as bad as nothing, be there a default or not. -/
  null : ∀ d ∈ ds, d.type.isNonNull = true → raw.lookup d.name = some .null →
    d.Fails s raw (.variableMisfit d.name (.nullRefused d.type.text))
  /-- Otherwise each variable is bound to what it takes, in order. -/
  bindings : ∀ vars, coerceVariableValues s ds raw = .ok vars →
    OneEach (fun d b => d.name = b.1 ∧ d.Takes s raw b.2) ds vars ∧
      ∀ d ∈ ds, ∀ w, vars.lookup d.name = some w ↔ d.Takes s raw w
  /-- These are the variables that have a value given or a default. -/
  keys : ∀ vars, coerceVariableValues s ds raw = .ok vars →
    Entries.keys vars = (ds.filter (·.hasSource raw)).map (·.name)
  /-- Those of a non-null type are among them. -/
  nonNull : ∀ vars, coerceVariableValues s ds raw = .ok vars → ∀ d ∈ ds,
    d.type.isNonNull = true → ∃ w, vars.lookup d.name = some w
  /-- Those that have neither stay unbound. -/
  unbound : ∀ vars, coerceVariableValues s ds raw = .ok vars → ∀ d ∈ ds,
    raw.lookup d.name = none → d.default? = none → vars.lookup d.name = none
  /-- What is given for other names does not matter, nor in what order anything is given. -/
  others : ∀ raw', (Entries.keys raw).Nodup → (Entries.keys raw').Nodup →
    (∀ d ∈ ds, ∀ v, (d.name, v) ∈ raw' ↔ (d.name, v) ∈ raw) →
      coerceVariableValues s ds raw' = coerceVariableValues s ds raw

/-- Variables with different names, and defaults without variables, are coerced each on its
own. -/
theorem coerceVariableValues_perVariable {s : Schema} {ds : List VariableDefinition}
    (hnames : (ds.map (·.name)).Nodup)
    (hdefault : ∀ d ∈ ds, ∀ l, d.default? = some l → l.VariableFree) (raw : List (String × Json)) :
    PerVariable s ds raw where
  refused := by
    have hnil := (oneEach_variableErrors s raw ds).eq_nil_iff
    simp only [coerceVariableValues_eq_error_iff]
    constructor
    · rintro ⟨es, hne, rfl⟩
      by_contra hnone
      exact hne (hnil.2 fun d hd e he => hnone ⟨d, hd, e, he⟩)
    · rintro ⟨d, hd, e, he⟩
      exact ⟨_, fun h => hnil.1 h d hd e he, rfl⟩
  errors es h := by
    obtain ⟨-, rfl⟩ := coerceVariableValues_eq_error_iff.1 h
    exact oneEach_variableErrors s raw ds
  alone d _ := by
    simp only [← VariableDefinition.value_eq_error_iff, ← VariableDefinition.value_eq_some_iff]
    rcases hvalue : d.value s raw with e | _ | w <;>
      simp [coerceVariableValues, variableErrors, variableBindings, Entries.insert, hvalue, eq_comm]
  null d _ := VariableDefinition.fails_of_null
  bindings vars h := by
    obtain ⟨rfl, -⟩ := coerceVariableValues_eq_ok h
    refine ⟨?_, fun d hd w => lookup_variableBindings_iff hnames hd⟩
    rw [variableBindings_eq_filterMap hnames]
    exact oneEach_filterMap (fun _ _ => VariableDefinition.binding?_eq_some_iff) ds
  keys vars h := by
    obtain ⟨rfl, herrors⟩ := coerceVariableValues_eq_ok h
    rw [variableBindings_eq_filterMap hnames]
    exact keys_filterMap_binding? (exists_value_of_variableErrors herrors) hdefault
  nonNull vars h d hd hnonNull := by
    obtain ⟨rfl, herrors⟩ := coerceVariableValues_eq_ok h
    obtain ⟨w, hw⟩ := exists_value_of_variableErrors herrors d hd
    have hsome := VariableDefinition.isSome_of_value (hdefault d hd) hw
    rw [VariableDefinition.hasSource_of_isNonNull hnonNull hw] at hsome
    obtain ⟨w, rfl⟩ := Option.isSome_iff_exists.1 hsome
    exact ⟨w, (lookup_variableBindings_iff hnames hd).2 (VariableDefinition.value_eq_some_iff.1 hw)⟩
  unbound vars h d hd hraw hl := by
    obtain ⟨rfl, -⟩ := coerceVariableValues_eq_ok h
    refine Option.eq_none_iff_forall_ne_some.2 fun w hw => ?_
    rcases (lookup_variableBindings_iff hnames hd).1 hw with ⟨hraw', -⟩ | ⟨-, hl', -⟩
    · simp [hraw] at hraw'
    · simp [hl] at hl'
  others raw' hkeys hkeys' hsame := by
    refine coerceVariableValues_congr fun d hd => Option.ext fun v => ?_
    exact ⟨fun h => Entries.lookup_of_mem hkeys ((hsame d hd v).1 (Entries.mem_of_lookup h)),
      fun h => Entries.lookup_of_mem hkeys' ((hsame d hd v).2 (Entries.mem_of_lookup h))⟩

/-- Variables with and without a default, one of a type that excludes null. -/
def pagingVariables : List VariableDefinition :=
  [⟨"first", .required "Int", some (.int 10)⟩, ⟨"after", .named "String", none⟩,
    ⟨"ids", .list (.required "ID"), none⟩, ⟨"kind", .named "String", some .null⟩]

/-- Absent values and such as do not fit, next to one that nobody asks for. -/
theorem coerceVariableValues_perVariable_paging :
    PerVariable pageSchema pagingVariables [("ids", .str "a"), ("extra", .null)] ∧
      PerVariable pageSchema pagingVariables [("after", .arr []), ("first", .null)] ∧
      coerceVariableValues pageSchema pagingVariables [("ids", .str "a"), ("extra", .null)] =
        .ok [("first", .int 10), ("ids", .arr [.str "a"]), ("kind", .null)] ∧
      coerceVariableValues pageSchema pagingVariables [("after", .arr []), ("first", .null)] =
        .error [.variableMisfit "first" (.nullRefused "Int!"),
          .variableMisfit "after" (.unrepresentable "String" "[]")] := by
  have hnames : (pagingVariables.map (·.name)).Nodup := by decide
  have hdefault : ∀ d ∈ pagingVariables, ∀ l, d.default? = some l → l.VariableFree := by
    simp only [pagingVariables, List.forall_mem_cons]
    refine ⟨?_, nofun, nofun, ?_, nofun⟩ <;> rintro l ⟨⟩ <;> exact .leaf nofun nofun nofun
  exact ⟨coerceVariableValues_perVariable hnames hdefault _,
    coerceVariableValues_perVariable hnames hdefault _, by decide +kernel, by decide +kernel⟩

end GraphQL
