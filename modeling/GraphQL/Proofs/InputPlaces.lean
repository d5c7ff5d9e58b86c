/-
GraphQL.Proofs.InputPlaces — the places of an input value and what is coerced there.

Data and literals are coerced by descending into the value and the type at once. Seen from
outside, a part of the value stands at a place with a type: the items of a list at the
item type of the list (`TypeExpr.itemType?`), the fields of an object at the declared
types of the input object (`Schema.inputFieldType?`). A value that is wrapped into a
list keeps its parts at their places, so the innermost name decides which input object
it is.

* `coerceLiteral_eq` — a literal that is no variable is coerced by its parts, as data is.
* `bindings_of_bindAll`, `lookup_of_bindAll` — what the arguments of a field or the fields of an
  input object are bound to.
-/
import GraphQL.Proofs.Collecting

namespace GraphQL

/-! ## Places -/

/-- The type at which the items of an array stand. -/
def TypeExpr.itemType? : TypeExpr → Option TypeExpr
  | .list item => some item
  | .nonNull t => t.itemType?
  | .named _ => none

/-- The declared type of a field of the input object that a type is about. -/
def Schema.inputFieldType? (s : Schema) (t : TypeExpr) (key : String) : Option TypeExpr :=
  match s.type? t.baseName with
  | some (.inputObject o) => (o.fields.get? key).map InputValue.type
  | _ => none

@[simp] theorem TypeExpr.itemType?_nonNull (t : TypeExpr) :
    (TypeExpr.nonNull t).itemType? = t.itemType? := rfl

@[simp] theorem TypeExpr.itemType?_list (t : TypeExpr) :
    (TypeExpr.list t).itemType? = some t := rfl

@[simp] theorem TypeExpr.baseName_nonNull (t : TypeExpr) :
    (TypeExpr.nonNull t).baseName = t.baseName := rfl

@[simp] theorem TypeExpr.baseName_list (t : TypeExpr) :
    (TypeExpr.list t).baseName = t.baseName := rfl

@[simp] theorem TypeExpr.baseName_named (name : String) : (TypeExpr.named name).baseName = name :=
  rfl

/-- Wrappers do not change which input object a type is about. -/
theorem Schema.inputFieldType?_congr (s : Schema) {t u : TypeExpr} (h : t.baseName = u.baseName)
    (key : String) : s.inputFieldType? t key = s.inputFieldType? u key := by
  rw [inputFieldType?, inputFieldType?, h]

/-- The type of a declared field of an input object. -/
theorem Schema.inputFieldType?_of_mem {s : Schema} {t : TypeExpr} {o : InputObjectType}
    (h : s.type? t.baseName = some (.inputObject o)) {d : InputValue} (hd : d ∈ o.fields.items) :
    s.inputFieldType? t d.name = some d.type := by
  have hget : o.fields.get? d.name = some d := Registry.get?_of_mem hd
  simp [inputFieldType?, h, hget]

/-! ## Induction on parts -/

theorem Entries.sizeOf_snd_lt {α : Type} [SizeOf α] {entries : List (String × α)}
    {x : String × α} (h : x ∈ entries) : sizeOf x.2 < sizeOf entries := by
  have hlt := List.sizeOf_lt_of_mem h
  obtain ⟨key, v⟩ := x
  simp only [Prod.mk.sizeOf_spec] at hlt ⊢
  omega

/-- What holds of a value if it holds of its items and fields holds of all data. -/
theorem Json.induction_on_parts {P : Json → Prop}
    (leaf : ∀ v, (∀ items, v ≠ .arr items) → (∀ fields, v ≠ .obj fields) → P v)
    (arr : ∀ items, (∀ v ∈ items, P v) → P (.arr items))
    (obj : ∀ fields, (∀ x ∈ fields, P x.2) → P (.obj fields)) (v : Json) : P v := by
  cases v with
  | arr items => exact arr items fun v _ => Json.induction_on_parts leaf arr obj v
  | obj fields =>
    refine obj fields fun x hx => ?_
    have := Entries.sizeOf_snd_lt hx
    exact Json.induction_on_parts leaf arr obj x.2
  | _ => exact leaf _ (by simp) (by simp)
termination_by sizeOf v

/-- What holds of a literal if it holds of its items and fields holds of all literals. -/
theorem Literal.induction_on_parts {P : Literal → Prop}
    (leaf : ∀ l, (∀ items, l ≠ .list items) → (∀ fields, l ≠ .object fields) → P l)
    (list : ∀ items, (∀ l ∈ items, P l) → P (.list items))
    (object : ∀ fields, (∀ x ∈ fields, P x.2) → P (.object fields)) (l : Literal) : P l := by
  cases l with
  | list items => exact list items fun l _ => Literal.induction_on_parts leaf list object l
  | object fields =>
    refine object fields fun x hx => ?_
    have := Entries.sizeOf_snd_lt hx
    exact Literal.induction_on_parts leaf list object x.2
  | _ => exact leaf _ (by simp) (by simp)
termination_by sizeOf l

/-! ## Built-in scalars -/

/-- A conversion of one of the five built-in scalars. -/
def ScalarCoercion.IsBuiltin (c : ScalarCoercion) : Prop :=
  c = .int ∨ c = .float ∨ c = .string ∨ c = .boolean ∨ c = .id

/-- All scalars of the schema use the conversions of the built-in ones. -/
def Schema.BuiltinScalars (s : Schema) : Prop :=
  ∀ t, .scalar t ∈ s.types.items → t.coercion.IsBuiltin

namespace Schema

theorem builtinScalars_ofQueryType (queryType : String) :
    (ofQueryType queryType).BuiltinScalars := by
  intro t ht
  have hmem := Registry.mem_of_mem_ofList ht
  simp only [builtinScalars, List.map_cons, List.map_nil, List.mem_cons,
    TypeDefinition.scalar.injEq, List.not_mem_nil, or_false] at hmem
  rcases hmem with rfl | rfl | rfl | rfl | rfl <;> simp [ScalarCoercion.IsBuiltin]

theorem BuiltinScalars.register {s : Schema} (h : s.BuiltinScalars) {x : TypeDefinition}
    (hx : ∀ t, x = .scalar t → t.coercion.IsBuiltin) : (s.register x).BuiltinScalars := by
  intro t ht
  rcases Registry.mem_of_mem_put ht with rfl | ht
  · exact hx t rfl
  · exact h t ht

end Schema

/-! ## Literals by their parts -/

/-- The parts of a literal as coercion sees them. -/
def Literal.parts (s : Schema) (vars : VariableValues) : Literal → Literal.Parts
  | .list items => .items (coerceLiteralItems s vars items)
  | .object fields => .fields (coerceLiteralFields s vars fields)
  | _ => .whole

theorem coerceLiteral_eq (s : Schema) (vars : VariableValues) {l : Literal}
    (h : ∀ name, l ≠ .var name) :
    coerceLiteral s vars l = Literal.atType s l (Literal.parts s vars l) := by
  cases l with
  | var name => exact absurd rfl (h name)
  | _ => simp [coerceLiteral, Literal.parts]

/-- A non-null type refuses null after the literal has been coerced. -/
theorem coerceLiteral_nonNull (s : Schema) (vars : VariableValues) {l : Literal}
    (h : ∀ name, l ≠ .var name) (t : TypeExpr) :
    coerceLiteral s vars l (.nonNull t) =
      (coerceLiteral s vars l t).bind (Literal.refuseNull (.nonNull t)) := by
  rw [coerceLiteral_eq s vars h, Literal.atType]

/-- A literal that is no list is the only item of a list. -/
theorem coerceLiteral_list_single (s : Schema) (vars : VariableValues) {l : Literal}
    (hvar : ∀ name, l ≠ .var name) (hnull : l ≠ .null) (hlist : ∀ items, l ≠ .list items)
    (item : TypeExpr) :
    coerceLiteral s vars l (.list item) =
      (coerceLiteral s vars l item).map fun v => v.map fun w => .arr [w] := by
  cases l with
  | null => exact absurd rfl hnull
  | var name => exact absurd rfl (hvar name)
  | list items => exact absurd rfl (hlist items)
  | _ => simp [coerceLiteral, Literal.atType, Literal.isNull]

/-! ## Lookups among parts -/

/-- What some things are replaced by, in order, keeps the names of those that it keeps. -/
theorem sublist_map_filterMap {α β γ : Type} {f : α → Option β} {name : α → γ} {name' : β → γ}
    (hname : ∀ x y, f x = some y → name' y = name x) (xs : List α) :
    ((xs.filterMap f).map name').Sublist (xs.map name) := by
  induction xs with
  | nil => exact .slnil
  | cons x xs ih =>
    cases hx : f x with
    | none => simpa [hx] using ih.cons _
    | some y => simpa [hx, hname x y hx] using ih

theorem Entries.lookup_map {α β : Type} (f : String → α → β) (entries : List (String × α))
    (key : String) :
    (entries.map fun p => (p.1, f p.1 p.2)).lookup key = (entries.lookup key).map (f key) := by
  induction entries with
  | nil => rfl
  | cons p entries ih =>
    obtain ⟨k, v⟩ := p
    rw [List.map_cons, List.lookup_cons, List.lookup_cons, ih]
    by_cases h : key = k
    · simp [h]
    · have hb : (key == k) = false := by simpa using h
      simp [hb]

theorem Entries.keys_map {α β : Type} (f : String → α → β) (entries : List (String × α)) :
    keys (entries.map fun p => (p.1, f p.1 p.2)) = keys entries := by
  simp [keys, Function.comp_def]

theorem Entries.mem_of_lookup {α : Type} {entries : List (String × α)} {key : String} {v : α}
    (h : entries.lookup key = some v) : (key, v) ∈ entries := by
  obtain ⟨before, after, rfl, _⟩ := List.lookup_eq_some_iff.1 h
  simp

theorem Entries.mem_keys_iff {α : Type} {entries : List (String × α)} {key : String} :
    key ∈ keys entries ↔ (entries.lookup key).isSome = true := by
  rw [List.lookup_isSome_iff, keys, List.mem_map]
  constructor
  · rintro ⟨p, hp, rfl⟩
    exact ⟨p, hp, beq_self_eq_true _⟩
  · rintro ⟨p, hp, hkey⟩
    exact ⟨p, hp, (beq_iff_eq.1 hkey).symm⟩

/-! ## Bindings -/

/-- What a declared name is filled with: what is given, or else its default. A name without
either is left out, which its type allows. -/
theorem InputValue.fill_eq_ok {d : InputValue} {given filled : Option Json}
    (h : d.fill given = .ok filled) :
    filled = given.or d.default? ∧ (filled = none → d.type.isNonNull = false) := by
  unfold fill at h
  split at h
  · next v hv =>
    obtain rfl := Except.ok.inj h
    exact ⟨hv.symm, by simp⟩
  · next hnone =>
    split at h
    · cases h
    · next hn =>
      obtain rfl := Except.ok.inj h
      exact ⟨hnone.symm, fun _ => by simpa using hn⟩

/-- A binding of declared names: the first of them, and the others. -/
theorem bindAll_cons_eq_ok {supply : InputValue → Except Misfit (Option Json)} {d : InputValue}
    {ds : List InputValue} {fields : List (String × Json)}
    (h : bindAll supply (d :: ds) = .ok fields) :
    ∃ given rest, supply d = .ok given ∧ bindAll supply ds = .ok rest ∧
      (given.or d.default? = none → d.type.isNonNull = false) ∧
      fields = ((given.or d.default?).map fun v => (d.name, v)).toList ++ rest := by
  rw [bindAll] at h
  split at h
  · cases h
  · next given hgiven =>
    split at h
    · cases h
    · next hfill =>
      obtain ⟨heq, hn⟩ := InputValue.fill_eq_ok hfill
      exact ⟨given, fields, hgiven, h, heq ▸ hn, by rw [← heq]; rfl⟩
    · next v hfill =>
      obtain ⟨heq, hn⟩ := InputValue.fill_eq_ok hfill
      split at h
      · cases h
      · next rest hrest =>
        obtain rfl := Except.ok.inj h
        exact ⟨given, rest, hgiven, hrest, heq ▸ hn, by rw [← heq]; rfl⟩

/-- What declared names are bound to: the value written for the name, or else its default. A
declared name without either is left out, which its type allows. -/
theorem bindings_of_bindAll {supply : InputValue → Except Misfit (Option Json)}
    {ds : List InputValue} {fields : List (String × Json)} (h : bindAll supply ds = .ok fields) :
    (∀ x ∈ fields, ∃ d ∈ ds, d.name = x.1 ∧
      (supply d = .ok (some x.2) ∨ d.default? = some x.2)) ∧
    ∀ d ∈ ds, d.type.isNonNull = true → ∃ x ∈ fields, x.1 = d.name := by
  induction ds generalizing fields with
  | nil =>
    obtain rfl := Except.ok.inj h
    simp
  | cons d ds ih =>
    obtain ⟨given, rest, hgiven, hrest, hleft, rfl⟩ := bindAll_cons_eq_ok h
    obtain ⟨hfrom, hrequired⟩ := ih hrest
    refine ⟨fun x hx => ?_, fun d' hd' hn => ?_⟩
    · rcases List.mem_append.1 hx with hx | hx
      · obtain ⟨v, hv, rfl⟩ := Option.map_eq_some_iff.1 (Option.mem_toList.1 hx)
        refine ⟨d, List.mem_cons_self, rfl, ?_⟩
        rcases Option.or_eq_some_iff.1 hv with rfl | ⟨-, hdefault⟩
        · exact .inl hgiven
        · exact .inr hdefault
      · obtain ⟨d', hd', hbound⟩ := hfrom x hx
        exact ⟨d', List.mem_cons_of_mem _ hd', hbound⟩
    · rcases List.mem_cons.1 hd' with rfl | hd'
      · cases hvalue : given.or d'.default? with
        | none => simp [hleft hvalue] at hn
        | some v => exact ⟨(d'.name, v), by simp, rfl⟩
      · obtain ⟨x, hx, hname⟩ := hrequired d' hd' hn
        exact ⟨x, List.mem_append_right _ hx, hname⟩

/-- The names that are bound are declared, in the order of their declaration. -/
theorem keys_sublist_of_bindAll {supply : InputValue → Except Misfit (Option Json)}
    {ds : List InputValue} {fields : List (String × Json)} (h : bindAll supply ds = .ok fields) :
    (Entries.keys fields).Sublist (ds.map InputValue.name) := by
  induction ds generalizing fields with
  | nil =>
    obtain rfl := Except.ok.inj h
    exact .slnil
  | cons d ds ih =>
    obtain ⟨given, rest, -, hrest, -, rfl⟩ := bindAll_cons_eq_ok h
    cases given.or d.default? with
    | none => exact (ih hrest).cons _
    | some v => exact (ih hrest).cons_cons _

/-- What a declared name is bound to: what was supplied for it, or else its default. -/
theorem lookup_of_bindAll {supply : InputValue → Except Misfit (Option Json)}
    {ds : List InputValue} (hnames : (ds.map InputValue.name).Nodup)
    {fields : List (String × Json)} (h : bindAll supply ds = .ok fields) {d : InputValue}
    (hd : d ∈ ds) :
    ∃ given, supply d = .ok given ∧ fields.lookup d.name = given.or d.default? := by
  induction ds generalizing fields with
  | nil => exact absurd hd List.not_mem_nil
  | cons d' ds ih =>
    obtain ⟨given, rest, hgiven, hrest, -, rfl⟩ := bindAll_cons_eq_ok h
    obtain ⟨hnew, hnames⟩ := List.nodup_cons.1 hnames
    rcases List.mem_cons.1 hd with rfl | hd
    · refine ⟨given, hgiven, ?_⟩
      cases given.or d.default? with
      | some v => simp
      | none =>
        refine Option.not_isSome_iff_eq_none.1 fun hsome => hnew ?_
        exact (keys_sublist_of_bindAll hrest).subset (Entries.mem_keys_iff.2 hsome)
    · obtain ⟨given', hgiven', hlookup⟩ := ih hnames hrest hd
      refine ⟨given', hgiven', ?_⟩
      have hne : d.name ≠ d'.name := fun heq => hnew (heq ▸ List.mem_map_of_mem hd)
      cases given.or d'.default? with
      | none => exact hlookup
      | some v =>
        rw [← hlookup, Option.map_some, Option.toList_some, List.singleton_append,
          List.lookup_cons, beq_eq_false_iff_ne.2 hne]

end GraphQL
