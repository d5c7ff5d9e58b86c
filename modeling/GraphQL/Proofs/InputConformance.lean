/-
GraphQL.Proofs.InputConformance — coerced input conforms to its type.

`InputConforms s t v` says what a value of an input type is: integers of 32 bits at `Int`,
listed names at enums, arrays of conforming items at lists, objects with declared fields
only and all required ones at input objects, and no null at a non-null type at any depth.

* `conforms_of_coerceInput` — a variable's value conforms once it is coerced, if no scalar
  makes null of anything else.
* `conforms_of_coerceLiteral` — a literal does if each variable in it has a value that
  conforms where the variable stands (`Literal.uses`), null apart, which is refused or
  allowed there and then.
* `TypeExpr.substitutes_of_narrows` — the values of a type conform to another one if the
  types differ only in what is non-null, and the first excludes null wherever the second does.

Defaults are taken as they are declared, so all of this needs `Schema.DefaultsConform`.
-/
import GraphQL.Proofs.InputPlaces

namespace GraphQL

/-! ## Conforming values -/

/-- What the conversions of a built-in scalar admit. Other conversions decide for themselves. -/
structure ScalarCoercion.Admits (c : ScalarCoercion) (v : Json) : Prop where
  int : c = .int → ∃ i, v = .int i ∧ fitsInt32 i = true
  float : c = .float → ∃ n, v = .num n
  string : c = .string → ∃ t, v = .str t
  boolean : c = .boolean → ∃ b, v = .bool b
  id : c = .id → ∃ t, v = .str t

/-- A value conforms to an input type. -/
inductive InputConforms (s : Schema) : TypeExpr → Json → Prop
  | nonNull {t : TypeExpr} {v : Json} (hv : v ≠ .null) (h : InputConforms s t v) :
      InputConforms s (.nonNull t) v
  | nullList (item : TypeExpr) : InputConforms s (.list item) .null
  | nullNamed (name : String) : InputConforms s (.named name) .null
  | list {item : TypeExpr} {items : List Json} (h : ∀ v ∈ items, InputConforms s item v) :
      InputConforms s (.list item) (.arr items)
  | scalar {name : String} {t : ScalarType} {v : Json} (ht : s.type? name = some (.scalar t))
      (hv : t.coercion.Admits v) : InputConforms s (.named name) v
  | enum {name : String} {e : EnumType} {value : String} (he : s.type? name = some (.enum e))
      (hv : e.contains value = true) : InputConforms s (.named name) (.str value)
  | object {name : String} {o : InputObjectType} {fields : List (String × Json)}
      (ho : s.type? name = some (.inputObject o))
      (declared : ∀ x ∈ fields, ∃ d ∈ o.fields.items, d.name = x.1)
      (required : ∀ d ∈ o.fields.items, d.type.isNonNull = true → ∃ x ∈ fields, x.1 = d.name)
      (values : ∀ x ∈ fields, ∀ d ∈ o.fields.items, d.name = x.1 → InputConforms s d.type x.2) :
      InputConforms s (.named name) (.obj fields)

/-- Declared names are bound to conforming values: no others are bound, and all of non-null
type are. -/
structure BindingsConform (s : Schema) (ds : List InputValue) (fields : List (String × Json)) :
    Prop where
  declared : ∀ x ∈ fields, ∃ d ∈ ds, d.name = x.1
  required : ∀ d ∈ ds, d.type.isNonNull = true → ∃ x ∈ fields, x.1 = d.name
  values : ∀ x ∈ fields, ∀ d ∈ ds, d.name = x.1 → InputConforms s d.type x.2

/-- The arguments and input fields that a type declares. -/
def TypeDefinition.inputValues : TypeDefinition → List InputValue
  | .object o => o.fields.items.flatMap fun d => d.arguments.items
  | .interface i => i.fields.items.flatMap fun d => d.arguments.items
  | .inputObject o => o.fields.items
  | _ => []

/-- The defaults of arguments and input fields, with their types. -/
def Schema.defaults (s : Schema) : List (TypeExpr × Json) :=
  s.types.items.flatMap fun t => t.inputValues.filterMap fun d => d.default?.map (d.type, ·)

/-- The defaults of arguments and input fields conform to their types. -/
def Schema.DefaultsConform (s : Schema) : Prop :=
  ∀ x ∈ s.defaults, InputConforms s x.1 x.2

/-- No scalar makes null of a value that is not null. -/
def Schema.KeepsValues (s : Schema) : Prop :=
  ∀ t, .scalar t ∈ s.types.items → ∀ v, v ≠ .null → t.coercion.ofValue v ≠ .ok .null

namespace InputConforms

variable {s : Schema} {t : TypeExpr} {v : Json}

theorem null_of_nullable (h : t.isNonNull = false) : InputConforms s t .null := by
  cases t with
  | named name => exact .nullNamed name
  | list item => exact .nullList item
  | nonNull t => simp [TypeExpr.isNonNull] at h

theorem nullable_of_null (h : InputConforms s t .null) : t.isNonNull = false := by
  cases h with
  | nonNull hv _ => exact absurd rfl hv
  | _ => rfl

/-- Outer non-null wrappers only exclude null. -/
theorem nullableType_iff (hv : v ≠ .null) :
    InputConforms s t.nullableType v ↔ InputConforms s t v := by
  induction t with
  | named name => exact Iff.rfl
  | list item _ => exact Iff.rfl
  | nonNull t ih =>
    rw [TypeExpr.nullableType, ih]
    constructor
    · exact .nonNull hv
    · intro h
      cases h with
      | nonNull _ h => exact h

end InputConforms

/-! ## Scalars and enums -/

namespace ScalarCoercion

variable {c : ScalarCoercion} {w : Json}

theorem int32_eq_ok {i : Int} (h : int32 i = .ok w) : ∃ i, w = .int i ∧ fitsInt32 i = true := by
  unfold int32 at h
  split at h
  · next hi => exact ⟨i, (Except.ok.inj h).symm, hi⟩
  · simp at h

theorem floatOfNumber_eq_ok {n : Number} (h : floatOfNumber n = .ok w) : ∃ n, w = .num n := by
  unfold floatOfNumber at h
  split at h
  · exact ⟨_, (Except.ok.inj h).symm⟩
  · simp [cannotRepresent] at h

theorem idOfValue_eq_ok {v : Json} (h : idOfValue v = .ok w) : ∃ t, w = .str t := by
  unfold idOfValue at h
  split at h
  · exact ⟨_, (Except.ok.inj h).symm⟩
  · exact ⟨_, (Except.ok.inj h).symm⟩
  · simp [cannotRepresent] at h

/-- What a conversion makes of a variable's value, a built-in scalar admits. -/
theorem admits_of_ofValue {v : Json} (h : c.ofValue v = .ok w) : c.Admits w where
  int := by
    rintro rfl
    cases v with
    | num n =>
      simp only [ScalarCoercion.int] at h
      split at h
      · exact int32_eq_ok h
      · simp [cannotRepresent] at h
    | _ => simp [ScalarCoercion.int, cannotRepresent] at h
  float := by
    rintro rfl
    cases v with
    | num n => exact floatOfNumber_eq_ok h
    | _ => simp [ScalarCoercion.float, cannotRepresent] at h
  string := by
    rintro rfl
    cases v with
    | str t => exact ⟨t, (Except.ok.inj h).symm⟩
    | _ => simp [ScalarCoercion.string, cannotRepresent] at h
  boolean := by
    rintro rfl
    cases v with
    | bool b => exact ⟨b, (Except.ok.inj h).symm⟩
    | _ => simp [ScalarCoercion.boolean, cannotRepresent] at h
  id := by
    rintro rfl
    exact idOfValue_eq_ok h

/-- What a conversion makes of a literal, a built-in scalar admits. -/
theorem admits_of_ofLiteral {l : Literal} (h : c.ofLiteral l = .ok w) : c.Admits w where
  int := by
    rintro rfl
    cases l with
    | int i => exact int32_eq_ok h
    | _ => simp [ScalarCoercion.int, wrongLiteral] at h
  float := by
    rintro rfl
    simp only [ScalarCoercion.float] at h
    split at h
    · split at h
      · exact ⟨_, (Except.ok.inj h).symm⟩
      · simp [wrongLiteral] at h
    · split at h
      · exact ⟨_, (Except.ok.inj h).symm⟩
      · simp [wrongLiteral] at h
    · simp [wrongLiteral] at h
  string := by
    rintro rfl
    cases l with
    | string t => exact ⟨t, (Except.ok.inj h).symm⟩
    | _ => simp [ScalarCoercion.string, wrongLiteral] at h
  boolean := by
    rintro rfl
    cases l with
    | boolean b => exact ⟨b, (Except.ok.inj h).symm⟩
    | _ => simp [ScalarCoercion.boolean, wrongLiteral] at h
  id := by
    rintro rfl
    cases l with
    | string t => exact ⟨t, (Except.ok.inj h).symm⟩
    | int i => exact ⟨_, (Except.ok.inj h).symm⟩
    | _ => simp [ScalarCoercion.id, wrongLiteral] at h

end ScalarCoercion

/-- The built-in scalars make null of nothing but null. -/
theorem Schema.BuiltinScalars.keepsValues {s : Schema} (hs : s.BuiltinScalars) :
    s.KeepsValues := by
  intro t ht v _ h
  have hadmits := ScalarCoercion.admits_of_ofValue h
  rcases hs t ht with hc | hc | hc | hc | hc
  · obtain ⟨_, hnull, _⟩ := hadmits.int hc
    simp [Json.int] at hnull
  · obtain ⟨_, hnull⟩ := hadmits.float hc
    simp at hnull
  · obtain ⟨_, hnull⟩ := hadmits.string hc
    simp at hnull
  · obtain ⟨_, hnull⟩ := hadmits.boolean hc
    simp at hnull
  · obtain ⟨_, hnull⟩ := hadmits.id hc
    simp at hnull

/-! ## Bindings -/

section

variable {s : Schema}

/-- Bindings conform if what is supplied does and the defaults do. -/
theorem bindingsConform_of_bindAll {supply : InputValue → Except Misfit (Option Json)}
    {ds : Registry InputValue} {fields : List (String × Json)}
    (h : bindAll supply ds.items = .ok fields)
    (hsupply : ∀ d ∈ ds.items, ∀ v, supply d = .ok (some v) → InputConforms s d.type v)
    (hdefault : ∀ d ∈ ds.items, ∀ v, d.default? = some v → InputConforms s d.type v) :
    BindingsConform s ds.items fields := by
  obtain ⟨hfrom, hrequired⟩ := bindings_of_bindAll h
  refine ⟨fun x hx => ?_, hrequired, fun x hx d hd hname => ?_⟩
  · obtain ⟨d, hd, hname, _⟩ := hfrom x hx
    exact ⟨d, hd, hname⟩
  · obtain ⟨d', hd', hname', hv⟩ := hfrom x hx
    obtain rfl : d = d' := Registry.eq_of_name_eq hd hd' (hname.trans hname'.symm)
    rcases hv with hv | hv
    · exact hsupply d hd _ hv
    · exact hdefault d hd _ hv

theorem BindingsConform.object {name : String} {o : InputObjectType}
    {fields : List (String × Json)} (h : BindingsConform s o.fields.items fields)
    (ho : s.type? name = some (.inputObject o)) : InputConforms s (.named name) (.obj fields) :=
  .object ho h.declared h.required h.values

theorem Schema.DefaultsConform.of_mem (hs : s.DefaultsConform) {t : TypeDefinition}
    (ht : t ∈ s.types.items) {d : InputValue} (hd : d ∈ t.inputValues) {v : Json}
    (hv : d.default? = some v) : InputConforms s d.type v :=
  hs (d.type, v) (List.mem_flatMap.2 ⟨t, ht, List.mem_filterMap.2 ⟨d, hd, by rw [hv]; rfl⟩⟩)

theorem Schema.DefaultsConform.inputObject (hs : s.DefaultsConform) {name : String}
    {o : InputObjectType} (ho : s.type? name = some (.inputObject o)) :
    ∀ d ∈ o.fields.items, ∀ v, d.default? = some v → InputConforms s d.type v :=
  fun _ hd _ hv => hs.of_mem (Registry.mem_of_get? ho).1 hd hv

theorem Schema.DefaultsConform.field (hs : s.DefaultsConform) {object name : String}
    {d : FieldDefinition} (hd : s.field? object name = some d) :
    ∀ a ∈ d.arguments.items, ∀ v, a.default? = some v → InputConforms s a.type v := by
  obtain ⟨fields, hfields, hget⟩ := Option.bind_eq_some_iff.1 hd
  obtain ⟨x, hx, hxfields⟩ := Option.bind_eq_some_iff.1 hfields
  have hmem := (Registry.mem_of_get? hget).1
  intro a ha v hv
  refine hs.of_mem (Registry.mem_of_get? hx).1 ?_ hv
  cases x with
  | object o =>
    obtain rfl := Option.some.inj hxfields
    exact List.mem_flatMap.2 ⟨d, hmem, ha⟩
  | interface i =>
    obtain rfl := Option.some.inj hxfields
    exact List.mem_flatMap.2 ⟨d, hmem, ha⟩
  | _ => simp [TypeDefinition.fields?] at hxfields

/-- Every item that a list is made of comes from one that was coerced. -/
theorem exists_source_of_mapM {α β ε : Type} {f : α → Except ε β} {xs : List α} {ys : List β}
    (h : xs.mapM f = .ok ys) : ∀ y ∈ ys, ∃ x ∈ xs, f x = .ok y := by
  induction xs generalizing ys with
  | nil =>
    obtain rfl := Except.ok.inj h
    simp
  | cons x xs ih =>
    obtain ⟨y, ys, hx, hxs, rfl⟩ := Except.mapM_cons_eq_ok h
    intro y' hy'
    rcases List.mem_cons.1 hy' with rfl | hy'
    · exact ⟨x, List.mem_cons_self, hx⟩
    · obtain ⟨x', hx', hf⟩ := ih hxs y' hy'
      exact ⟨x', List.mem_cons_of_mem _ hx', hf⟩

/-! ## Values of variables -/

/-- A coerced value conforms, and it is null only if the value was. -/
def Json.CoercedConforms (s : Schema) (v : Json) : Prop :=
  ∀ t w, coerceInput s v t = .ok w → InputConforms s t w ∧ (v ≠ .null → w ≠ .null)

/-- An input object conforms if the values of its fields do. -/
theorem conforms_of_inputObject (hs : s.DefaultsConform) {name : String} {o : InputObjectType}
    (ho : s.type? name = some (.inputObject o)) {fields : List (String × Json)}
    (ih : ∀ x ∈ fields, x.2.CoercedConforms s) {w : Json}
    (h : Input.inputObject o name (coerceFields s fields) = .ok w) :
    InputConforms s (.named name) w ∧ w ≠ .null := by
  unfold Input.inputObject at h
  split at h
  · simp at h
  · obtain ⟨bound, hbound, rfl⟩ := Except.map_eq_ok h
    refine ⟨(bindingsConform_of_bindAll hbound ?_ (hs.inputObject ho)).object ho, by simp⟩
    intro d _ v hv
    rw [coerceFields_eq_map, Entries.lookup_map fun _ => coerceInput s] at hv
    cases hlookup : fields.lookup d.name with
    | none => simp [hlookup] at hv
    | some given =>
      simp only [hlookup, Option.map_some] at hv
      obtain ⟨w, hw, hwv⟩ := Except.map_eq_ok hv
      obtain rfl := Option.some.inj hwv
      exact (ih _ (Entries.mem_of_lookup hlookup) d.type w hw).1

/-- At a named type a value that is not null is coerced to one that conforms. -/
theorem conforms_of_atName (hs : s.DefaultsConform) (hk : s.KeepsValues) {v : Json}
    (hv : v ≠ .null) (ih : ∀ fields, v = .obj fields → ∀ x ∈ fields, x.2.CoercedConforms s)
    {name : String} {w : Json} (h : Input.atName s v (Input.parts s v) name = .ok w) :
    InputConforms s (.named name) w ∧ w ≠ .null := by
  unfold Input.atName at h
  split at h
  · next c hc =>
    refine ⟨.scalar hc (ScalarCoercion.admits_of_ofValue h), ?_⟩
    rintro rfl
    exact hk c (Registry.mem_of_get? hc).1 v hv h
  · next e he =>
    unfold Input.enumValue at h
    split at h
    · split at h
      · next hcontains =>
        obtain rfl := Except.ok.inj h
        exact ⟨.enum he hcontains, by simp⟩
      · simp at h
    · simp at h
  · next o ho =>
    cases v with
    | obj fields => exact conforms_of_inputObject hs ho (ih fields rfl) h
    | _ => simp [Input.parts] at h
  · simp at h

/-- A value is coerced to a conforming one if its parts are: by induction on the type. -/
theorem coercedConforms_of_parts (hs : s.DefaultsConform) (hk : s.KeepsValues) {v : Json}
    (hitems : ∀ items, v = .arr items → ∀ x ∈ items, x.CoercedConforms s)
    (hfields : ∀ fields, v = .obj fields → ∀ x ∈ fields, x.2.CoercedConforms s) :
    v.CoercedConforms s := by
  by_cases hv : v = .null
  · -- null is coerced to null wherever it is allowed
    subst hv
    intro t w h
    cases hn : t.isNonNull with
    | false =>
      rw [coerceInput_null s hn] at h
      obtain rfl := Except.ok.inj h
      exact ⟨.null_of_nullable hn, fun hne => hne⟩
    | true =>
      cases t with
      | nonNull t => simp [coerceInput_nonNull] at h
      | _ => simp [TypeExpr.isNonNull] at hn
  · intro t
    suffices h : ∀ w, coerceInput s v t = .ok w → InputConforms s t w ∧ w ≠ .null from
      fun w hw => ⟨(h w hw).1, fun _ => (h w hw).2⟩
    have hnull : v.isNull = false := Json.isNull_eq_false.2 hv
    induction t with
    | named name =>
      intro w h
      simp only [coerceInput_eq, Input.atType, hnull] at h
      exact conforms_of_atName hs hk hv hfields h
    | list item ih =>
      intro w h
      by_cases harr : ∃ items, v = .arr items
      · obtain ⟨items, rfl⟩ := harr
        rw [coerceInput_list_arr] at h
        obtain ⟨ws, hws, rfl⟩ := Except.map_eq_ok h
        refine ⟨.list fun w hw => ?_, by simp⟩
        obtain ⟨x, hx, hxw⟩ := exists_source_of_mapM hws w hw
        exact (hitems items rfl x hx item w hxw).1
      · rw [coerceInput_list_single s item hv (not_exists.1 harr)] at h
        obtain ⟨w', hw', rfl⟩ := Except.map_eq_ok h
        refine ⟨.list fun x hx => ?_, by simp⟩
        obtain rfl := List.mem_singleton.1 hx
        exact (ih x hw').1
    | nonNull t ih =>
      intro w h
      rw [coerceInput_nonNull, hnull] at h
      obtain ⟨hconforms, hne⟩ := ih w h
      exact ⟨.nonNull hne hconforms, hne⟩

/-- A variable's value conforms once it is coerced. -/
theorem conforms_of_coerceInput (hs : s.DefaultsConform) (hk : s.KeepsValues) {v : Json}
    {t : TypeExpr} {w : Json} (h : coerceInput s v t = .ok w) : InputConforms s t w := by
  suffices hv : v.CoercedConforms s from (hv t w h).1
  clear h
  induction v using Json.induction_on_parts with
  | leaf v harr hobj =>
    exact coercedConforms_of_parts hs hk (fun items h => absurd h (harr items))
      fun fields h => absurd h (hobj fields)
  | arr items ih =>
    refine coercedConforms_of_parts hs hk (fun items' h => ?_) (by simp)
    obtain rfl := Json.arr.inj h
    exact ih
  | obj fields ih =>
    refine coercedConforms_of_parts hs hk (by simp) fun fields' h => ?_
    obtain rfl := Json.obj.inj h
    exact ih

/-! ## Values of literals -/

mutual

/-- The variables of a literal at a type, each with the type of the place where it stands. -/
def Literal.uses (s : Schema) : Literal → TypeExpr → List (String × TypeExpr)
  | .var name, t => [(name, t)]
  | .list items, t => Literal.usesOfItems s items t.itemType?
  | .object fields, t => Literal.usesOfFields s fields t
  | _, _ => []

/-- The variables of items that stand at one place, if there is such a place. -/
def Literal.usesOfItems (s : Schema) : List Literal → Option TypeExpr → List (String × TypeExpr)
  | [], _ => []
  | l :: rest, item? =>
    (match item? with
      | some item => l.uses s item
      | none => []) ++ Literal.usesOfItems s rest item?

/-- The variables of the fields of an object at a type. -/
def Literal.usesOfFields (s : Schema) : List (String × Literal) → TypeExpr →
    List (String × TypeExpr)
  | [], _ => []
  | (key, l) :: rest, t =>
    (match s.inputFieldType? t key with
      | some u => l.uses s u
      | none => []) ++ Literal.usesOfFields s rest t

end

namespace Literal

theorem mem_usesOfItems {items : List Literal} {l : Literal} (hl : l ∈ items) {item : TypeExpr}
    {x : String × TypeExpr} (hx : x ∈ l.uses s item) : x ∈ usesOfItems s items (some item) := by
  induction items with
  | nil => simp at hl
  | cons l' items ih =>
    rw [usesOfItems]
    rcases List.mem_cons.1 hl with rfl | hl
    · exact List.mem_append_left _ hx
    · exact List.mem_append_right _ (ih hl)

theorem mem_usesOfFields {fields : List (String × Literal)} {key : String} {l : Literal}
    (hl : (key, l) ∈ fields) {t u : TypeExpr} (hu : s.inputFieldType? t key = some u)
    {x : String × TypeExpr} (hx : x ∈ l.uses s u) : x ∈ usesOfFields s fields t := by
  induction fields with
  | nil => simp at hl
  | cons p fields ih =>
    obtain ⟨key', l'⟩ := p
    rw [usesOfFields]
    rcases List.mem_cons.1 hl with hp | hl
    · obtain ⟨rfl, rfl⟩ := Prod.mk.inj hp
      refine List.mem_append_left _ ?_
      rw [hu]
      exact hx
    · exact List.mem_append_right _ (ih hl)

theorem usesOfFields_congr (fields : List (String × Literal)) {t u : TypeExpr}
    (h : t.baseName = u.baseName) : usesOfFields s fields t = usesOfFields s fields u := by
  induction fields with
  | nil => rfl
  | cons p fields ih =>
    obtain ⟨key, l⟩ := p
    rw [usesOfFields, usesOfFields, ih, s.inputFieldType?_congr h]

/-- Whether null is excluded does not change where the variables in a literal stand. -/
theorem uses_nonNull {l : Literal} (h : ∀ name, l ≠ .var name) (t : TypeExpr) :
    l.uses s (.nonNull t) = l.uses s t := by
  cases l with
  | var name => exact absurd rfl (h name)
  | list items => rfl
  | object fields => exact usesOfFields_congr fields rfl
  | _ => rfl

/-- Nor does it to be the only item of a list. -/
theorem uses_list {l : Literal} (h : ∀ name, l ≠ .var name) (hlist : ∀ items, l ≠ .list items)
    (t : TypeExpr) : l.uses s (.list t) = l.uses s t := by
  cases l with
  | var name => exact absurd rfl (h name)
  | list items => exact absurd rfl (hlist items)
  | object fields => exact usesOfFields_congr fields rfl
  | _ => rfl

end Literal

/-- Each variable that is used somewhere, if it has a value other than null, has one that
conforms there. -/
def UsesConform (s : Schema) (vars : VariableValues) (uses : List (String × TypeExpr)) : Prop :=
  ∀ x ∈ uses, ∀ w, vars.lookup x.1 = some w → w ≠ .null → InputConforms s x.2 w

/-- A literal whose variables have conforming values has one. -/
def Literal.CoercedConforms (s : Schema) (vars : VariableValues) (l : Literal) : Prop :=
  ∀ t, UsesConform s vars (l.uses s t) →
    ∀ w, coerceLiteral s vars l t = .ok (some w) → InputConforms s t w

variable {vars : VariableValues}

theorem coercedConforms_var (name : String) : (Literal.var name).CoercedConforms s vars := by
  intro t huses w h
  simp only [coerceLiteral, Literal.variableAt] at h
  split at h
  · simp at h
  · next v hv =>
    split at h
    · simp at h
    · next hnull =>
      obtain rfl := Option.some.inj (Except.ok.inj h)
      by_cases hw : v = .null
      · subst hw
        exact .null_of_nullable (by simpa [Json.isNull] using hnull)
      · exact huses (name, t) (List.mem_singleton_self _) v hv hw

/-- An input object conforms if the literals of its fields do. -/
theorem conforms_of_inputObjectAt (hs : s.DefaultsConform) {name : String} {o : InputObjectType}
    (ho : s.type? name = some (.inputObject o)) {fields : List (String × Literal)}
    (ih : ∀ x ∈ fields, x.2.CoercedConforms s vars)
    (huses : UsesConform s vars (Literal.usesOfFields s fields (.named name))) {w : Json}
    (h : Literal.inputObjectAt o name (coerceLiteralFields s vars fields) = .ok (some w)) :
    InputConforms s (.named name) w := by
  unfold Literal.inputObjectAt at h
  split at h
  · simp at h
  · obtain ⟨bound, hbound, hw⟩ := Except.map_eq_ok h
    obtain rfl := Option.some.inj hw
    refine (bindingsConform_of_bindAll hbound ?_ (hs.inputObject ho)).object ho
    intro d hd v hv
    rw [coerceLiteralFields_eq_map, Entries.lookup_map fun _ => coerceLiteral s vars] at hv
    cases hlookup : fields.lookup d.name with
    | none => simp [hlookup] at hv
    | some l =>
      simp only [hlookup, Option.map_some] at hv
      have hmem := Entries.mem_of_lookup hlookup
      have hplace : s.inputFieldType? (.named name) d.name = some d.type :=
        Schema.inputFieldType?_of_mem ho hd
      exact ih _ hmem d.type (fun x hx => huses x (Literal.mem_usesOfFields hmem hplace hx)) v hv

/-- At a named type a literal that is neither null nor a variable has a conforming value. -/
theorem conforms_of_literalAtName (hs : s.DefaultsConform) {l : Literal}
    (ih : ∀ fields, l = .object fields → ∀ x ∈ fields, x.2.CoercedConforms s vars)
    {name : String} (huses : UsesConform s vars (l.uses s (.named name))) {w : Json}
    (h : Literal.atName s l (Literal.parts s vars l) name = .ok (some w)) :
    InputConforms s (.named name) w := by
  unfold Literal.atName at h
  split at h
  · next c hc =>
    obtain ⟨v, hv, hw⟩ := Except.map_eq_ok h
    obtain rfl := Option.some.inj hw
    exact .scalar hc (ScalarCoercion.admits_of_ofLiteral hv)
  · next e he =>
    unfold Literal.enumAt at h
    split at h
    · split at h
      · next hcontains =>
        obtain rfl := Option.some.inj (Except.ok.inj h)
        exact .enum he hcontains
      · simp at h
    · simp at h
  · next o ho =>
    cases l with
    | object fields => exact conforms_of_inputObjectAt hs ho (ih fields rfl) huses h
    | _ => simp [Literal.parts] at h
  · simp at h

/-- The items of a list conform: those that are unbound variables are null where that is
allowed. -/
theorem conforms_of_literalItems {items : List Literal} {item : TypeExpr}
    (ih : ∀ l ∈ items, l.CoercedConforms s vars)
    (huses : UsesConform s vars ((Literal.list items).uses s (.list item))) {w : Json}
    (h : coerceLiteral s vars (.list items) (.list item) = .ok (some w)) :
    InputConforms s (.list item) w := by
  rw [coerceLiteral_list] at h
  obtain ⟨ws, hws, hw⟩ := Except.map_eq_ok h
  obtain rfl := Option.some.inj hw
  refine .list fun v hv => ?_
  obtain ⟨l, hl, hlv⟩ := exists_source_of_mapM hws v hv
  cases hcoerced : coerceLiteral s vars l item with
  | error e => simp [hcoerced, Except.bind] at hlv
  | ok value? =>
    simp only [hcoerced, Except.bind] at hlv
    cases value? with
    | some v' =>
      obtain rfl := Except.ok.inj hlv
      exact ih l hl item (fun x hx => huses x (Literal.mem_usesOfItems hl hx)) v' hcoerced
    | none =>
      rw [Literal.itemValue] at hlv
      split at hlv
      · simp at hlv
      · next hn =>
        obtain rfl := Except.ok.inj hlv
        exact .null_of_nullable (by simpa using hn)

/-- A literal has a conforming value if its parts do: by induction on the type. -/
theorem literalConforms_of_parts (hs : s.DefaultsConform) {l : Literal}
    (hvar : ∀ name, l ≠ .var name)
    (hitems : ∀ items, l = .list items → ∀ x ∈ items, x.CoercedConforms s vars)
    (hfields : ∀ fields, l = .object fields → ∀ x ∈ fields, x.2.CoercedConforms s vars) :
    l.CoercedConforms s vars := by
  intro t
  induction t with
  | named name =>
    intro huses w h
    rw [coerceLiteral_eq s vars hvar, Literal.atType] at h
    split at h
    · obtain rfl := Option.some.inj (Except.ok.inj h)
      exact .nullNamed name
    · exact conforms_of_literalAtName hs hfields huses h
  | list item ih =>
    intro huses w h
    by_cases hnull : l = .null
    · subst hnull
      obtain rfl := Option.some.inj (Except.ok.inj h)
      exact .nullList item
    · by_cases hlist : ∃ items, l = .list items
      · obtain ⟨items, rfl⟩ := hlist
        exact conforms_of_literalItems (hitems items rfl) huses h
      · have hlist := not_exists.1 hlist
        rw [coerceLiteral_list_single s vars hvar hnull hlist] at h
        obtain ⟨v, hv, hw⟩ := Except.map_eq_ok h
        obtain ⟨v', rfl, rfl⟩ := Option.map_eq_some_iff.1 hw
        refine .list fun x hx => ?_
        obtain rfl := List.mem_singleton.1 hx
        exact ih (by rwa [Literal.uses_list hvar hlist] at huses) x hv
  | nonNull t ih =>
    intro huses w h
    rw [coerceLiteral_nonNull s vars hvar] at h
    cases hcoerced : coerceLiteral s vars l t with
    | error e => simp [hcoerced, Except.bind] at h
    | ok value? =>
      simp only [hcoerced, Except.bind, Literal.refuseNull] at h
      split at h
      · simp at h
      · next hne =>
        obtain rfl := Except.ok.inj h
        exact .nonNull (fun hw => hne (hw ▸ rfl))
          (ih (by rwa [Literal.uses_nonNull hvar] at huses) w hcoerced)

/-- A literal is coerced to a conforming value if each variable in it has a value that
conforms where it stands. -/
theorem conforms_of_coerceLiteral (hs : s.DefaultsConform) {l : Literal} {t : TypeExpr}
    (huses : UsesConform s vars (l.uses s t)) {w : Json}
    (h : coerceLiteral s vars l t = .ok (some w)) : InputConforms s t w := by
  suffices hl : l.CoercedConforms s vars from hl t huses w h
  clear h huses
  induction l using Literal.induction_on_parts with
  | leaf l hlist hobject =>
    by_cases hvar : ∃ name, l = .var name
    · obtain ⟨name, rfl⟩ := hvar
      exact coercedConforms_var name
    · exact literalConforms_of_parts hs (not_exists.1 hvar)
        (fun items h => absurd h (hlist items)) fun fields h => absurd h (hobject fields)
  | list items ih =>
    refine literalConforms_of_parts hs (by simp) (fun items' h => ?_) (by simp)
    obtain rfl := Literal.list.inj h
    exact ih
  | object fields ih =>
    refine literalConforms_of_parts hs (by simp) (by simp) fun fields' h => ?_
    obtain rfl := Literal.object.inj h
    exact ih

end

/-! ## Types whose values conform to others -/

/-- Values of a type other than null conform to another type. -/
def Schema.Substitutes (s : Schema) (t u : TypeExpr) : Prop :=
  ∀ v, v ≠ .null → InputConforms s t v → InputConforms s u v

/-- The types differ only in what is non-null, and the items of the first exclude null if
those of the second do. -/
def TypeExpr.narrows : TypeExpr → TypeExpr → Bool
  | .nonNull t, u => t.narrows u
  | .named name, u => u.nullableType == .named name
  | .list t, u =>
    match u.nullableType with
    | .list item => (!item.isNonNull || t.isNonNull) && t.narrows item
    | _ => false

theorem TypeExpr.substitutes_of_narrows {s : Schema} {t u : TypeExpr} (h : t.narrows u = true) :
    s.Substitutes t u := by
  induction t generalizing u with
  | named name =>
    intro v hv hconforms
    have hu : u.nullableType = .named name := by simpa [narrows] using h
    rw [← InputConforms.nullableType_iff hv, hu]
    exact hconforms
  | list t ih =>
    intro v hv hconforms
    simp only [narrows] at h
    split at h
    · next item hitem =>
      simp only [Bool.and_eq_true, Bool.or_eq_true, Bool.not_eq_true'] at h
      obtain ⟨hnull, hnarrows⟩ := h
      rw [← InputConforms.nullableType_iff hv, hitem]
      cases hconforms with
      | nullList => exact absurd rfl hv
      | list hitems =>
        refine .list fun x hx => ?_
        by_cases hxnull : x = .null
        · subst hxnull
          have ht := (hitems _ hx).nullable_of_null
          exact .null_of_nullable (hnull.resolve_right (by simp [ht]))
        · exact ih hnarrows x hxnull (hitems x hx)
    · simp at h
  | nonNull t ih =>
    intro v hv hconforms
    cases hconforms with
    | nonNull _ hconforms => exact ih h v hv hconforms

end GraphQL
