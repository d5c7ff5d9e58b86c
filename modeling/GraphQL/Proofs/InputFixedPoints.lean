/-
GraphQL.Proofs.InputFixedPoints — input coercion has nothing to do twice.

`InputComplete s t v` says what a value of an input type is once there is nothing left to
coerce: floats at `Float`, strings at `ID`, arrays exactly where the type has lists, and
objects with their fields in the order of declaration, those with a default among them.
Coercion turns a value into a complete one, by wrapping, rewriting and filling in; a
complete value it leaves as it is.

* `complete_of_coerceInput` — what comes out is complete, if the defaults are or if it is
  what went in, by induction on the parts of the value: such an object needs no defaults.
* `coerceInput_of_complete` — complete values are fixed points, by induction on why they
  are complete.
* `coerceInput_fixedPoints` — so coercing twice is coercing once, on schemas whose input
  fields have defaults that are fixed points themselves.
-/
import GraphQL.Proofs.Inlining

namespace GraphQL

/-! ## Complete values -/

/-- What the built-in conversions make of the values of variables. -/
inductive ScalarCoercion.Gives : ScalarCoercion → Json → Prop
  | int {i : Int} (hi : fitsInt32 i = true) : Gives .int (.int i)
  | float (x : Binary64) : Gives .float (.num (.float x))
  | string (t : String) : Gives .string (.str t)
  | boolean (b : Bool) : Gives .boolean (.bool b)
  | id (t : String) : Gives .id (.str t)

/-- A value of an input type that has everything the type says, in its form. -/
inductive InputComplete (s : Schema) : TypeExpr → Json → Prop
  | nonNull {t : TypeExpr} {v : Json} (hv : v ≠ .null) (h : InputComplete s t v) :
      InputComplete s (.nonNull t) v
  | nullList (item : TypeExpr) : InputComplete s (.list item) .null
  | nullNamed (name : String) : InputComplete s (.named name) .null
  | list {item : TypeExpr} {items : List Json} (h : ∀ v ∈ items, InputComplete s item v) :
      InputComplete s (.list item) (.arr items)
  | scalar {name : String} {c : ScalarType} {v : Json} (hc : s.type? name = some (.scalar c))
      (hv : c.coercion.Gives v) : InputComplete s (.named name) v
  | enum {name : String} {e : EnumType} {value : String} (he : s.type? name = some (.enum e))
      (hv : e.contains value = true) : InputComplete s (.named name) (.str value)
  | object {name : String} {o : InputObjectType} {fields : List (String × Json)}
      (ho : s.type? name = some (.inputObject o))
      (ordered : (Entries.keys fields).Sublist (o.fields.items.map InputValue.name))
      (filled : ∀ d ∈ o.fields.items, d.default?.isSome = true ∨ d.type.isNonNull = true →
        d.name ∈ Entries.keys fields)
      (values : ∀ x ∈ fields, ∀ d ∈ o.fields.items, d.name = x.1 → InputComplete s d.type x.2) :
      InputComplete s (.named name) (.obj fields)

/-- The defaults of input fields, with their types. -/
def Schema.inputDefaults (s : Schema) : List (TypeExpr × Json) :=
  s.types.items.flatMap fun
    | .inputObject o => o.fields.items.filterMap fun d => d.default?.map (d.type, ·)
    | _ => []

/-- Coercion leaves the defaults of input fields as they are. -/
def Schema.DefaultsFixed (s : Schema) : Prop :=
  ∀ x ∈ s.inputDefaults, coerceInput s x.2 x.1 = .ok x.2

/-- The defaults of input fields are complete. -/
def Schema.DefaultsComplete (s : Schema) : Prop :=
  ∀ x ∈ s.inputDefaults, InputComplete s x.1 x.2

/-! ## Scalars -/

namespace ScalarCoercion

variable {c : ScalarCoercion} {v w : Json}

theorem float_of_floatOfNumber {n : Number} (h : floatOfNumber n = .ok w) :
    ScalarCoercion.float.Gives w := by
  unfold floatOfNumber at h
  split at h
  · obtain rfl := Except.ok.inj h
    exact .float _
  · simp [cannotRepresent] at h

/-- A built-in conversion gives what it says, -/
theorem IsBuiltin.gives (hc : c.IsBuiltin) (h : c.ofValue v = .ok w) : c.Gives w := by
  have hadmits := admits_of_ofValue h
  rcases hc with rfl | rfl | rfl | rfl | rfl
  · obtain ⟨i, rfl, hi⟩ := hadmits.int rfl
    exact .int hi
  · cases v with
    | num n => exact float_of_floatOfNumber h
    | _ => simp [ScalarCoercion.float, cannotRepresent] at h
  · obtain ⟨t, rfl⟩ := hadmits.string rfl
    exact .string t
  · obtain ⟨b, rfl⟩ := hadmits.boolean rfl
    exact .boolean b
  · obtain ⟨t, rfl⟩ := hadmits.id rfl
    exact .id t

theorem fitsInt64_of_fitsInt32 {i : Int} (h : fitsInt32 i = true) : fitsInt64 i = true := by
  simp only [fitsInt32, fitsInt64, Bool.and_eq_true, decide_eq_true_eq] at h ⊢
  omega

/-- and leaves that as it is. -/
theorem Gives.fixed (h : c.Gives v) : c.ofValue v = .ok v := by
  cases h with
  | int hi =>
    simp [ScalarCoercion.int, Json.int, Number.toInt64?, fitsInt64_of_fitsInt32 hi, int32, hi]
  | _ => rfl

theorem Gives.ne_null (h : c.Gives v) : v ≠ .null := by
  cases h <;> simp [Json.int]

end ScalarCoercion

/-! ## Objects -/

section

variable {s : Schema}

theorem Schema.DefaultsComplete.inputObject (hd : s.DefaultsComplete) {name : String}
    {o : InputObjectType} (ho : s.type? name = some (.inputObject o)) {d : InputValue}
    (hmem : d ∈ o.fields.items) {v : Json} (hv : d.default? = some v) :
    InputComplete s d.type v :=
  hd (d.type, v) (List.mem_flatMap.2 ⟨.inputObject o, (Registry.mem_of_get? ho).1,
    List.mem_filterMap.2 ⟨d, hmem, by rw [hv]; rfl⟩⟩)

/-- Declared names are bound to what is given, if that is all there is to bind: the names are
in order, and a name that is left out has no default and may be left out. -/
theorem bindAll_eq_self {supply : InputValue → Except Misfit (Option Json)}
    {ds : List InputValue} (hnames : (ds.map InputValue.name).Nodup)
    {fields : List (String × Json)}
    (ordered : (Entries.keys fields).Sublist (ds.map InputValue.name))
    (filled : ∀ d ∈ ds, d.default?.isSome = true ∨ d.type.isNonNull = true →
      d.name ∈ Entries.keys fields)
    (given : ∀ d ∈ ds, supply d = .ok (fields.lookup d.name)) :
    bindAll supply ds = .ok fields := by
  induction ds generalizing fields with
  | nil =>
    obtain rfl : fields = [] := List.map_eq_nil_iff.1 (List.sublist_nil.1 ordered)
    rfl
  | cons d ds ih =>
    obtain ⟨hnew, hnames⟩ := List.nodup_cons.1 hnames
    have hne : ∀ d' ∈ ds, d'.name ≠ d.name := fun d' hd' heq =>
      hnew (heq ▸ List.mem_map_of_mem hd')
    have hgiven := given d List.mem_cons_self
    rcases List.sublist_cons_iff.1 ordered with hleft | ⟨keys, hkeys, hrest⟩
    · -- the name is left out
      have hnot : d.name ∉ Entries.keys fields := fun hmem => hnew (hleft.subset hmem)
      have hnone : fields.lookup d.name = none :=
        Option.not_isSome_iff_eq_none.1 (mt Entries.mem_keys_iff.2 hnot)
      have hfree := mt (filled d List.mem_cons_self) hnot
      rw [not_or, Bool.not_eq_true, Bool.not_eq_true, Option.isSome_eq_false_iff,
        Option.isNone_iff_eq_none] at hfree
      have hrec := ih hnames hleft (fun d' hd' => filled d' (List.mem_cons_of_mem _ hd'))
        fun d' hd' => given d' (List.mem_cons_of_mem _ hd')
      simp [bindAll, hgiven, hnone, InputValue.fill, hfree, hrec]
    · -- the name comes first
      obtain ⟨⟨key, v⟩, rest, rfl, rfl, rfl⟩ := List.map_eq_cons_iff.1 hkeys
      have hrec := ih hnames hrest (fun d' hd' hfill => ?_) fun d' hd' => ?_
      · simp only [List.lookup_cons_self] at hgiven
        simp [bindAll, hgiven, InputValue.fill, hrec]
      · have hmem := filled d' (List.mem_cons_of_mem _ hd') hfill
        exact (List.mem_cons.1 hmem).resolve_left (hne d' hd')
      · rw [given d' (List.mem_cons_of_mem _ hd'), List.lookup_cons,
          beq_eq_false_iff_ne.2 (hne d' hd')]

/-- An object is complete if its fields are bound to complete values. -/
theorem complete_of_bindAll {name : String} {o : InputObjectType}
    (ho : s.type? name = some (.inputObject o))
    {supply : InputValue → Except Misfit (Option Json)} {fields : List (String × Json)}
    (h : bindAll supply o.fields.items = .ok fields)
    (hvalues : ∀ d ∈ o.fields.items, ∀ v, fields.lookup d.name = some v →
      InputComplete s d.type v) : InputComplete s (.named name) (.obj fields) := by
  have hordered := keys_sublist_of_bindAll h
  refine .object ho hordered (fun d hd hfill => ?_) fun x hx d hd hname => ?_
  · rcases hfill with hdefault | hn
    · obtain ⟨given, -, hlookup⟩ := lookup_of_bindAll o.fields.nodup h hd
      rw [Entries.mem_keys_iff, hlookup]
      simp [hdefault]
    · obtain ⟨x, hx, hname⟩ := (bindings_of_bindAll h).2 d hd hn
      exact hname ▸ List.mem_map_of_mem hx
  · refine hvalues d hd x.2 ?_
    rw [hname]
    exact Entries.lookup_of_mem (hordered.nodup o.fields.nodup) hx

/-! ## What comes out is complete -/

/-- Whatever a value is coerced to is complete, if the defaults are or if it is the value. -/
def Json.CoercedComplete (s : Schema) (v : Json) : Prop :=
  ∀ t w, coerceInput s v t = .ok w → w = v ∨ s.DefaultsComplete → InputComplete s t w

/-- At a named type nothing but null is coerced to null. -/
theorem ne_null_of_atName (hk : s.KeepsValues) {v : Json} (hv : v ≠ .null) {name : String}
    {w : Json} (h : Input.atName s v (Input.parts s v) name = .ok w) : w ≠ .null := by
  unfold Input.atName at h
  split at h
  · next c hc =>
    rintro rfl
    exact hk c (Registry.mem_of_get? hc).1 v hv h
  · unfold Input.enumValue at h
    split at h
    · split at h
      · obtain rfl := Except.ok.inj h
        exact hv
      · cases h
    · cases h
  · split at h
    · unfold Input.inputObject at h
      split at h
      · cases h
      · obtain ⟨_, -, rfl⟩ := Except.map_eq_ok h
        simp
    · cases h
  · cases h

/-- Nothing but null is coerced to null: by induction on the type. -/
theorem ne_null_of_coerceInput (hk : s.KeepsValues) {v : Json} (hv : v ≠ .null) {t : TypeExpr}
    {w : Json} (h : coerceInput s v t = .ok w) : w ≠ .null := by
  have hnull := Json.isNull_eq_false.2 hv
  induction t generalizing w with
  | named name =>
    rw [coerceInput_eq, Input.atType, if_neg (by simp [hnull])] at h
    exact ne_null_of_atName hk hv h
  | list item _ =>
    by_cases harr : ∃ items, v = .arr items
    · obtain ⟨items, rfl⟩ := harr
      rw [coerceInput_list_arr] at h
      obtain ⟨_, -, rfl⟩ := Except.map_eq_ok h
      simp
    · rw [coerceInput_list_single s item hv (not_exists.1 harr)] at h
      obtain ⟨_, -, rfl⟩ := Except.map_eq_ok h
      simp
  | nonNull t ih =>
    rw [coerceInput_nonNull, if_neg (by simp [hnull])] at h
    exact ih h

/-- An input object is complete if the values of its fields are. -/
theorem complete_of_inputObject {name : String} {o : InputObjectType}
    (ho : s.type? name = some (.inputObject o)) {fields : List (String × Json)}
    (ih : ∀ x ∈ fields, x.2.CoercedComplete s) {w : Json}
    (h : Input.inputObject o name (coerceFields s fields) = .ok w)
    (hw : w = .obj fields ∨ s.DefaultsComplete) : InputComplete s (.named name) w := by
  unfold Input.inputObject at h
  split at h
  · cases h
  · obtain ⟨bound, hbound, rfl⟩ := Except.map_eq_ok h
    refine complete_of_bindAll ho hbound fun d hd v hv => ?_
    obtain ⟨given, hgiven, hlookup⟩ := lookup_of_bindAll o.fields.nodup hbound hd
    rw [coerceFields_eq_map, Entries.lookup_map fun _ => coerceInput s] at hgiven
    cases hfield : fields.lookup d.name with
    | none =>
      -- only a default can stand here, and an object that stays as it is has none
      obtain rfl : given = none := by simpa [hfield] using hgiven.symm
      rcases hw with hsame | hd'
      · obtain rfl := Json.obj.inj hsame
        simp [hfield] at hv
      · rw [hv, Option.none_or] at hlookup
        exact hd'.inputObject ho hd hlookup.symm
    | some u =>
      simp only [hfield, Option.map_some] at hgiven
      obtain ⟨w, hcoerced, rfl⟩ := Except.map_eq_ok hgiven
      rw [hv, Option.some_or] at hlookup
      obtain rfl := Option.some.inj hlookup
      refine ih _ (Entries.mem_of_lookup hfield) d.type v hcoerced (hw.imp_left fun hsame => ?_)
      obtain rfl := Json.obj.inj hsame
      exact Option.some.inj (hv.symm.trans hfield)

/-- At a named type a value that is not null is coerced to a complete one. -/
theorem complete_of_atName (hs : s.BuiltinScalars) {v : Json}
    (ih : ∀ fields, v = .obj fields → ∀ x ∈ fields, x.2.CoercedComplete s) {name : String}
    {w : Json} (h : Input.atName s v (Input.parts s v) name = .ok w)
    (hw : w = v ∨ s.DefaultsComplete) : InputComplete s (.named name) w := by
  unfold Input.atName at h
  split at h
  · next c hc => exact .scalar hc ((hs c (Registry.mem_of_get? hc).1).gives h)
  · next e he =>
    unfold Input.enumValue at h
    split at h
    · split at h
      · next hcontains =>
        obtain rfl := Except.ok.inj h
        exact .enum he hcontains
      · cases h
    · cases h
  · next o ho =>
    cases v with
    | obj fields => exact complete_of_inputObject ho (ih fields rfl) h hw
    | _ => simp [Input.parts] at h
  · cases h

/-- A value is coerced to a complete one if its parts are: by induction on the type. -/
theorem coercedComplete_of_parts (hs : s.BuiltinScalars) {v : Json}
    (hitems : ∀ items, v = .arr items → ∀ x ∈ items, x.CoercedComplete s)
    (hfields : ∀ fields, v = .obj fields → ∀ x ∈ fields, x.2.CoercedComplete s) :
    v.CoercedComplete s := by
  intro t w h hw
  by_cases hv : v = .null
  · subst hv
    cases t with
    | nonNull t => simp [coerceInput_nonNull] at h
    | list item =>
      rw [coerceInput_null s rfl] at h
      obtain rfl := Except.ok.inj h
      exact .nullList item
    | named name =>
      rw [coerceInput_null s rfl] at h
      obtain rfl := Except.ok.inj h
      exact .nullNamed name
  · have hnull := Json.isNull_eq_false.2 hv
    induction t generalizing w with
    | named name =>
      rw [coerceInput_eq, Input.atType, if_neg (by simp [hnull])] at h
      exact complete_of_atName hs hfields h hw
    | list item ih =>
      by_cases harr : ∃ items, v = .arr items
      · obtain ⟨items, rfl⟩ := harr
        rw [coerceInput_list_arr] at h
        obtain ⟨ws, hws, rfl⟩ := Except.map_eq_ok h
        refine .list fun w hmem => ?_
        rcases hw with hsame | hd
        · obtain rfl := Json.arr.inj hsame
          exact hitems ws rfl w hmem item w (mapM_eq_self hws w hmem) (.inl rfl)
        · obtain ⟨x, hx, hxw⟩ := exists_source_of_mapM hws w hmem
          exact hitems items rfl x hx item w hxw (.inr hd)
      · rw [coerceInput_list_single s item hv (not_exists.1 harr)] at h
        obtain ⟨w', hw', rfl⟩ := Except.map_eq_ok h
        refine .list fun x hx => ?_
        obtain rfl := List.mem_singleton.1 hx
        -- a value that is wrapped does not stay as it is
        exact ih x hw' (.inr (hw.resolve_left fun hsame => harr ⟨_, hsame.symm⟩))
    | nonNull t ih =>
      rw [coerceInput_nonNull, if_neg (by simp [hnull])] at h
      exact .nonNull (ne_null_of_coerceInput hs.keepsValues hv h) (ih w h hw)

/-- What comes out of coercion is complete, if the defaults are or if it is what went in. -/
theorem complete_of_coerceInput (hs : s.BuiltinScalars) {v : Json} {t : TypeExpr} {w : Json}
    (h : coerceInput s v t = .ok w) (hw : w = v ∨ s.DefaultsComplete) : InputComplete s t w := by
  suffices hv : v.CoercedComplete s from hv t w h hw
  clear h hw
  induction v using Json.induction_on_parts with
  | leaf v harr hobj =>
    exact coercedComplete_of_parts hs (fun items h => absurd h (harr items))
      fun fields h => absurd h (hobj fields)
  | arr items ih =>
    refine coercedComplete_of_parts hs (fun items' h => ?_) (by simp)
    obtain rfl := Json.arr.inj h
    exact ih
  | obj fields ih =>
    refine coercedComplete_of_parts hs (by simp) fun fields' h => ?_
    obtain rfl := Json.obj.inj h
    exact ih

/-! ## What is complete stays as it is -/

theorem mapM_of_eq_self {α ε : Type} {f : α → Except ε α} {xs : List α}
    (h : ∀ x ∈ xs, f x = .ok x) : xs.mapM f = .ok xs := by
  induction xs with
  | nil => rfl
  | cons x xs ih =>
    obtain ⟨hx, hxs⟩ := List.forall_mem_cons.1 h
    simp [List.mapM_cons, hx, ih hxs, bind, Except.bind, pure, Except.pure]

/-- An input object whose fields are complete stays as it is if their values do. -/
theorem inputObject_eq_self {o : InputObjectType} {name : String}
    {fields : List (String × Json)}
    (ordered : (Entries.keys fields).Sublist (o.fields.items.map InputValue.name))
    (filled : ∀ d ∈ o.fields.items, d.default?.isSome = true ∨ d.type.isNonNull = true →
      d.name ∈ Entries.keys fields)
    (fixed : ∀ x ∈ fields, ∀ d ∈ o.fields.items, d.name = x.1 →
      coerceInput s x.2 d.type = .ok x.2) :
    Input.inputObject o name (coerceFields s fields) = .ok (.obj fields) := by
  have hknown : (Entries.keys (coerceFields s fields)).find? (fun k => !o.fields.contains k) =
      none := by
    rw [coerceFields_eq_map, Entries.keys_map fun _ => coerceInput s]
    refine List.find?_eq_none.2 fun k hk => ?_
    obtain ⟨d, hd, rfl⟩ := List.mem_map.1 (ordered.subset hk)
    have hget : o.fields.get? d.name = some d := Registry.get?_of_mem hd
    simp [Registry.contains, hget]
  unfold Input.inputObject
  rw [hknown]
  refine congrArg (Except.map Json.obj)
    (bindAll_eq_self o.fields.nodup ordered filled fun d hd => ?_)
  rw [coerceFields_eq_map, Entries.lookup_map fun _ => coerceInput s]
  cases hlookup : fields.lookup d.name with
  | none => rfl
  | some v =>
    have hv := fixed (d.name, v) (Entries.mem_of_lookup hlookup) d hd rfl
    simp only at hv
    simp only [Option.map_some, hv]
    rfl

/-- Coercion leaves a complete value as it is. -/
theorem coerceInput_of_complete {t : TypeExpr} {v : Json} (h : InputComplete s t v) :
    coerceInput s v t = .ok v := by
  induction h with
  | nonNull hv _ ih => rwa [coerceInput_nonNull, if_neg (by simpa using hv)]
  | nullList item => exact coerceInput_null s rfl
  | nullNamed name => exact coerceInput_null s rfl
  | list _ ih =>
    rw [coerceInput_list_arr, mapM_of_eq_self ih]
    rfl
  | @scalar name c v hc hv =>
    have hnull := Json.isNull_eq_false.2 hv.ne_null
    rw [coerceInput_eq, Input.atType, if_neg (by simp [hnull]), Input.atName, hc]
    exact hv.fixed
  | enum he hv =>
    simp [coerceInput, Input.atType, Json.isNull, Input.atName, he, Input.enumValue, hv]
  | @object name o fields ho ordered filled _ ih =>
    rw [coerceInput_eq, Input.atType, if_neg (by simp [Json.isNull]), Input.atName, ho]
    exact inputObject_eq_self ordered filled ih

/-- Defaults that are left as they are are complete. -/
theorem Schema.DefaultsFixed.complete (hs : s.BuiltinScalars) (hd : s.DefaultsFixed) :
    s.DefaultsComplete :=
  fun x hx => complete_of_coerceInput hs (hd x hx) (.inl rfl)

end

/-- Input coercion lands on its fixed points. With the built-in conversions and defaults of
input fields that coercion leaves as they are, whatever it gives is complete and is left as it
is when it is coerced again; and so is every complete value. -/
theorem coerceInput_fixedPoints {s : Schema} (hs : s.BuiltinScalars) (hd : s.DefaultsFixed)
    (t : TypeExpr) :
    (∀ v w, coerceInput s v t = .ok w → InputComplete s t w ∧ coerceInput s w t = .ok w) ∧
      ∀ v, InputComplete s t v → coerceInput s v t = .ok v := by
  refine ⟨fun v w h => ?_, fun v h => coerceInput_of_complete h⟩
  have hw := complete_of_coerceInput hs h (.inr (hd.complete hs))
  exact ⟨hw, coerceInput_of_complete hw⟩

/-- A point without a colour for a list of points: it is wrapped, and so is the one after it;
their fields change places, and both are black by default. -/
theorem coerceInput_fixedPoints_demo :
    let points := .list (.required "Point")
    let given := .obj [("next", .obj [("x", .int 2)]), ("x", .int 1)]
    let complete := .arr [.obj [("x", .int 1), ("colour", .str "BLACK"),
      ("next", .arr [.obj [("x", .int 2), ("colour", .str "BLACK")]])]]
    pointSchema.BuiltinScalars ∧ pointSchema.DefaultsFixed ∧
      coerceInput pointSchema given points = .ok complete ∧
      InputComplete pointSchema points complete ∧
      coerceInput pointSchema complete points = .ok complete := by
  intro points given complete
  have hs : pointSchema.BuiltinScalars :=
    ((Schema.builtinScalars_ofQueryType "Query").register (by simp)).register (by simp)
  have hd : pointSchema.DefaultsFixed := by
    unfold Schema.DefaultsFixed
    decide +kernel
  have hgiven : coerceInput pointSchema given points = .ok complete := by decide +kernel
  exact ⟨hs, hd, hgiven, (coerceInput_fixedPoints hs hd points).1 given complete hgiven⟩

end GraphQL
