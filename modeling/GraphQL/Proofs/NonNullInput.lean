/-
GraphQL.Proofs.NonNullInput — where coerced input can be null.

A type says at each place of a value whether null is excluded there: at the top, in the items of
lists and in the fields of input objects (`InputPlace`). The literals of a document are checked
once they are coerced, so whatever scalars make of them there is no null at such a place. Data is
checked before it is coerced: a scalar that makes null of something else leaves a null behind,
and nothing else does (`Schema.Nullifies`).

* `InputConforms.of_place` — what conforms does so at each of its places.
* `NullsMade` — the nulls at non-null places are those that scalars make.
* `nullsMade_of_coerceInput` — so it is in coerced data.
* `Schema.nonNull_respected` — literals, data and the variables of a request.
* `Schema.nonNull_ignored` — a scalar for which a null gets through, and a variable that is
  declared twice.
-/
import GraphQL.Proofs.Arguments

namespace GraphQL

variable {s : Schema}

/-! ## Places of a value -/

/-- A value of a type has another value of another type inside, or is it. -/
inductive InputPlace (s : Schema) : TypeExpr → Json → TypeExpr → Json → Prop
  | here (t : TypeExpr) (v : Json) : InputPlace s t v t v
  | nonNull {t u : TypeExpr} {v w : Json} (h : InputPlace s t v u w) :
      InputPlace s (.nonNull t) v u w
  | item {t u : TypeExpr} {items : List Json} {v w : Json} (hv : v ∈ items)
      (h : InputPlace s t v u w) : InputPlace s (.list t) (.arr items) u w
  | field {name : String} {o : InputObjectType} {fields : List (String × Json)}
      {x : String × Json} {d : InputValue} {u : TypeExpr} {w : Json}
      (ho : s.type? name = some (.inputObject o)) (hx : x ∈ fields) (hd : d ∈ o.fields.items)
      (hname : d.name = x.1) (h : InputPlace s d.type x.2 u w) :
      InputPlace s (.named name) (.obj fields) u w

/-- There is no null where the type excludes it. -/
def NullFree (s : Schema) (t : TypeExpr) (v : Json) : Prop :=
  ∀ u w, InputPlace s t v u w → u.isNonNull = true → w ≠ .null

/-- What conforms to its type does so at each of its places. -/
theorem InputConforms.of_place {t u : TypeExpr} {v w : Json} (h : InputConforms s t v)
    (hplace : InputPlace s t v u w) : InputConforms s u w := by
  induction hplace with
  | here => exact h
  | nonNull _ ih =>
    cases h with
    | nonNull _ h => exact ih h
  | item hv _ ih =>
    cases h with
    | list hitems => exact ih (hitems _ hv)
  | field ho hx hd hname _ ih =>
    cases h with
    | scalar ht _ => exact absurd (ht.symm.trans ho) nofun
    | object ho' _ _ values =>
      obtain rfl := TypeDefinition.inputObject.inj (Option.some.inj (ho.symm.trans ho'))
      exact ih (values _ hx _ hd hname)

theorem InputConforms.nullFree {t : TypeExpr} {v : Json} (h : InputConforms s t v) :
    NullFree s t v := by
  rintro u w hplace hn rfl
  exact absurd hn (by simp [(h.of_place hplace).nullable_of_null])

/-! ## Nulls that scalars make -/

/-- A type is that of a scalar, perhaps non-null, that makes null of some other value. -/
def Schema.Nullifies (s : Schema) (t : TypeExpr) : Prop :=
  ∃ name c v, t.nullableType = .named name ∧ s.type? name = some (.scalar c) ∧ v ≠ .null ∧
    c.coercion.ofValue v = .ok .null

/-- Where a type excludes null there is null only if a scalar makes it. -/
def NullsMade (s : Schema) (t : TypeExpr) (v : Json) : Prop :=
  ∀ u, InputPlace s t v u .null → u.isNonNull = true → s.Nullifies u

namespace NullsMade

variable {t : TypeExpr} {v : Json} {name : String}

theorem of_nullFree (h : NullFree s t v) : NullsMade s t v :=
  fun u hplace hn => absurd rfl (h u _ hplace hn)

/-- If no scalar makes null there is none. -/
theorem nullFree (h : NullsMade s t v) (hk : s.KeepsValues) : NullFree s t v := by
  rintro u w hplace hn rfl
  obtain ⟨name, c, v, -, hc, hv, hnull⟩ := h u hplace hn
  exact hk c (Registry.mem_of_get? hc).1 v hv hnull

theorem nonNull (h : NullsMade s t v) (hv : v = .null → s.Nullifies t) :
    NullsMade s (.nonNull t) v := by
  intro u hplace hn
  cases hplace with
  | here => exact hv rfl
  | nonNull hplace => exact h u hplace hn

theorem list {items : List Json} (h : ∀ v ∈ items, NullsMade s t v) :
    NullsMade s (.list t) (.arr items) := by
  intro u hplace hn
  cases hplace with
  | item hv hplace => exact h _ hv u hplace hn

/-- A value of a scalar or an enum has no places inside. -/
theorem leaf (h : ∀ o, s.type? name ≠ some (.inputObject o)) : NullsMade s (.named name) v := by
  intro u hplace hn
  cases hplace with
  | here => cases hn
  | field ho => exact absurd ho (h _)

theorem object {o : InputObjectType} (ho : s.type? name = some (.inputObject o))
    {fields : List (String × Json)}
    (h : ∀ x ∈ fields, ∀ d ∈ o.fields.items, d.name = x.1 → NullsMade s d.type x.2) :
    NullsMade s (.named name) (.obj fields) := by
  intro u hplace hn
  cases hplace with
  | field ho' hx hd hname hplace =>
    obtain rfl := TypeDefinition.inputObject.inj (Option.some.inj (ho.symm.trans ho'))
    exact h _ hx _ hd hname u hplace hn

end NullsMade

/-! ## Coerced data -/

/-- A coerced value has only nulls that scalars make, and is null only if it was or a scalar
makes it so. -/
def Json.CoercedNulls (s : Schema) (v : Json) : Prop :=
  ∀ t w, coerceInput s v t = .ok w →
    NullsMade s t w ∧ (v ≠ .null → w = .null → s.Nullifies t)

theorem nullsMade_of_inputObject (hs : s.DefaultsConform) {name : String} {o : InputObjectType}
    (ho : s.type? name = some (.inputObject o)) {fields : List (String × Json)}
    (ih : ∀ x ∈ fields, x.2.CoercedNulls s) {w : Json}
    (h : Input.inputObject o name (coerceFields s fields) = .ok w) :
    NullsMade s (.named name) w ∧ w ≠ .null := by
  unfold Input.inputObject at h
  split at h
  · cases h
  · obtain ⟨bound, hbound, rfl⟩ := Except.map_eq_ok h
    refine ⟨.object ho fun x hx d hd hname => ?_, by simp⟩
    obtain ⟨d', hd', hname', hv⟩ := (bindings_of_bindAll hbound).1 x hx
    obtain rfl := Registry.eq_of_name_eq hd hd' (hname.trans hname'.symm)
    rcases hv with hv | hdefault
    · rw [coerceFields_eq_map, Entries.lookup_map fun _ => coerceInput s] at hv
      cases hlookup : fields.lookup d.name with
      | none => simp [hlookup] at hv
      | some given =>
        simp only [hlookup, Option.map_some] at hv
        obtain ⟨w, hw, hwx⟩ := Except.map_eq_ok hv
        obtain rfl := Option.some.inj hwx
        exact (ih _ (Entries.mem_of_lookup hlookup) d.type _ hw).1
    · exact .of_nullFree (hs.inputObject ho d hd _ hdefault).nullFree

theorem nullsMade_of_atName (hs : s.DefaultsConform) {v : Json} (hv : v ≠ .null)
    (ih : ∀ fields, v = .obj fields → ∀ x ∈ fields, x.2.CoercedNulls s) {name : String} {w : Json}
    (h : Input.atName s v (Input.parts s v) name = .ok w) :
    NullsMade s (.named name) w ∧ (w = .null → s.Nullifies (.named name)) := by
  unfold Input.atName at h
  split at h
  · next c hc =>
    refine ⟨.leaf fun o ho => absurd (hc.symm.trans ho) nofun, ?_⟩
    rintro rfl
    exact ⟨name, c, v, rfl, hc, hv, h⟩
  · next e he =>
    refine ⟨.leaf fun o ho => absurd (he.symm.trans ho) nofun, ?_⟩
    rintro rfl
    unfold Input.enumValue at h
    split at h
    · split at h
      · cases h
      · cases h
    · cases h
  · next o ho =>
    cases v with
    | obj fields =>
      obtain ⟨hmade, hne⟩ := nullsMade_of_inputObject hs ho (ih fields rfl) h
      exact ⟨hmade, fun hw => absurd hw hne⟩
    | _ => cases h
  · cases h

/-- Coerced data has only nulls that scalars make if its parts have: by induction on the type. -/
theorem coercedNulls_of_parts (hs : s.DefaultsConform) {v : Json}
    (hitems : ∀ items, v = .arr items → ∀ x ∈ items, x.CoercedNulls s)
    (hfields : ∀ fields, v = .obj fields → ∀ x ∈ fields, x.2.CoercedNulls s) :
    v.CoercedNulls s := by
  by_cases hv : v = .null
  · -- null is coerced to null wherever it is allowed
    subst hv
    intro t w h
    refine ⟨?_, fun hne => absurd rfl hne⟩
    cases t with
    | nonNull t => simp [coerceInput_nonNull, Json.isNull] at h
    | _ =>
      rw [coerceInput_null s rfl] at h
      obtain rfl := Except.ok.inj h
      exact .of_nullFree (InputConforms.null_of_nullable rfl).nullFree
  · have hnull : v.isNull = false := Json.isNull_eq_false.2 hv
    intro t
    suffices h : ∀ w, coerceInput s v t = .ok w →
        NullsMade s t w ∧ (w = .null → s.Nullifies t) from
      fun w hw => ⟨(h w hw).1, fun _ => (h w hw).2⟩
    induction t with
    | named name =>
      intro w h
      rw [coerceInput_eq, Input.atType, hnull] at h
      exact nullsMade_of_atName hs hv hfields h
    | list item ih =>
      intro w h
      by_cases harr : ∃ items, v = .arr items
      · obtain ⟨items, rfl⟩ := harr
        rw [coerceInput_list_arr] at h
        obtain ⟨ws, hws, rfl⟩ := Except.map_eq_ok h
        refine ⟨.list fun w hw => ?_, by simp⟩
        obtain ⟨x, hx, hxw⟩ := exists_source_of_mapM hws w hw
        exact (hitems items rfl x hx item w hxw).1
      · rw [coerceInput_list_single s item hv (not_exists.1 harr)] at h
        obtain ⟨w', hw', rfl⟩ := Except.map_eq_ok h
        refine ⟨.list fun x hx => ?_, by simp⟩
        obtain rfl := List.mem_singleton.1 hx
        exact (ih x hw').1
    | nonNull t ih =>
      intro w h
      rw [coerceInput_nonNull, hnull] at h
      obtain ⟨hmade, hw⟩ := ih w h
      exact ⟨hmade.nonNull hw, hw⟩

/-- In coerced data the nulls at non-null places are those that scalars make. -/
theorem nullsMade_of_coerceInput (hs : s.DefaultsConform) {v : Json} {t : TypeExpr} {w : Json}
    (h : coerceInput s v t = .ok w) : NullsMade s t w := by
  suffices hv : v.CoercedNulls s from (hv t w h).1
  clear h
  induction v using Json.induction_on_parts with
  | leaf v harr hobj =>
    exact coercedNulls_of_parts hs (fun items h => absurd h (harr items))
      fun fields h => absurd h (hobj fields)
  | arr items ih =>
    refine coercedNulls_of_parts hs (fun items' h => ?_) nofun
    obtain rfl := Json.arr.inj h
    exact ih
  | obj fields ih =>
    refine coercedNulls_of_parts hs nofun fun fields' h => ?_
    obtain rfl := Json.obj.inj h
    exact ih

/-! ## Literals without variables -/

/-- A literal mentions no variable. -/
inductive Literal.VariableFree : Literal → Prop
  | leaf {l : Literal} (hvar : ∀ name, l ≠ .var name) (hlist : ∀ items, l ≠ .list items)
      (hobject : ∀ fields, l ≠ .object fields) : VariableFree l
  | list {items : List Literal} (h : ∀ l ∈ items, VariableFree l) : VariableFree (.list items)
  | object {fields : List (String × Literal)} (h : ∀ x ∈ fields, VariableFree x.2) :
      VariableFree (.object fields)

namespace Literal

theorem usesOfItems_eq_nil {items : List Literal} (h : ∀ l ∈ items, ∀ t, l.uses s t = [])
    (item? : Option TypeExpr) : usesOfItems s items item? = [] := by
  induction items with
  | nil => rfl
  | cons l items ih =>
    obtain ⟨hl, hitems⟩ := List.forall_mem_cons.1 h
    cases item? with
    | none => simp [usesOfItems, ih hitems]
    | some item => simp [usesOfItems, hl item, ih hitems]

theorem usesOfFields_eq_nil {fields : List (String × Literal)}
    (h : ∀ x ∈ fields, ∀ t, x.2.uses s t = []) (t : TypeExpr) : usesOfFields s fields t = [] := by
  induction fields with
  | nil => rfl
  | cons p fields ih =>
    obtain ⟨key, l⟩ := p
    obtain ⟨hl, hfields⟩ := List.forall_mem_cons.1 h
    simp only [usesOfFields, ih hfields, List.append_nil]
    cases s.inputFieldType? t key with
    | none => rfl
    | some u => exact hl u

/-- Without variables none stands at any place. -/
theorem VariableFree.uses_eq_nil {l : Literal} (h : l.VariableFree) (t : TypeExpr) :
    l.uses s t = [] := by
  induction h generalizing t with
  | @leaf l hvar hlist hobject =>
    cases l with
    | var name => exact absurd rfl (hvar name)
    | list items => exact absurd rfl (hlist items)
    | object fields => exact absurd rfl (hobject fields)
    | _ => rfl
  | list _ ih => exact usesOfItems_eq_nil ih _
  | object _ ih => exact usesOfFields_eq_nil ih t

end Literal

/-! ## Literals, data and variables -/

/-- The value of a variable has only nulls that scalars make, at places that exclude null. -/
theorem VariableDefinition.nullsMade_of_value (hs : s.DefaultsConform) {d : VariableDefinition}
    {raw : List (String × Json)} {w : Json} (h : d.value s raw = .ok (some w)) :
    NullsMade s d.type w := by
  unfold value at h
  split at h
  · split at h
    · next v hv =>
      obtain rfl := Option.some.inj (Except.ok.inj h)
      exact nullsMade_of_coerceInput hs hv
    · cases h
  · split at h
    · next l _ =>
      split at h
      · next v hv =>
        obtain rfl := Except.ok.inj h
        -- a default has no variables to stand for anything
        have hnone : UsesConform s [] (l.uses s d.type) := fun _ _ _ hw => by simp at hw
        exact .of_nullFree (conforms_of_coerceLiteral hs hnone hv).nullFree
      · cases h
    · split at h <;> cases h

/-- How non-null types are respected. -/
structure Schema.RespectsNonNull (s : Schema) : Prop where
  /-- What a literal without variables is coerced to has no null where its type excludes it. -/
  literal : ∀ vars l t w, l.VariableFree → coerceLiteral s vars l t = .ok (some w) →
    NullFree s t w
  /-- Nor has coerced data but for what scalars make. -/
  value : ∀ v t w, coerceInput s v t = .ok w → NullsMade s t w
  /-- Nor has the value of a variable that is declared once. -/
  bound : ∀ ds raw vars, coerceVariableValues s ds raw = .ok vars → ∀ d ∈ ds,
    (∀ d' ∈ ds, d'.name = d.name → d' = d) → ∀ w, vars.lookup d.name = some w →
      NullsMade s d.type w

/-- Whatever the scalars, literals respect non-null types at every depth, and data and variables
do up to the nulls that scalars make of other values. -/
theorem Schema.nonNull_respected (hs : s.DefaultsConform) : s.RespectsNonNull where
  literal vars l t w hfree h := by
    have hnone : UsesConform s vars (l.uses s t) := by
      rw [hfree.uses_eq_nil]
      exact fun x hx => absurd hx List.not_mem_nil
    exact (conforms_of_coerceLiteral hs hnone h).nullFree
  value v t w h := nullsMade_of_coerceInput hs h
  bound ds raw vars h d hd honce w hw := by
    unfold coerceVariableValues at h
    split at h
    · obtain rfl := Except.ok.inj h
      obtain ⟨d', hd', hname, hvalue⟩ := exists_definition_of_bound hw
      exact honce d' hd' hname ▸ d'.nullsMade_of_value hs hvalue
    · cases h

/-- Pages of some size, with tags. -/
def pageSchema : Schema :=
  (Schema.ofQueryType "Query").register
    (.inputObject ⟨"Page", .ofList [⟨"size", .required "Int", some (.int 10)⟩,
      ⟨"tags", .list (.required "String"), none⟩]⟩)

/-- A page as the value of a variable: its size is the default, and no scalar makes null. -/
theorem Schema.nonNull_respected_page :
    pageSchema.DefaultsConform ∧ pageSchema.RespectsNonNull ∧
      let given : Json := .obj [("tags", .arr [.str "new"])]
      let page : Json := .obj [("size", .int 10), ("tags", .arr [.str "new"])]
      coerceVariableValues pageSchema [⟨"page", .required "Page", none⟩] [("page", given)] =
          .ok [("page", page)] ∧
        NullFree pageSchema (.required "Page") page := by
  have hs : pageSchema.DefaultsConform := by
    have hdefaults : pageSchema.defaults = [(.required "Int", .int 10)] := by decide +kernel
    intro x hx
    rw [hdefaults] at hx
    obtain rfl := List.mem_singleton.1 hx
    have hint : pageSchema.type? "Int" = some (.scalar ⟨"Int", .int⟩) := rfl
    exact .nonNull nofun (.scalar hint (ScalarCoercion.admits_of_ofValue (v := .int 10) rfl))
  have hk : pageSchema.KeepsValues := by
    refine Schema.BuiltinScalars.keepsValues ?_
    exact (Schema.builtinScalars_ofQueryType "Query").register (by simp)
  have hrespects := Schema.nonNull_respected hs
  have hpage : coerceVariableValues pageSchema [⟨"page", .required "Page", none⟩]
      [("page", .obj [("tags", .arr [.str "new"])])] =
        .ok [("page", .obj [("size", .int 10), ("tags", .arr [.str "new"])])] := by
    decide +kernel
  refine ⟨hs, hrespects, hpage, ?_⟩
  have hmade := hrespects.bound _ _ _ hpage ⟨"page", .required "Page", none⟩ List.mem_cons_self
    (by simp) _ rfl
  exact hmade.nullFree hk

/-- A request that declares its variable twice, the second time as nullable. -/
def redeclaringRequest : Request :=
  Request.ofText "query ($x: Int! = 1, $x: Int = null) { count }"

/-- Null can stand where the type excludes it: made by a scalar of data, though not of a literal,
and bound to a variable that is declared once more. -/
theorem Schema.nonNull_ignored :
    misfitSchema.DefaultsConform ∧
      coerceInput misfitSchema (.str "x") (.required "Blank") = .ok .null ∧
      ¬ NullFree misfitSchema (.required "Blank") .null ∧
      coerceInput misfitSchema (.arr [.str "x"]) (.list (.required "Blank")) = .ok (.arr [.null]) ∧
      ¬ NullFree misfitSchema (.list (.required "Blank")) (.arr [.null]) ∧
      coerceLiteral misfitSchema [] (.string "x") (.required "Blank") =
        .error (.nullRefused "Blank!") ∧
      coerceVariableValues misfitSchema [⟨"x", .required "Blank", none⟩] [("x", .str "s")] =
        .ok [("x", .null)] ∧
      ∃ p d, redeclaringRequest.plan misfitSchema = .ok p ∧
        Validation.findings misfitSchema p.document = [] ∧
        d ∈ p.operation.variableDefinitions ∧ d.name = "x" ∧ d.type = .required "Int" ∧
        p.vars.lookup "x" = some .null := by
  have hdefaults : misfitSchema.defaults = [] := by decide +kernel
  have hplan : ((redeclaringRequest.plan misfitSchema).toOption.any fun p =>
      (Validation.findings misfitSchema p.document).isEmpty &&
        (p.operation.variableDefinitions.any fun d =>
          d.name == "x" && d.type == .required "Int") &&
        p.vars.lookup "x" == some .null) = true := by
    decide +kernel
  obtain ⟨p, hp, hplan⟩ := Except.exists_of_any hplan
  simp only [Bool.and_eq_true, List.isEmpty_iff, List.any_eq_true, beq_iff_eq] at hplan
  obtain ⟨⟨hvalid, d, hd, hname, htype⟩, hnull⟩ := hplan
  refine ⟨fun x hx => ?_, by decide +kernel, fun h => ?_, by decide +kernel, fun h => ?_,
    by decide +kernel, by decide +kernel, p, d, hp, hvalid, hd, hname, htype, hnull⟩
  · simp [hdefaults] at hx
  · exact h _ _ (.here _ _) rfl rfl
  · exact h _ _ (.item List.mem_cons_self (.here _ _)) rfl rfl

end GraphQL
