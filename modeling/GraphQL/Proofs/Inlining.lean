/-
GraphQL.Proofs.Inlining — variables can be inlined.

A bound variable stands for its value as it is: the value was coerced when the request
came in, and is not looked at again where the variable is used. `Literal.inlined` writes
the value in the place of the variable instead, so that it is coerced there like any
other literal. With the built-in scalars this makes no difference, as long as each value
is null or left unchanged by coercion at the type of the place (`UsesFixed`).

An unbound variable has no value. As an item of a list it is null; as an argument or as a
declared field of an input object it is not there; in a field that is not declared, where
nothing is accepted, null is written for it.

* `Json.isReadable_of_fixed` — what coercion leaves unchanged is data that a literal can spell.
* `Literal.inlined_isConstant` — no variable is left.
* `Literal.inlinedAlike` — a literal and what it is inlined to, by induction on its parts.
* `keepsNulls_of_bindAll` — null stays null, an unbound variable leaves the default.
-/
import GraphQL.Proofs.Spelling
import GraphQL.Proofs.InputConformance

namespace GraphQL

/-! ## Values that coercion leaves unchanged -/

theorem mapM_eq_self {α ε : Type} {f : α → Except ε α} {xs : List α} (h : xs.mapM f = .ok xs) :
    ∀ x ∈ xs, f x = .ok x := by
  induction xs with
  | nil => simp
  | cons x xs ih =>
    obtain ⟨y, ys, hx, hxs, heq⟩ := Except.mapM_cons_eq_ok h
    obtain ⟨rfl, rfl⟩ := List.cons.inj heq
    exact List.forall_mem_cons.2 ⟨hx, ih hxs⟩

/-- A built-in scalar that leaves an integer unchanged has 64 bits for it. -/
theorem ScalarCoercion.IsBuiltin.fits {c : ScalarCoercion} (hc : c.IsBuiltin) {i : Int}
    (h : c.ofValue (.num (.int i)) = .ok (.num (.int i))) : fitsInt64 i = true := by
  rcases hc with rfl | rfl | rfl | rfl | rfl
  case inl =>
    by_contra hfits
    simp [ScalarCoercion.int, Number.toInt64?, hfits, cannotRepresent] at h
  case inr.inl =>
    simp only [ScalarCoercion.float, floatOfNumber, Number.toBinary64?] at h
    split at h <;> simp [cannotRepresent] at h
  all_goals simp [ScalarCoercion.string, ScalarCoercion.boolean, ScalarCoercion.id, idOfValue,
    cannotRepresent] at h

/-- The built-in scalars refuse arrays and objects, -/
theorem ScalarCoercion.IsBuiltin.refuses_value {c : ScalarCoercion} (hc : c.IsBuiltin) {v : Json}
    (hv : (∃ items, v = .arr items) ∨ ∃ fields, v = .obj fields) :
    ∃ e, c.ofValue v = .error e := by
  rcases hv with ⟨items, rfl⟩ | ⟨fields, rfl⟩ <;>
    rcases hc with rfl | rfl | rfl | rfl | rfl <;> exact ⟨_, rfl⟩

/-- and lists and objects as literals. -/
theorem ScalarCoercion.IsBuiltin.refuses_literal {c : ScalarCoercion} (hc : c.IsBuiltin)
    {l : Literal} (hl : (∃ items, l = .list items) ∨ ∃ fields, l = .object fields) :
    ∃ e, c.ofLiteral l = .error e := by
  rcases hl with ⟨items, rfl⟩ | ⟨fields, rfl⟩ <;>
    rcases hc with rfl | rfl | rfl | rfl | rfl <;> exact ⟨_, rfl⟩

section

variable {s : Schema}

/-- A value that a type leaves unchanged, if it is neither null nor an array, is left so by
the innermost name of the type. -/
theorem atName_of_fixed {v : Json} (hv : v ≠ .null) (hitems : ∀ items, v ≠ .arr items)
    {t : TypeExpr} (h : coerceInput s v t = .ok v) :
    Input.atName s v (Input.parts s v) t.baseName = .ok v := by
  have hnull := Json.isNull_eq_false.2 hv
  induction t with
  | named name =>
    rw [coerceInput_eq] at h
    simpa [Input.atType, hnull] using h
  | nonNull t ih =>
    rw [coerceInput_nonNull, if_neg (by simp [hnull])] at h
    exact ih h
  | list item _ =>
    rw [coerceInput_list_single s item hv hitems] at h
    obtain ⟨w, -, rfl⟩ := Except.map_eq_ok h
    exact absurd rfl (hitems _)

/-- The fields of an input object that is left unchanged are: each by its declared type. -/
theorem fields_of_fixed {o : InputObjectType} {name : String} {fields : List (String × Json)}
    (h : Input.inputObject o name (coerceFields s fields) = .ok (.obj fields)) :
    (Entries.keys fields).Nodup ∧ ∀ x ∈ fields, ∃ t, coerceInput s x.2 t = .ok x.2 := by
  unfold Input.inputObject at h
  split at h
  · cases h
  · obtain ⟨bound, hbound, hfields⟩ := Except.map_eq_ok h
    obtain rfl := Json.obj.inj hfields
    have hkeys := (keys_sublist_of_bindAll hbound).nodup o.fields.nodup
    refine ⟨hkeys, fun x hx => ?_⟩
    obtain ⟨d, hd, hname, -⟩ := (bindings_of_bindAll hbound).1 x hx
    obtain ⟨given, hgiven, hlookup⟩ := lookup_of_bindAll o.fields.nodup hbound hd
    have hx' : bound.lookup d.name = some x.2 := Entries.lookup_of_mem hkeys (hname ▸ hx)
    rw [coerceFields_eq_map, Entries.lookup_map fun _ => coerceInput s, hx'] at hgiven
    obtain ⟨w, hw, rfl⟩ := Except.map_eq_ok hgiven
    rw [hx', Option.some_or] at hlookup
    exact ⟨d.type, Option.some.inj hlookup ▸ hw⟩

/-- What coercion leaves unchanged is data as it is read: by induction on its parts. -/
theorem Json.isReadable_of_fixed (hs : s.BuiltinScalars) {v : Json} {t : TypeExpr}
    (h : coerceInput s v t = .ok v) : v.isReadable = true := by
  induction v using Json.induction_on_parts generalizing t with
  | leaf v hitems hfields =>
    cases v with
    | num n =>
      cases n with
      | float x => rfl
      | int i =>
        have hname := atName_of_fixed (by simp) hitems h
        unfold Input.atName at hname
        split at hname
        · next c hc => exact (hs c (Registry.mem_of_get? hc).1).fits hname
        · simp [Input.enumValue] at hname
        · simp [Input.parts] at hname
        · cases hname
    | arr items => exact absurd rfl (hitems items)
    | obj fields => exact absurd rfl (hfields fields)
    | _ => rfl
  | arr items ih =>
    induction t with
    | named name =>
      have hname : Input.atName s (.arr items) (.items (coerceItems s items)) name =
          .ok (.arr items) := by
        rwa [coerceInput_eq] at h
      unfold Input.atName at hname
      split at hname
      · next c hc =>
        have hbuiltin := hs c (Registry.mem_of_get? hc).1
        obtain ⟨e, he⟩ := hbuiltin.refuses_value (.inl ⟨items, rfl⟩)
        rw [he] at hname
        cases hname
      · cases hname
      · cases hname
      · cases hname
    | nonNull t iht =>
      rw [coerceInput_nonNull, if_neg (by simp [Json.isNull])] at h
      exact iht h
    | list item _ =>
      rw [coerceInput_list_arr] at h
      obtain ⟨items', hitems, heq⟩ := Except.map_eq_ok h
      obtain rfl := Json.arr.inj heq
      exact Json.areReadable_iff.2 fun v hv => ih v hv (mapM_eq_self hitems v hv)
  | obj fields ih =>
    have hname := atName_of_fixed (by simp) (by simp) h
    unfold Input.atName at hname
    split at hname
    · next c hc =>
      have hbuiltin := hs c (Registry.mem_of_get? hc).1
      obtain ⟨e, he⟩ := hbuiltin.refuses_value (.inr ⟨fields, rfl⟩)
      rw [he] at hname
      cases hname
    · simp [Input.enumValue] at hname
    · obtain ⟨hkeys, hfixed⟩ := fields_of_fixed hname
      refine Bool.and_eq_true_iff.2 ⟨decide_eq_true hkeys, Json.areReadableFields_iff.2 ?_⟩
      intro x hx
      obtain ⟨u, hu⟩ := hfixed x hx
      exact ih x hx hu
    · cases hname

end

/-! ## Inlining -/

namespace Literal

/-- Whether a literal is a variable without a value. -/
def isUnbound (vars : VariableValues) : Literal → Bool
  | .var name => (vars.lookup name).isNone
  | _ => false

mutual

/-- The literal with the values of its variables written in their places. The type of a place
is unknown where no type has such a part: nothing is accepted there. -/
def inlined (s : Schema) (vars : VariableValues) : Literal → Option TypeExpr → Literal
  | .var name, place? =>
    match vars.lookup name with
    | some v => .spelling s v place?
    | none => .var name
  | .list items, place? => .list (inlinedItems s vars items (place?.bind TypeExpr.itemType?))
  | .object fields, place? => .object (inlinedFields s vars fields place?)
  | .null, _ => .null
  | .int i, _ => .int i
  | .float x, _ => .float x
  | .string t, _ => .string t
  | .boolean b, _ => .boolean b
  | .enum n, _ => .enum n

/-- The items of a list: those that are unbound variables are null. -/
def inlinedItems (s : Schema) (vars : VariableValues) :
    List Literal → Option TypeExpr → List Literal
  | [], _ => []
  | l :: rest, item? =>
    (if l.isUnbound vars then .null else l.inlined s vars item?) ::
      inlinedItems s vars rest item?

/-- The fields of an object: declared ones that are unbound variables are not there. -/
def inlinedFields (s : Schema) (vars : VariableValues) :
    List (String × Literal) → Option TypeExpr → List (String × Literal)
  | [], _ => []
  | (key, l) :: rest, place? =>
    let field? := place?.bind fun t => s.inputFieldType? t key
    let others := inlinedFields s vars rest place?
    if l.isUnbound vars then
      if field?.isSome then others.filter fun x => x.1 != key else (key, .null) :: others
    else (key, l.inlined s vars field?) :: others

end

/-- The arguments of a field: those that are unbound variables are not there. -/
def inlinedArguments (s : Schema) (vars : VariableValues) (args : Registry InputValue)
    (written : List (String × Literal)) : List (String × Literal) :=
  (written.filter fun x => !x.2.isUnbound vars).map fun x =>
    (x.1, x.2.inlined s vars ((args.get? x.1).map InputValue.type))

/-- The variables of the arguments of a field, each with the type of its place. -/
def usesOfArguments (s : Schema) (args : Registry InputValue)
    (written : List (String × Literal)) : List (String × TypeExpr) :=
  written.flatMap fun x =>
    match args.get? x.1 with
    | some d => x.2.uses s d.type
    | none => []

mutual

/-- Whether a literal has no variable. -/
def isConstant : Literal → Bool
  | .var _ => false
  | .list items => areConstant items
  | .object fields => areConstantFields fields
  | _ => true

/-- Whether no item has a variable. -/
def areConstant : List Literal → Bool
  | [] => true
  | l :: rest => l.isConstant && areConstant rest

/-- Whether no field has a variable. -/
def areConstantFields : List (String × Literal) → Bool
  | [] => true
  | (_, l) :: rest => l.isConstant && areConstantFields rest

end

theorem areConstant_iff {items : List Literal} :
    areConstant items = true ↔ ∀ l ∈ items, l.isConstant = true := by
  induction items with
  | nil => simp [areConstant]
  | cons l items ih => simp [areConstant, ih]

theorem areConstantFields_iff {fields : List (String × Literal)} :
    areConstantFields fields = true ↔ ∀ x ∈ fields, x.2.isConstant = true := by
  induction fields with
  | nil => simp [areConstantFields]
  | cons x fields ih => simp [areConstantFields, ih]

end Literal

/-- Each variable that is used somewhere, if it has a value other than null, has one that
coercion leaves unchanged there. -/
def UsesFixed (s : Schema) (vars : VariableValues) (uses : List (String × TypeExpr)) : Prop :=
  ∀ x ∈ uses, ∀ v ∈ vars.lookup x.1, v = .null ∨ coerceInput s v x.2 = .ok v

/-! ## No variable is left -/

namespace Literal

variable {s : Schema} {vars : VariableValues}

theorem mem_putField {key : String} {l : Literal} {fields : List (String × Literal)}
    {x : String × Literal} (h : x ∈ putField key l fields) : x = (key, l) ∨ x ∈ fields := by
  induction fields with
  | nil => exact .inl (List.mem_singleton.1 h)
  | cons y fields ih =>
    rw [putField] at h
    split at h
    · exact (List.mem_cons.1 h).imp_right (List.mem_cons_of_mem _)
    · split at h
      · exact List.mem_cons.1 h
      · rcases List.mem_cons.1 h with rfl | h
        · exact .inr List.mem_cons_self
        · exact (ih h).imp_right (List.mem_cons_of_mem _)

/-- The fields of an object literal are those that were written. -/
theorem mem_of_mem_foldl_putField {fields acc : List (String × Literal)} {x : String × Literal}
    (h : x ∈ fields.foldl (fun acc p => putField p.1 p.2 acc) acc) : x ∈ fields ∨ x ∈ acc := by
  induction fields generalizing acc with
  | nil => exact .inr h
  | cons y fields ih =>
    rcases ih h with h | h
    · exact .inl (List.mem_cons_of_mem _ h)
    · rcases mem_putField h with rfl | h
      · exact .inl List.mem_cons_self
      · exact .inr h

/-- The spelling of data has no variable. -/
theorem spelling_isConstant (v : Json) (place? : Option TypeExpr) :
    (spelling s v place?).isConstant = true := by
  induction v using Json.induction_on_parts generalizing place? with
  | leaf v hitems hfields =>
    cases v with
    | num n => cases n <;> rfl
    | str v =>
      rw [spelling]
      split <;> rfl
    | arr items => exact absurd rfl (hitems items)
    | obj fields => exact absurd rfl (hfields fields)
    | _ => rfl
  | arr items ih =>
    rw [spelling, isConstant, areConstant_iff, spellingItems_eq_map]
    exact List.forall_mem_map.2 fun v hv => ih v hv _
  | obj fields ih =>
    rw [spelling, ofFields, isConstant, areConstantFields_iff, spellingFields_eq_map]
    intro x hx
    rcases mem_of_mem_foldl_putField hx with hx | hx
    · obtain ⟨y, hy, rfl⟩ := List.mem_map.1 hx
      exact ih y hy _
    · exact absurd hx List.not_mem_nil

/-- Each part of an inlined literal is null or a part that was inlined. -/
theorem inlinedItems_eq_map (items : List Literal) (item? : Option TypeExpr) :
    inlinedItems s vars items item? = items.map fun l =>
      if l.isUnbound vars then .null else l.inlined s vars item? := by
  induction items with
  | nil => rfl
  | cons l items ih => rw [inlinedItems, ih, List.map_cons]

theorem mem_inlinedFields {fields : List (String × Literal)} {place? : Option TypeExpr}
    {x : String × Literal} (h : x ∈ inlinedFields s vars fields place?) :
    x.2 = .null ∨ ∃ y ∈ fields, y.2.isUnbound vars = false ∧
      ∃ field?, x.2 = y.2.inlined s vars field? := by
  induction fields with
  | nil => exact absurd h List.not_mem_nil
  | cons y fields ih =>
    suffices hx : x ∈ inlinedFields s vars fields place? ∨ x.2 = .null ∨
        y.2.isUnbound vars = false ∧ ∃ field?, x.2 = y.2.inlined s vars field? by
      rcases hx with hx | hnull | hy
      · exact (ih hx).imp_right fun ⟨z, hz, hinlined⟩ => ⟨z, List.mem_cons_of_mem y hz, hinlined⟩
      · exact .inl hnull
      · exact .inr ⟨y, List.mem_cons_self, hy⟩
    rw [inlinedFields] at h
    split at h
    · split at h
      · exact .inl (List.mem_filter.1 h).1
      · rcases List.mem_cons.1 h with rfl | h
        · exact .inr (.inl rfl)
        · exact .inl h
    · next hbound =>
      rcases List.mem_cons.1 h with rfl | h
      · exact .inr (.inr ⟨Bool.eq_false_iff.2 hbound, _, rfl⟩)
      · exact .inl h

/-- A literal has no variable once it is inlined, unless it is itself an unbound one. -/
theorem inlined_isConstant {l : Literal} (h : l.isUnbound vars = false)
    (place? : Option TypeExpr) : (l.inlined s vars place?).isConstant = true := by
  induction l using Literal.induction_on_parts generalizing place? with
  | leaf l hitems hfields =>
    cases l with
    | var name =>
      rw [inlined]
      split
      · exact spelling_isConstant _ place?
      · next hnone => simp [isUnbound, hnone] at h
    | list items => exact absurd rfl (hitems items)
    | object fields => exact absurd rfl (hfields fields)
    | _ => rfl
  | list items ih =>
    rw [inlined, isConstant, areConstant_iff, inlinedItems_eq_map]
    refine List.forall_mem_map.2 fun l hl => ?_
    split
    · rfl
    · next hbound => exact ih l hl (Bool.eq_false_iff.2 hbound) _
  | object fields ih =>
    rw [inlined, isConstant, areConstantFields_iff]
    intro x hx
    rcases mem_inlinedFields hx with hnull | ⟨y, hy, hbound, field?, hinlined⟩
    · rw [hnull]
      rfl
    · rw [hinlined]
      exact ih y hy hbound field?

end Literal

/-! ## Literals alike -/

namespace Same

variable {α β : Type}

theorem refl (a : Except Misfit α) : Same a a := by
  cases a with
  | ok x => exact .value x
  | error e => exact .failed e e

theorem symm {a b : Except Misfit α} (h : Same a b) : Same b a := by
  cases h with
  | value x => exact .value x
  | failed e e' => exact .failed e' e

theorem trans {a b c : Except Misfit α} (h : Same a b) (h' : Same b c) : Same a c := by
  cases h with
  | value x => exact h'
  | failed e e' =>
    cases h' with
    | failed _ e'' => exact .failed e e''

theorem bind {a b : Except Misfit α} (h : Same a b) (f : α → Except Misfit β) :
    Same (a.bind f) (b.bind f) := by
  cases h with
  | value x => exact refl (f x)
  | failed e e' => exact .failed e e'

end Same

theorem Entries.lookup_filter_ne {α : Type} (entries : List (String × α)) (key k : String) :
    (entries.filter fun x => x.1 != key).lookup k = if k = key then none else entries.lookup k := by
  induction entries with
  | nil => simp
  | cons x entries ih =>
    rw [List.filter_cons]
    by_cases hx : x.1 = key
    · rw [if_neg (by simp [hx]), ih]
      split
      · rfl
      · next hk => rw [List.lookup_cons, beq_eq_false_iff_ne.2 (hx ▸ hk)]
    · rw [if_pos (by simpa using hx), List.lookup_cons, List.lookup_cons, ih]
      by_cases hk : k = x.1
      · have hne : k ≠ key := hk ▸ hx
        rw [beq_iff_eq.2 hk]
        exact (if_neg hne).symm
      · rw [beq_eq_false_iff_ne.2 hk]

/-- If no key is repeated, a key keeps its entry or loses it. -/
theorem Entries.lookup_filter {α : Type} {entries : List (String × α)}
    (h : (keys entries).Nodup) (p : α → Bool) (key : String) :
    (entries.filter fun x => p x.2).lookup key = (entries.lookup key).filter p := by
  induction entries with
  | nil => rfl
  | cons x entries ih =>
    obtain ⟨hnew, h⟩ := List.nodup_cons.1 h
    rw [List.filter_cons, List.lookup_cons]
    by_cases hkey : key = x.1
    · have hnone : entries.lookup key = none := by
        rw [← Option.not_isSome_iff_eq_none, ← mem_keys_iff, hkey]
        exact hnew
      rw [beq_iff_eq.2 hkey, Option.filter_some]
      split
      · rw [List.lookup_cons, beq_iff_eq.2 hkey]
      · rw [ih h, hnone, Option.filter_none]
    · rw [beq_eq_false_iff_ne.2 hkey, ← ih h]
      split
      · rw [List.lookup_cons, beq_eq_false_iff_ne.2 hkey]
      · rfl

namespace Literal

variable {s : Schema} {vars : VariableValues}

/-- What agrees at the innermost name of a type agrees at the type, unless its items are
looked at. -/
theorem sameAtType {l l' : Literal} {parts parts' : Parts} (hl : l.isNull = false)
    (hl' : l'.isNull = false) (hparts : ∀ cs, parts ≠ .items cs)
    (hparts' : ∀ cs, parts' ≠ .items cs) {t : TypeExpr}
    (h : Same (atName s l parts t.baseName) (atName s l' parts' t.baseName)) :
    Same (atType s l parts t) (atType s l' parts' t) := by
  induction t with
  | named name => simpa [atType, hl, hl'] using h
  | list item ih =>
    cases parts with
    | items cs => exact absurd rfl (hparts cs)
    | _ =>
      cases parts' with
      | items cs => exact absurd rfl (hparts' cs)
      | _ => simpa [atType, hl, hl'] using (ih h).map _
  | nonNull t ih => exact (ih h).bind _

/-- A list is nothing that a name stands for. -/
theorem atName_list_eq_error (hs : s.BuiltinScalars) (items : List Literal)
    (cs : List LiteralCoercion) (name : String) :
    ∃ e, atName s (.list items) (.items cs) name = .error e := by
  unfold atName
  split
  · next c hc =>
    have hbuiltin := hs c (Registry.mem_of_get? hc).1
    obtain ⟨e, he⟩ := hbuiltin.refuses_literal (.inl ⟨items, rfl⟩)
    exact ⟨e, congrArg (Except.map some) he⟩
  · exact ⟨_, rfl⟩
  · exact ⟨_, rfl⟩
  · exact ⟨_, rfl⟩

/-- What a declared field is inlined to. -/
theorem lookup_inlinedFields {fields : List (String × Literal)} {t u : TypeExpr} {key : String}
    (hkey : s.inputFieldType? t key = some u) :
    (inlinedFields s vars fields (some t)).lookup key =
      ((fields.lookup key).filter fun l => !l.isUnbound vars).map (inlined s vars · (some u)) := by
  induction fields with
  | nil => rfl
  | cons x fields ih =>
    obtain ⟨k, l⟩ := x
    rw [inlinedFields, List.lookup_cons, Option.bind_some]
    by_cases hk : key = k
    · subst hk
      rw [hkey, beq_self_eq_true]
      cases hl : l.isUnbound vars with
      | true => simp [hl, Entries.lookup_filter_ne]
      | false => simp [hl]
    · rw [beq_eq_false_iff_ne.2 hk, ← ih]
      have hb : (key == k) = false := beq_eq_false_iff_ne.2 hk
      split
      · split
        · rw [Entries.lookup_filter_ne, if_neg hk]
        · rw [List.lookup_cons, hb]
      · rw [List.lookup_cons, hb]

/-- Undeclared fields stay. -/
theorem mem_keys_inlinedFields {fields : List (String × Literal)} {t : TypeExpr} {key : String}
    (hkey : s.inputFieldType? t key = none) :
    key ∈ Entries.keys (inlinedFields s vars fields (some t)) ↔ key ∈ Entries.keys fields := by
  induction fields with
  | nil => exact Iff.rfl
  | cons x fields ih =>
    obtain ⟨k, l⟩ := x
    have hcons : key ∈ Entries.keys ((k, l) :: fields) ↔ key = k ∨ key ∈ Entries.keys fields :=
      List.mem_cons
    rw [inlinedFields, Option.bind_some, hcons, ← ih]
    split
    · split
      · next hsome =>
        have hne : key ≠ k := by
          rintro rfl
          simp [hkey] at hsome
        rw [Entries.mem_keys_iff, Entries.lookup_filter_ne, if_neg hne, ← Entries.mem_keys_iff]
        exact (or_iff_right hne).symm
      · exact List.mem_cons
    · exact List.mem_cons

/-- A literal is coerced like what it is inlined to, whatever the variables are then. -/
def InlinedAlike (s : Schema) (vars vars' : VariableValues) (l : Literal) : Prop :=
  ∀ t, UsesFixed s vars (l.uses s t) → l.isUnbound vars = false →
    Same (coerceLiteral s vars l t) (coerceLiteral s vars' (l.inlined s vars (some t)) t)

variable {vars' : VariableValues}

/-- A variable is coerced like the spelling of its value. -/
theorem inlinedAlike_var (hs : s.BuiltinScalars) (name : String) :
    (Literal.var name).InlinedAlike s vars vars' := by
  intro t huses hbound
  cases hv : vars.lookup name with
  | none => simp [isUnbound, hv] at hbound
  | some v =>
    have hfixed := huses (name, t) (List.mem_singleton_self _) v hv
    have hreadable : v.isReadable = true := by
      rcases hfixed with rfl | hfixed
      · rfl
      · exact Json.isReadable_of_fixed hs hfixed
    rw [inlined, hv]
    refine Same.trans ?_ (Json.spelledAlike hs hreadable t).symm
    rw [coerceLiteral, variableAt, hv]
    by_cases hnull : v = .null
    · subst hnull
      cases t with
      | nonNull t => exact .failed _ _
      | _ => exact .value _
    · rw [hfixed.resolve_left hnull]
      simp only [Json.isNull_eq_false.2 hnull, Bool.false_and]
      exact .value _

theorem coerceLiteral_of_isUnbound {l : Literal} (h : l.isUnbound vars = true) (t : TypeExpr) :
    coerceLiteral s vars l t = .ok none := by
  cases l with
  | var name => exact coerceLiteral_unbound s (Option.isNone_iff_eq_none.1 h) t
  | _ => simp [isUnbound] at h

/-- An item that is an unbound variable is null where that is allowed, like null itself. -/
theorem itemValue_null (item : TypeExpr) :
    Same (itemValue item none) ((coerceLiteral s vars .null item).bind (itemValue item)) := by
  cases item with
  | nonNull t =>
    obtain ⟨e, he⟩ := coerceLiteral_null_nonNull s vars t
    rw [he]
    exact .failed _ _
  | _ => exact .value _

/-- A list is coerced like the list of its inlined items. -/
theorem inlinedAlike_list (hs : s.BuiltinScalars) {items : List Literal}
    (ih : ∀ l ∈ items, l.InlinedAlike s vars vars') :
    (Literal.list items).InlinedAlike s vars vars' := by
  intro t huses _
  rw [inlined, inlinedItems_eq_map]
  induction t with
  | named name =>
    rw [coerceLiteral_eq s vars (by simp), coerceLiteral_eq s vars' (by simp)]
    obtain ⟨e, he⟩ := atName_list_eq_error hs items (coerceLiteralItems s vars items) name
    obtain ⟨e', he'⟩ := atName_list_eq_error hs _ (coerceLiteralItems s vars' _) name
    simp only [atType, isNull, parts, he]
    exact he' ▸ .failed e e'
  | nonNull t iht =>
    rw [coerceLiteral_nonNull s vars (by simp), coerceLiteral_nonNull s vars' (by simp)]
    exact (iht huses).bind _
  | list item _ =>
    rw [coerceLiteral_list, coerceLiteral_list, List.mapM_map]
    refine Same.map (Same.mapM fun l hl => ?_) _
    simp only [Function.comp_apply]
    cases hbound : l.isUnbound vars with
    | false =>
      exact (ih l hl item (fun x hx => huses x (mem_usesOfItems hl hx)) hbound).bind _
    | true =>
      rw [coerceLiteral_of_isUnbound hbound]
      exact itemValue_null item

/-- What a literal that may be written for a declared name supplies. -/
def supply (s : Schema) (vars : VariableValues) (written? : Option Literal) (t : TypeExpr) :
    Except Misfit (Option Json) :=
  match written? with
  | some l => coerceLiteral s vars l t
  | none => .ok none

/-- The arguments of a field are bound to what the literals written for them supply. -/
theorem coerceArgumentValues_eq_bindAll (ds : List InputValue)
    (written : List (String × Literal)) :
    coerceArgumentValues s vars ds written =
      bindAll (fun d => supply s vars (written.lookup d.name) d.type) ds :=
  rfl

/-- So are the fields of an input object, if it has no unknown one. -/
theorem inputObjectAt_eq_bindAll (o : InputObjectType) (name : String)
    (fields : List (String × Literal)) :
    inputObjectAt o name (coerceLiteralFields s vars fields) =
      match (Entries.keys fields).find? fun k => !o.fields.contains k with
      | some k => .error (.undeclared k name)
      | none =>
        (bindAll (fun d => supply s vars (fields.lookup d.name) d.type) o.fields.items).map
          fun values => some (.obj values) := by
  rw [inputObjectAt, coerceLiteralFields_eq_map, Entries.keys_map fun _ => coerceLiteral s vars]
  cases (Entries.keys fields).find? fun k => !o.fields.contains k with
  | some k => rfl
  | none =>
    refine congrArg (Except.map _) (congrArg (bindAll · o.fields.items) (funext fun d => ?_))
    rw [Entries.lookup_map fun _ => coerceLiteral s vars]
    cases fields.lookup d.name <;> rfl

/-- The literal that is inlined for a declared name, or none, supplies what the one written
supplies. -/
theorem supply_inlined {written? : Option Literal} {t : TypeExpr}
    (h : ∀ l, written? = some l → UsesFixed s vars (l.uses s t) ∧ l.InlinedAlike s vars vars') :
    Same (supply s vars written? t)
      (supply s vars'
        ((written?.filter fun l => !l.isUnbound vars).map (inlined s vars · (some t))) t) := by
  cases written? with
  | none => exact .value none
  | some l =>
    obtain ⟨huses, halike⟩ := h l rfl
    cases hbound : l.isUnbound vars with
    | true =>
      simp only [Option.filter_some, hbound, supply, coerceLiteral_of_isUnbound hbound]
      exact .value none
    | false =>
      simp only [Option.filter_some, hbound]
      exact halike t huses hbound

/-- An input object takes fields and what they are inlined to alike: the same keys are unknown,
and the same value is supplied for each declared one. -/
theorem inputObjectAt_inlinedFields {t : TypeExpr} {o : InputObjectType} (name : String)
    (ho : s.type? t.baseName = some (.inputObject o)) {fields : List (String × Literal)}
    (ih : ∀ x ∈ fields, x.2.InlinedAlike s vars vars')
    (huses : UsesFixed s vars (usesOfFields s fields t)) :
    Same (inputObjectAt o name (coerceLiteralFields s vars fields))
      (inputObjectAt o name
        (coerceLiteralFields s vars' (inlinedFields s vars fields (some t)))) := by
  have hunknown : ∀ k, (!o.fields.contains k) = true →
      (k ∈ Entries.keys fields ↔ k ∈ Entries.keys (inlinedFields s vars fields (some t))) := by
    intro k hk
    have hnone : o.fields.get? k = none := by simpa [Registry.contains] using hk
    exact (mem_keys_inlinedFields (by simp [Schema.inputFieldType?, ho, hnone])).symm
  have hfound := List.find?_isSome_congr hunknown
  rw [inputObjectAt_eq_bindAll, inputObjectAt_eq_bindAll]
  generalize (Entries.keys fields).find? _ = unknown,
    (Entries.keys (inlinedFields s vars fields (some t))).find? _ = unknown' at hfound
  cases unknown with
  | some k =>
    obtain ⟨k', rfl⟩ := Option.isSome_iff_exists.1 hfound.symm
    exact .failed _ _
  | none =>
    obtain rfl := Option.isNone_iff_eq_none.1 (Option.isSome_eq_false_iff.1 hfound.symm)
    refine (Same.bindAll fun d hd => ?_).map _
    have hplace := Schema.inputFieldType?_of_mem ho hd
    rw [lookup_inlinedFields hplace]
    refine supply_inlined fun l hl => ?_
    have hmem := Entries.mem_of_lookup hl
    exact ⟨fun x hx => huses x (mem_usesOfFields hmem hplace hx), ih _ hmem⟩

/-- An object is coerced like the object of its inlined fields. -/
theorem inlinedAlike_object (hs : s.BuiltinScalars) {fields : List (String × Literal)}
    (ih : ∀ x ∈ fields, x.2.InlinedAlike s vars vars') :
    (Literal.object fields).InlinedAlike s vars vars' := by
  intro t huses _
  rw [inlined, coerceLiteral, coerceLiteral]
  refine sameAtType rfl rfl (by simp) (by simp) ?_
  cases htype : s.type? t.baseName with
  | none => simpa only [atName, htype] using .failed _ _
  | some x =>
    cases x with
    | scalar c =>
      have hbuiltin := hs c (Registry.mem_of_get? htype).1
      obtain ⟨e, he⟩ := hbuiltin.refuses_literal (.inr ⟨fields, rfl⟩)
      obtain ⟨e', he'⟩ :=
        hbuiltin.refuses_literal (.inr ⟨inlinedFields s vars fields (some t), rfl⟩)
      simp only [atName, htype, he, he']
      exact .failed e e'
    | inputObject o =>
      simp only [atName, htype]
      exact inputObjectAt_inlinedFields t.baseName htype ih huses
    | _ =>
      simp only [atName, htype]
      exact .failed _ _

theorem inlinedAlike (hs : s.BuiltinScalars) (l : Literal) : l.InlinedAlike s vars vars' := by
  induction l using Literal.induction_on_parts with
  | leaf l hitems hfields =>
    cases l with
    | var name => exact inlinedAlike_var hs name
    | list items => exact absurd rfl (hitems items)
    | object fields => exact absurd rfl (hfields fields)
    | _ => exact fun t _ _ => .refl _
  | list items ih => exact inlinedAlike_list hs ih
  | object fields ih => exact inlinedAlike_object hs ih

/-! ## Arguments -/

/-- The value written for an argument is the one that is inlined, if no name is repeated. -/
theorem lookup_inlinedArguments {args : Registry InputValue} {written : List (String × Literal)}
    (hwritten : (Entries.keys written).Nodup) {d : InputValue} (hd : d ∈ args.items) :
    (inlinedArguments s vars args written).lookup d.name =
      ((written.lookup d.name).filter fun l => !l.isUnbound vars).map
        (inlined s vars · (some d.type)) := by
  have hget : args.get? d.name = some d := Registry.get?_of_mem hd
  rw [← Entries.lookup_filter hwritten fun l => !l.isUnbound vars]
  refine (Entries.lookup_map
    (fun key (l : Literal) => l.inlined s vars ((args.get? key).map InputValue.type))
    _ d.name).trans ?_
  rw [hget, Option.map_some]

theorem mem_usesOfArguments {args : Registry InputValue} {written : List (String × Literal)}
    {d : InputValue} (hd : d ∈ args.items) {l : Literal} (hl : (d.name, l) ∈ written)
    {x : String × TypeExpr} (hx : x ∈ l.uses s d.type) : x ∈ usesOfArguments s args written := by
  have hget : args.get? d.name = some d := Registry.get?_of_mem hd
  exact List.mem_flatMap.2 ⟨_, hl, by rwa [hget]⟩

/-- Arguments are coerced like what they are inlined to. -/
theorem coerceArgumentValues_inlined (hs : s.BuiltinScalars) {args : Registry InputValue}
    {written : List (String × Literal)} (hwritten : (Entries.keys written).Nodup)
    (huses : UsesFixed s vars (usesOfArguments s args written)) :
    Same (coerceArgumentValues s vars args.items written)
      (coerceArgumentValues s vars' args.items (inlinedArguments s vars args written)) := by
  rw [coerceArgumentValues_eq_bindAll, coerceArgumentValues_eq_bindAll]
  refine Same.bindAll fun d hd => ?_
  rw [lookup_inlinedArguments hwritten hd]
  refine supply_inlined fun l hl => ⟨fun x hx => huses x ?_, inlinedAlike hs l⟩
  exact mem_usesOfArguments hd (Entries.mem_of_lookup hl) hx

/-- No argument has a variable once they are inlined. -/
theorem inlinedArguments_isConstant {args : Registry InputValue}
    {written : List (String × Literal)} :
    ∀ x ∈ inlinedArguments s vars args written, x.2.isConstant = true := by
  refine List.forall_mem_map.2 fun x hx => inlined_isConstant ?_ _
  simpa using (List.mem_filter.1 hx).2

/-! ## Nulls and defaults -/

/-- Whether a literal stands for null. -/
def isNullIn (vars : VariableValues) : Literal → Bool
  | .null => true
  | .var name => vars.lookup name == some .null
  | _ => false

/-- A literal that stands for null is null or refused. -/
theorem eq_null_of_isNullIn {l : Literal} (h : l.isNullIn vars = true) {t : TypeExpr}
    {v? : Option Json} (hv : coerceLiteral s vars l t = .ok v?) : v? = some .null := by
  cases l with
  | null =>
    cases t with
    | nonNull t =>
      obtain ⟨e, he⟩ := coerceLiteral_null_nonNull s vars t
      rw [he] at hv
      cases hv
    | _ => exact (Except.ok.inj hv).symm
  | var name =>
    rw [coerceLiteral, variableAt, beq_iff_eq.1 h] at hv
    cases t with
    | nonNull t => cases hv
    | _ => exact (Except.ok.inj hv).symm
  | _ => simp [isNullIn] at h

end Literal

/-- The values bound to declared names where the literal written for the name stands for no
value of its own: null stays null, and an unbound variable leaves the default. -/
structure KeepsNulls (vars : VariableValues) (ds : List InputValue)
    (written : List (String × Literal)) (values : List (String × Json)) : Prop where
  null : ∀ d ∈ ds, ∀ l, written.lookup d.name = some l → l.isNullIn vars = true →
    values.lookup d.name = some .null
  unbound : ∀ d ∈ ds, ∀ l, written.lookup d.name = some l → l.isUnbound vars = true →
    values.lookup d.name = d.default?

section

variable {s : Schema} {vars : VariableValues}

theorem keepsNulls_of_bindAll {ds : List InputValue} (hnames : (ds.map InputValue.name).Nodup)
    {written : List (String × Literal)} {values : List (String × Json)}
    (h : bindAll (fun d => Literal.supply s vars (written.lookup d.name) d.type) ds =
      .ok values) : KeepsNulls vars ds written values where
  null d hd l hl hnull := by
    obtain ⟨given, hgiven, hlookup⟩ := lookup_of_bindAll hnames h hd
    rw [hl, Literal.supply] at hgiven
    rw [hlookup, Literal.eq_null_of_isNullIn hnull hgiven, Option.some_or]
  unbound d hd l hl hunbound := by
    obtain ⟨given, hgiven, hlookup⟩ := lookup_of_bindAll hnames h hd
    rw [hl, Literal.supply, Literal.coerceLiteral_of_isUnbound hunbound] at hgiven
    rw [hlookup, ← Except.ok.inj hgiven, Option.none_or]

theorem keepsNulls_of_coerceArgumentValues {args : Registry InputValue}
    {written : List (String × Literal)} {values : List (String × Json)}
    (h : coerceArgumentValues s vars args.items written = .ok values) :
    KeepsNulls vars args.items written values :=
  keepsNulls_of_bindAll args.nodup h

theorem keepsNulls_of_coerceLiteral {name : String} {o : InputObjectType}
    (ho : s.type? name = some (.inputObject o)) {fields : List (String × Literal)} {v : Json}
    (h : coerceLiteral s vars (.object fields) (.named name) = .ok (some v)) :
    ∃ values, v = .obj values ∧ KeepsNulls vars o.fields.items fields values := by
  have hobject : Literal.inputObjectAt o name (coerceLiteralFields s vars fields) =
      .ok (some v) := by
    simpa [coerceLiteral, Literal.atType, Literal.isNull, Literal.atName, ho] using h
  rw [Literal.inputObjectAt_eq_bindAll] at hobject
  split at hobject
  · cases hobject
  · obtain ⟨values, hvalues, hv⟩ := Except.map_eq_ok hobject
    exact ⟨values, (Option.some.inj hv).symm, keepsNulls_of_bindAll o.fields.nodup hvalues⟩

end

/-- Variables can be inlined. With the built-in conversions and variables whose values are
null or left unchanged by coercion wherever they are used, a literal that is no unbound
variable is inlined to one without variables that gives the same value or fails like it, and
so are the arguments of a field. In arguments and in input objects null never gives way to a
default, and an unbound variable always does. -/
theorem variables_inlined {s : Schema} (hs : s.BuiltinScalars) (vars vars' : VariableValues) :
    (∀ l t, UsesFixed s vars (l.uses s t) → l.isUnbound vars = false →
      (l.inlined s vars (some t)).isConstant = true ∧
      (coerceLiteral s vars' (l.inlined s vars (some t)) t).toOption =
        (coerceLiteral s vars l t).toOption) ∧
    (∀ args written, (Entries.keys written).Nodup →
      UsesFixed s vars (Literal.usesOfArguments s args written) →
      (∀ x ∈ Literal.inlinedArguments s vars args written, x.2.isConstant = true) ∧
      (coerceArgumentValues s vars' args.items
          (Literal.inlinedArguments s vars args written)).toOption =
        (coerceArgumentValues s vars args.items written).toOption) ∧
    (∀ (args : Registry InputValue) written values,
      coerceArgumentValues s vars args.items written = .ok values →
      KeepsNulls vars args.items written values) ∧
    ∀ name o fields v, s.type? name = some (.inputObject o) →
      coerceLiteral s vars (.object fields) (.named name) = .ok (some v) →
      ∃ values, v = .obj values ∧ KeepsNulls vars o.fields.items fields values := by
  refine ⟨fun l t huses hl => ⟨Literal.inlined_isConstant hl _, ?_⟩,
    fun args written hwritten huses => ⟨Literal.inlinedArguments_isConstant, ?_⟩,
    fun args written values h => keepsNulls_of_coerceArgumentValues h,
    fun name o fields v ho h => keepsNulls_of_coerceLiteral ho h⟩
  · exact (Literal.inlinedAlike hs l t huses hl).symm.toOption_eq
  · exact (Literal.coerceArgumentValues_inlined hs hwritten huses).symm.toOption_eq

/-- A point, a whole number and a null; nothing is bound to `absent`. -/
def pointVariables : VariableValues :=
  [("x", .int 2), ("point", .obj [("x", .int 3), ("colour", .str "RED")]), ("none", .null)]

/-- A point with a variable in each of its fields and further ones among its points. -/
def pointLiteral : Literal :=
  .object [("colour", .var "absent"), ("label", .var "none"),
    ("next", .list [.var "point", .object [("label", .var "absent"), ("x", .int 4)]]),
    ("x", .var "x")]

/-- The arguments of a field: a point, and a colour that is red by default. -/
def pointArguments : Registry InputValue :=
  .ofList [⟨"at", .required "Point", none⟩, ⟨"colour", .named "Colour", some (.str "RED")⟩]

theorem variables_inlined_demo :
    let written := [("colour", .var "absent"), ("at", pointLiteral)]
    let point := .obj [("x", .int 2), ("colour", .str "BLACK"), ("label", .null),
      ("next", .arr [.obj [("x", .int 3), ("colour", .str "RED")],
        .obj [("x", .int 4), ("colour", .str "BLACK")]])]
    pointSchema.BuiltinScalars ∧
      UsesFixed pointSchema pointVariables (pointLiteral.uses pointSchema (.required "Point")) ∧
      pointLiteral.isUnbound pointVariables = false ∧
      (coerceLiteral pointSchema []
          (pointLiteral.inlined pointSchema pointVariables (some (.required "Point")))
          (.required "Point")).toOption =
        (coerceLiteral pointSchema pointVariables pointLiteral (.required "Point")).toOption ∧
      (coerceLiteral pointSchema pointVariables pointLiteral (.required "Point")).toOption =
        some (some point) ∧
      (Entries.keys written).Nodup ∧
      UsesFixed pointSchema pointVariables
        (Literal.usesOfArguments pointSchema pointArguments written) ∧
      (coerceArgumentValues pointSchema [] pointArguments.items
          (Literal.inlinedArguments pointSchema pointVariables pointArguments
            written)).toOption =
        (coerceArgumentValues pointSchema pointVariables pointArguments.items
          written).toOption ∧
      (coerceArgumentValues pointSchema pointVariables pointArguments.items written).toOption =
        some [("at", point), ("colour", .str "RED")] := by
  intro written point
  have hs : pointSchema.BuiltinScalars :=
    ((Schema.builtinScalars_ofQueryType "Query").register (by simp)).register (by simp)
  have huses : UsesFixed pointSchema pointVariables
      (pointLiteral.uses pointSchema (.required "Point")) := by
    unfold UsesFixed
    decide +kernel
  have hbound : pointLiteral.isUnbound pointVariables = false := rfl
  have hwritten : (Entries.keys written).Nodup := by decide
  have hargs : UsesFixed pointSchema pointVariables
      (Literal.usesOfArguments pointSchema pointArguments written) := by
    unfold UsesFixed
    decide +kernel
  obtain ⟨hliteral, harguments, -⟩ := variables_inlined hs pointVariables []
  exact ⟨hs, huses, hbound, (hliteral pointLiteral _ huses hbound).2, by decide +kernel, hwritten,
    hargs, (harguments pointArguments written hwritten hargs).2, by decide +kernel⟩

end GraphQL
