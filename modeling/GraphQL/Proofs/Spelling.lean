/-
GraphQL.Proofs.Spelling — literals and data are coerced alike.

A value of data can be spelled as a literal without variables (`Literal.spelling`). How a
string is spelled depends on where it stands: at an enum it is one of its names, anywhere
else a string literal. Variables and literals are coerced by two recursions, which differ
in how they refuse null, in how their objects are kept and in what scalars are asked for;
`coerceLiteral_spelling` says that on a value and its spelling they come to the same.

* `ScalarCoercion.IsBuiltin.alike` — the built-in scalars take a value and its spelling alike.
* `CoercedAlike.atType` — agreement at the innermost name carries through the wrappers of a type.
* `Same.bindAll` — and from the fields of an input object to the object.
-/
import GraphQL.Proofs.InputPlaces

namespace GraphQL

/-! ## Data and its spelling -/

/-- Whether a name is that of an enum. -/
def Schema.isEnum (s : Schema) (name : String) : Bool :=
  match s.type? name with
  | some (.enum _) => true
  | _ => false

mutual

/-- The literal that spells a value at a place. The type of the place is unknown where no
type has such a part. -/
def Literal.spelling (s : Schema) : Json → Option TypeExpr → Literal
  | .null, _ => .null
  | .bool b, _ => .boolean b
  | .num (.int i), _ => .int i
  | .num (.float x), _ => .float (.finite x)
  | .str v, place? => if place?.any fun t => s.isEnum t.baseName then .enum v else .string v
  | .arr items, place? => .list (Literal.spellingItems s items (place?.bind TypeExpr.itemType?))
  | .obj fields, place? => .ofFields (Literal.spellingFields s fields place?)

/-- The spellings of items at a place. -/
def Literal.spellingItems (s : Schema) : List Json → Option TypeExpr → List Literal
  | [], _ => []
  | v :: rest, place? => Literal.spelling s v place? :: Literal.spellingItems s rest place?

/-- The spellings of the fields of an object at a place. -/
def Literal.spellingFields (s : Schema) :
    List (String × Json) → Option TypeExpr → List (String × Literal)
  | [], _ => []
  | (k, v) :: rest, place? =>
    (k, Literal.spelling s v (place?.bind fun t => s.inputFieldType? t k)) ::
      Literal.spellingFields s rest place?

end

mutual

/-- Data as it is read: integers have 64 bits, and no object has a key twice. -/
def Json.isReadable : Json → Bool
  | .num (.int i) => fitsInt64 i
  | .arr items => Json.areReadable items
  | .obj fields => decide (Entries.keys fields).Nodup && Json.areReadableFields fields
  | _ => true

/-- All items are as they are read. -/
def Json.areReadable : List Json → Bool
  | [] => true
  | v :: rest => v.isReadable && Json.areReadable rest

/-- The values of all fields are as they are read. -/
def Json.areReadableFields : List (String × Json) → Bool
  | [] => true
  | (_, v) :: rest => v.isReadable && Json.areReadableFields rest

end

theorem Json.areReadable_iff {items : List Json} :
    Json.areReadable items = true ↔ ∀ v ∈ items, v.isReadable = true := by
  induction items with
  | nil => simp [Json.areReadable]
  | cons v items ih => simp [Json.areReadable, ih]

theorem Json.areReadableFields_iff {fields : List (String × Json)} :
    Json.areReadableFields fields = true ↔ ∀ x ∈ fields, x.2.isReadable = true := by
  induction fields with
  | nil => simp [Json.areReadableFields]
  | cons x fields ih => simp [Json.areReadableFields, ih]

namespace Literal

variable {s : Schema}

theorem spellingItems_eq_map (items : List Json) (place? : Option TypeExpr) :
    spellingItems s items place? = items.map (spelling s · place?) := by
  induction items with
  | nil => rfl
  | cons v items ih => simp [spellingItems, ih]

theorem spellingFields_eq_map (fields : List (String × Json)) (place? : Option TypeExpr) :
    spellingFields s fields place? = fields.map fun p =>
      (p.1, spelling s p.2 (place?.bind fun t => s.inputFieldType? t p.1)) := by
  induction fields with
  | nil => rfl
  | cons p fields ih => simp [spellingFields, ih]

/-- How a value is spelled does not depend on whether null is excluded. -/
theorem spelling_nonNull (v : Json) (t : TypeExpr) :
    spelling s v (some (.nonNull t)) = spelling s v (some t) := by
  cases v with
  | num n => cases n <;> rfl
  | str v => rfl
  | obj fields => simp [spelling, spellingFields_eq_map, Schema.inputFieldType?]
  | _ => simp [spelling]

theorem lookup_putField (key : String) (l : Literal) (fields : List (String × Literal))
    (k : String) :
    (putField key l fields).lookup k = if k = key then some l else fields.lookup k := by
  induction fields with
  | nil =>
    by_cases h : k = key
    · simp [putField, h]
    · have hb : (k == key) = false := by simpa using h
      simp [putField, List.lookup_cons, h, hb]
  | cons p fields ih =>
    obtain ⟨k', l'⟩ := p
    by_cases h : k = key
    · subst h
      by_cases hk : k = k'
      · simp [putField, hk]
      · have hb : (k == k') = false := by simpa using hk
        by_cases hlt : k < k' <;> simp [putField, hk, hlt, List.lookup_cons, hb, ih]
    · have hb : (k == key) = false := by simpa using h
      by_cases hk : key = k'
      · subst hk
        simp [putField, List.lookup_cons, hb, h]
      · by_cases hlt : key < k' <;> simp [putField, hk, hlt, List.lookup_cons, hb, h, ih]

/-- Sorting fields with different keys keeps what each key stands for. -/
theorem lookup_foldl_putField {fields : List (String × Literal)}
    (h : (Entries.keys fields).Nodup) (acc : List (String × Literal)) (k : String) :
    (fields.foldl (fun acc p => putField p.1 p.2 acc) acc).lookup k =
      (fields.lookup k).or (acc.lookup k) := by
  induction fields generalizing acc with
  | nil => rfl
  | cons p fields ih =>
    obtain ⟨key, l⟩ := p
    obtain ⟨hnew, h⟩ := List.nodup_cons.1 h
    rw [List.foldl_cons, ih h, lookup_putField, List.lookup_cons]
    by_cases hk : k = key
    · subst hk
      have hnone : fields.lookup k = none := by
        rw [← Option.not_isSome_iff_eq_none, ← Entries.mem_keys_iff]
        exact hnew
      simp [hnone]
    · have hb : (k == key) = false := by simpa using hk
      simp [hk, hb]

/-- The spelling of a value that is neither null nor an array is neither null, nor a
variable, nor a list. -/
theorem spelling_whole {v : Json} (hv : v ≠ .null) (hitems : ∀ items, v ≠ .arr items)
    (vars : VariableValues) (place? : Option TypeExpr) :
    (spelling s v place?).isNull = false ∧ (∀ name, spelling s v place? ≠ .var name) ∧
      ∀ cs, parts s vars (spelling s v place?) ≠ .items cs := by
  cases v with
  | null => exact absurd rfl hv
  | arr items => exact absurd rfl (hitems items)
  | num n => cases n <;> simp [spelling, isNull, parts]
  | str v =>
    rw [spelling]
    split <;> simp [isNull, parts]
  | bool b => simp [spelling, isNull, parts]
  | obj fields => simp [spelling, ofFields, isNull, parts]

end Literal

/-! ## Results alike -/

/-- Both fail, or both give one value. -/
inductive Same {α : Type} : Except Misfit α → Except Misfit α → Prop
  | value (x : α) : Same (.ok x) (.ok x)
  | failed (e e' : Misfit) : Same (.error e) (.error e')

namespace Same

variable {α β : Type}

theorem toOption_eq {a b : Except Misfit α} (h : Same a b) : a.toOption = b.toOption := by
  cases h <;> rfl

theorem map {a b : Except Misfit α} (h : Same a b) (f : α → β) : Same (a.map f) (b.map f) := by
  cases h with
  | value x => exact .value (f x)
  | failed e e' => exact .failed e e'

theorem mapM {f g : α → Except Misfit β} {xs : List α} (h : ∀ x ∈ xs, Same (f x) (g x)) :
    Same (xs.mapM f) (xs.mapM g) := by
  induction xs with
  | nil => exact .value []
  | cons x xs ih =>
    have hx := h x List.mem_cons_self
    have hxs := ih fun y hy => h y (List.mem_cons_of_mem _ hy)
    rw [List.mapM_cons, List.mapM_cons]
    generalize f x = a, g x = b at hx
    cases hx with
    | failed e e' => exact .failed e e'
    | value y =>
      generalize xs.mapM f = as, xs.mapM g = bs at hxs
      cases hxs with
      | failed e e' => exact .failed e e'
      | value ys => exact .value (y :: ys)

/-- Bindings are the same if what is supplied is. -/
theorem bindAll {supply supply' : InputValue → Except Misfit (Option Json)}
    {ds : List InputValue} (h : ∀ d ∈ ds, Same (supply d) (supply' d)) :
    Same (bindAll supply ds) (bindAll supply' ds) := by
  induction ds with
  | nil => exact .value []
  | cons d ds ih =>
    have hd := h d List.mem_cons_self
    have hds := ih fun d' hd' => h d' (List.mem_cons_of_mem _ hd')
    rw [GraphQL.bindAll, GraphQL.bindAll]
    generalize supply d = a, supply' d = b at hd
    cases hd with
    | failed e e' => exact .failed e e'
    | value given =>
      generalize GraphQL.bindAll supply ds = as, GraphQL.bindAll supply' ds = bs at hds
      simp only
      generalize d.fill given = filled
      rcases filled with e | _ | v
      · exact .failed e e
      · exact hds
      · cases hds with
        | failed e e' => exact .failed e e'
        | value rest => exact .value ((d.name, v) :: rest)

/-- An item that has a value keeps it. -/
theorem itemValue {a : Except Misfit (Option Json)} {b : Except Misfit Json}
    (h : Same a (b.map some)) (item : TypeExpr) :
    Same (a.bind (Literal.itemValue item)) b := by
  cases b with
  | error e' =>
    cases h with
    | failed e => exact .failed e e'
  | ok v =>
    cases h with
    | value => exact .value v

end Same

/-- The coercions of a literal and of a value both fail, or both give one value, which is
not null. -/
inductive CoercedAlike : Except Misfit (Option Json) → Except Misfit Json → Prop
  | value {w : Json} (hw : w ≠ .null) : CoercedAlike (.ok (some w)) (.ok w)
  | failed (e e' : Misfit) : CoercedAlike (.error e) (.error e')

namespace CoercedAlike

variable {s : Schema} {l : Literal} {v : Json} {a : Except Misfit (Option Json)}
  {b : Except Misfit Json}

theorem same (h : CoercedAlike a b) : Same a (b.map some) := by
  cases h with
  | value => exact .value _
  | failed e e' => exact .failed e e'

theorem of_same {α : Type} {a b : Except Misfit α} (h : Same a b) {f : α → Json}
    (hf : ∀ x, f x ≠ .null) : CoercedAlike (a.map fun x => some (f x)) (b.map f) := by
  cases h with
  | value x => exact .value (hf x)
  | failed e e' => exact .failed e e'

theorem refuseNull (h : CoercedAlike a b) (t : TypeExpr) :
    CoercedAlike (a.bind (Literal.refuseNull t)) b := by
  cases h with
  | failed e e' => exact .failed e e'
  | @value w hw =>
    cases w with
    | null => exact absurd rfl hw
    | _ => exact .value hw

theorem single (h : CoercedAlike a b) :
    CoercedAlike (a.map fun v => v.map fun w => .arr [w]) (b.map fun w => .arr [w]) := by
  cases h with
  | failed e e' => exact .failed e e'
  | value => exact .value (by simp)

/-- What agrees at the innermost name of a type agrees at the type, unless its items are
looked at: a value that is not null passes non-null types and becomes the only item of
lists. -/
theorem atType {pl : Literal.Parts} {pj : Input.Parts} (hl : l.isNull = false)
    (hv : v.isNull = false) (hpl : ∀ cs, pl ≠ .items cs) (hpj : ∀ cs, pj ≠ .items cs)
    {t : TypeExpr}
    (h : CoercedAlike (Literal.atName s l pl t.baseName) (Input.atName s v pj t.baseName)) :
    CoercedAlike (Literal.atType s l pl t) (Input.atType s v pj t) := by
  induction t with
  | named name => simpa [Literal.atType, Input.atType, hl, hv] using h
  | list item ih =>
    cases pl with
    | items cs => exact absurd rfl (hpl cs)
    | _ =>
      cases pj with
      | items cs => exact absurd rfl (hpj cs)
      | _ => simpa [Literal.atType, Input.atType, hl, hv] using (ih h).single
  | nonNull t ih => simpa [Literal.atType, Input.atType, hv] using (ih h).refuseNull (.nonNull t)

end CoercedAlike

/-! ## Scalars and enums -/

/-- The built-in scalars take a value and its spelling alike. -/
theorem ScalarCoercion.IsBuiltin.alike {c : ScalarCoercion} (hc : c.IsBuiltin) (s : Schema)
    {v : Json} (hr : v.isReadable = true) (hv : v ≠ .null) {t : TypeExpr}
    (ht : s.isEnum t.baseName = false) :
    CoercedAlike ((c.ofLiteral (Literal.spelling s v (some t))).map some) (c.ofValue v) := by
  cases v with
  | null => exact absurd rfl hv
  | bool b =>
    rcases hc with rfl | rfl | rfl | rfl | rfl
    case inr.inr.inr.inl => exact .value (by simp)
    all_goals exact .failed _ _
  | num n =>
    cases n with
    | int i =>
      rcases hc with rfl | rfl | rfl | rfl | rfl
      case inl =>
        have hi : fitsInt64 i = true := hr
        simp only [Literal.spelling, ScalarCoercion.int, Number.toInt64?, hi, if_true,
          ScalarCoercion.int32]
        split
        · exact .value (by simp [Json.int])
        · exact .failed _ _
      case inr.inl =>
        simp only [Literal.spelling, ScalarCoercion.float, ScalarCoercion.floatOfNumber,
          Number.toBinary64?]
        split
        · exact .value (by simp)
        · exact .failed _ _
      case inr.inr.inr.inr => exact .value (by simp)
      all_goals exact .failed _ _
    | float x =>
      rcases hc with rfl | rfl | rfl | rfl | rfl
      case inr.inl => exact .value (by simp)
      all_goals exact .failed _ _
  | str v =>
    have hspelling : Literal.spelling s (.str v) (some t) = .string v := by
      simp [Literal.spelling, ht]
    rw [hspelling]
    rcases hc with rfl | rfl | rfl | rfl | rfl
    case inr.inr.inl => exact .value (by simp)
    case inr.inr.inr.inr => exact .value (by simp)
    all_goals exact .failed _ _
  | arr items => rcases hc with rfl | rfl | rfl | rfl | rfl <;> exact .failed _ _
  | obj fields => rcases hc with rfl | rfl | rfl | rfl | rfl <;> exact .failed _ _

/-- An enum takes a value and its spelling alike. -/
theorem EnumType.alike (e : EnumType) (name : String) {s : Schema} {v : Json} (hv : v ≠ .null)
    {t : TypeExpr} (ht : s.isEnum t.baseName = true) :
    CoercedAlike (Literal.enumAt e name (Literal.spelling s v (some t)))
      (Input.enumValue e name v) := by
  cases v with
  | null => exact absurd rfl hv
  | num n => cases n <;> exact .failed _ _
  | str v =>
    have hspelling : Literal.spelling s (.str v) (some t) = .enum v := by
      simp [Literal.spelling, ht]
    rw [hspelling, Literal.enumAt, Input.enumValue]
    split
    · exact .value (by simp)
    · exact .failed _ _
  | _ => exact .failed _ _

/-! ## Objects and lists -/

theorem List.find?_isSome_congr {α : Type} {p : α → Bool} {xs ys : List α}
    (h : ∀ x, p x = true → (x ∈ xs ↔ x ∈ ys)) : (xs.find? p).isSome = (ys.find? p).isSome := by
  rw [Bool.eq_iff_iff, List.find?_isSome, List.find?_isSome]
  exact exists_congr fun x => and_congr_left (h x)

/-- At each type, a value and its spelling are coerced to the same. -/
def Json.SpelledAlike (s : Schema) (vars : VariableValues) (v : Json) : Prop :=
  ∀ t, Same (coerceLiteral s vars (Literal.spelling s v (some t)) t)
    ((coerceInput s v t).map some)

section

variable {s : Schema} {vars : VariableValues}

/-- An input object takes fields and their spellings alike: it finds the same unknown keys,
and the same value for each declared one. -/
theorem InputObjectType.alike {t : TypeExpr} {o : InputObjectType} (name : String)
    (ho : s.type? t.baseName = some (.inputObject o)) {fields : List (String × Json)}
    (hkeys : (Entries.keys fields).Nodup) (ih : ∀ x ∈ fields, x.2.SpelledAlike s vars) :
    CoercedAlike
      (Literal.inputObjectAt o name (coerceLiteralFields s vars
        ((Literal.spellingFields s fields (some t)).foldl
          (fun acc p => Literal.putField p.1 p.2 acc) [])))
      (Input.inputObject o name (coerceFields s fields)) := by
  rw [coerceLiteralFields_eq_map, coerceFields_eq_map]
  generalize hsorted : (Literal.spellingFields s fields (some t)).foldl
    (fun acc p => Literal.putField p.1 p.2 acc) [] = sorted
  have hspelled : Literal.spellingFields s fields (some t) = fields.map fun p =>
      (p.1, Literal.spelling s p.2 (s.inputFieldType? t p.1)) :=
    Literal.spellingFields_eq_map fields (some t)
  have hkeys' : (Entries.keys (Literal.spellingFields s fields (some t))).Nodup := by
    rw [hspelled, Entries.keys_map fun k v => Literal.spelling s v (s.inputFieldType? t k)]
    exact hkeys
  have hlookup : ∀ k, sorted.lookup k =
      (fields.lookup k).map fun v => Literal.spelling s v (s.inputFieldType? t k) := by
    intro k
    rw [← hsorted, Literal.lookup_foldl_putField hkeys', hspelled, List.lookup_nil, Option.or_none]
    exact Entries.lookup_map (fun k v => Literal.spelling s v (s.inputFieldType? t k)) fields k
  have hmem : ∀ k, k ∈ Entries.keys sorted ↔ k ∈ Entries.keys fields := by
    intro k
    rw [Entries.mem_keys_iff, Entries.mem_keys_iff, hlookup, Option.isSome_map]
  rw [Literal.inputObjectAt, Input.inputObject, Entries.keys_map (fun _ => coerceLiteral s vars),
    Entries.keys_map (fun _ => coerceInput s)]
  have hfound := List.find?_isSome_congr (p := fun k => !o.fields.contains k) fun k _ => hmem k
  generalize (Entries.keys sorted).find? _ = unknown, (Entries.keys fields).find? _ = unknown'
    at hfound
  cases unknown with
  | some k =>
    obtain ⟨k', rfl⟩ := Option.isSome_iff_exists.1 hfound.symm
    exact .failed _ _
  | none =>
    obtain rfl := Option.isNone_iff_eq_none.1 (Option.isSome_eq_false_iff.1 hfound.symm)
    refine .of_same (Same.bindAll fun d hd => ?_) (by simp)
    have hplace := Schema.inputFieldType?_of_mem ho hd
    rw [Entries.lookup_map (fun _ => coerceLiteral s vars), hlookup,
      Entries.lookup_map (fun _ => coerceInput s), hplace]
    cases hv : fields.lookup d.name with
    | none => exact .value none
    | some v => exact ih _ (Entries.mem_of_lookup hv) d.type

/-- A value and its spelling are coerced alike at the innermost name of a type. -/
def Json.AlikeAtName (s : Schema) (vars : VariableValues) (v : Json) (t : TypeExpr) : Prop :=
  CoercedAlike
    (Literal.atName s (Literal.spelling s v (some t))
      (Literal.parts s vars (Literal.spelling s v (some t))) t.baseName)
    (Input.atName s v (Input.parts s v) t.baseName)

/-- A value that is no object and its spelling are both no input object. -/
theorem alikeAtName_inputObject {v : Json} (hv : ∀ fields, v ≠ .obj fields) {t : TypeExpr}
    {o : InputObjectType} (ho : s.type? t.baseName = some (.inputObject o)) :
    v.AlikeAtName s vars t := by
  simp only [Json.AlikeAtName, Literal.atName, Input.atName, ho]
  cases v with
  | obj fields => exact absurd rfl (hv fields)
  | num n => cases n <;> exact .failed _ _
  | str v =>
    have hspelling : Literal.spelling s (.str v) (some t) = .string v := by
      simp [Literal.spelling, Schema.isEnum, ho]
    rw [hspelling]
    exact .failed _ _
  | _ => exact .failed _ _

/-- A value that is not null and its spelling are taken alike by the type of a name, if an
object is by an input object. -/
theorem alikeAtName (hs : s.BuiltinScalars) {v : Json} (hr : v.isReadable = true)
    (hv : v ≠ .null) {t : TypeExpr}
    (hobject : ∀ o fields, s.type? t.baseName = some (.inputObject o) → v = .obj fields →
      v.AlikeAtName s vars t) : v.AlikeAtName s vars t := by
  cases htype : s.type? t.baseName with
  | none =>
    rw [Json.AlikeAtName, Literal.atName, Input.atName, htype]
    exact .failed _ _
  | some x =>
    cases x with
    | inputObject o =>
      by_cases hfields : ∃ fields, v = .obj fields
      · obtain ⟨fields, hfields⟩ := hfields
        exact hobject o fields htype hfields
      · exact alikeAtName_inputObject (not_exists.1 hfields) htype
    | scalar c =>
      rw [Json.AlikeAtName, Literal.atName, Input.atName, htype]
      have hc := hs c (Registry.mem_of_get? htype).1
      exact hc.alike s hr hv (by rw [Schema.isEnum, htype])
    | enum e =>
      rw [Json.AlikeAtName, Literal.atName, Input.atName, htype]
      exact e.alike t.baseName hv (by rw [Schema.isEnum, htype])
    | _ =>
      rw [Json.AlikeAtName, Literal.atName, Input.atName, htype]
      exact .failed _ _

/-- A value that is neither null nor an array is coerced like its spelling if it is at the
innermost name of every type. -/
theorem spelledAlike_of_atName {v : Json} (hv : v ≠ .null) (hitems : ∀ items, v ≠ .arr items)
    (h : ∀ t, v.AlikeAtName s vars t) : v.SpelledAlike s vars := by
  intro t
  obtain ⟨hnull, hvar, hparts⟩ := Literal.spelling_whole (s := s) hv hitems vars (some t)
  have hparts' : ∀ cs, Input.parts s v ≠ .items cs := by
    cases v with
    | arr items => exact absurd rfl (hitems items)
    | _ => simp [Input.parts]
  rw [coerceLiteral_eq s vars hvar, coerceInput_eq]
  exact (CoercedAlike.atType hnull (Json.isNull_eq_false.2 hv) hparts hparts' (h t)).same

/-- An array and its spelling are coerced alike if its items are. -/
theorem spelledAlike_arr (hs : s.BuiltinScalars) {items : List Json}
    (hr : (Json.arr items).isReadable = true) (ih : ∀ v ∈ items, v.SpelledAlike s vars) :
    (Json.arr items).SpelledAlike s vars := by
  intro t
  suffices h : CoercedAlike (coerceLiteral s vars (Literal.spelling s (.arr items) (some t)) t)
      (coerceInput s (.arr items) t) from h.same
  have hvar : ∀ place? name, Literal.spelling s (.arr items) place? ≠ .var name := by
    simp [Literal.spelling]
  induction t with
  | named name =>
    rw [coerceLiteral_eq s vars (hvar _), coerceInput_eq]
    have hname : (Json.arr items).AlikeAtName s vars (.named name) :=
      alikeAtName hs hr (by simp) (by simp)
    exact hname
  | list item =>
    rw [Literal.spelling, Literal.spellingItems_eq_map, coerceLiteral_list, coerceInput_list_arr,
      List.mapM_map]
    refine .of_same (Same.mapM fun v hv => ?_) (by simp)
    exact (ih v hv item).itemValue item
  | nonNull t iht =>
    rw [Literal.spelling_nonNull, coerceLiteral_nonNull s vars (hvar _), coerceInput_nonNull]
    exact iht.refuseNull _

theorem coerceLiteral_null_nonNull (s : Schema) (vars : VariableValues) (t : TypeExpr) :
    ∃ e, coerceLiteral s vars .null (.nonNull t) = .error e := by
  induction t with
  | named name => exact ⟨_, rfl⟩
  | list item _ => exact ⟨_, rfl⟩
  | nonNull t ih =>
    obtain ⟨e, he⟩ := ih
    refine ⟨e, ?_⟩
    rw [coerceLiteral] at he ⊢
    rw [Literal.atType, he]
    rfl

theorem Json.spelledAlike_null : Json.null.SpelledAlike s vars := by
  intro t
  cases t with
  | named name => exact .value _
  | list item => exact .value _
  | nonNull t =>
    obtain ⟨e, he⟩ := coerceLiteral_null_nonNull s vars t
    rw [Literal.spelling, he]
    exact .failed _ _

/-- Data as it is read is coerced like its spelling: by induction on its parts. -/
theorem Json.spelledAlike (hs : s.BuiltinScalars) {v : Json} (hv : v.isReadable = true) :
    v.SpelledAlike s vars := by
  induction v using Json.induction_on_parts with
  | leaf v hitems hfields =>
    by_cases hnull : v = .null
    · rw [hnull]
      exact spelledAlike_null
    · exact spelledAlike_of_atName hnull hitems fun t =>
        alikeAtName hs hv hnull fun _ fields _ hobj => absurd hobj (hfields fields)
  | arr items ih =>
    exact spelledAlike_arr hs hv fun v hmem => ih v hmem (Json.areReadable_iff.1 hv v hmem)
  | obj fields ih =>
    obtain ⟨hkeys, hfields⟩ := Bool.and_eq_true_iff.1 hv
    refine spelledAlike_of_atName (by simp) (by simp) fun t => alikeAtName hs hv (by simp) ?_
    intro o fields' ho hobj
    obtain rfl := Json.obj.inj hobj
    rw [Json.AlikeAtName, Literal.atName, Input.atName, ho]
    exact InputObjectType.alike t.baseName ho (of_decide_eq_true hkeys)
      fun x hx => ih x hx (Json.areReadableFields_iff.1 hfields x hx)

end

/-- Literals and data are coerced alike: with the built-in conversions, data and the literal
that spells it either are both refused by a type, or both give the same value, whatever the
variables are. -/
theorem coerceLiteral_spelling {s : Schema} (hs : s.BuiltinScalars) {v : Json}
    (hv : v.isReadable = true) (vars : VariableValues) (t : TypeExpr) :
    (coerceLiteral s vars (Literal.spelling s v (some t)) t).toOption =
      (coerceInput s v t).toOption.map some := by
  rw [(Json.spelledAlike hs hv t).toOption_eq]
  cases coerceInput s v t <;> rfl

/-- A point with a colour and further points, by default black and without any. -/
def pointSchema : Schema :=
  ((Schema.ofQueryType "Query").register (.enum ⟨"Colour", ["RED", "BLACK"]⟩)).register
    (.inputObject ⟨"Point", .ofList [
      ⟨"x", .required "Int", none⟩,
      ⟨"colour", .named "Colour", some (.str "BLACK")⟩,
      ⟨"label", .named "String", none⟩,
      ⟨"next", .list (.nonNull (.named "Point")), none⟩]⟩)

/-- A point with another one in the place of a list, its fields in another order. -/
def pointValue : Json :=
  .obj [("next", .obj [("colour", .str "RED"), ("x", .int 2)]), ("label", .str "RED"),
    ("x", .int 1)]

theorem coerceLiteral_spelling_demo :
    pointSchema.BuiltinScalars ∧ pointValue.isReadable = true ∧
      (coerceLiteral pointSchema []
          (Literal.spelling pointSchema pointValue (some (.required "Point")))
          (.required "Point")).toOption =
        (coerceInput pointSchema pointValue (.required "Point")).toOption.map some ∧
      (coerceInput pointSchema pointValue (.required "Point")).toOption =
        some (.obj [("x", .int 1), ("colour", .str "BLACK"), ("label", .str "RED"),
          ("next", .arr [.obj [("x", .int 2), ("colour", .str "RED")]])]) := by
  have hs : pointSchema.BuiltinScalars :=
    ((Schema.builtinScalars_ofQueryType "Query").register (by simp)).register (by simp)
  have hv : pointValue.isReadable = true := by decide +kernel
  exact ⟨hs, hv, coerceLiteral_spelling hs hv [] (.required "Point"), by decide +kernel⟩

end GraphQL
