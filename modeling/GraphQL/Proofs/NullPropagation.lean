/-
GraphQL.Proofs.NullPropagation — which positions of the data are null, and which
errors that gives.

The rule is told by positions, not by the fold that computes it. A position is
reached from the root by an address, the numbers of the parts taken on the way.
A dead position has a null where its type excludes one.

* The data as a whole is null exactly if a dead position has only non-null
  positions on the way from the root to it.
* Otherwise a position of the data is null exactly if its type allows it and it is
  null in the tree or has a dead position below with only non-null positions
  between the two; every other position has its leaf value or all of its parts.
* The errors are those of the dead positions that have not been reported, each
  once, in depth-first order, discarded branches included.

`Node.toData_exact` is the rule. It rests on `Node.settlesExactly`, the same for
any position of a tree, which is proved from what its parts settle to.
-/
import Mathlib.Data.List.Forall2
import GraphQL.Proofs.Positions
import GraphQL.Proofs.Settling

namespace GraphQL

/-! ## Positions -/

/-- The numbers of the parts taken on the way from the root to a position. -/
abbrev Address := List Nat

/-- The values directly below a value, in order. -/
def Json.parts : Json → List Json
  | .arr items => items
  | .obj fields => fields.map Prod.snd
  | _ => []

/-- The value at an address. -/
def Json.at? : Address → Json → Option Json
  | [], v => some v
  | i :: a, v => v.parts[i]?.bind (Json.at? a)

namespace Node

/-- The node at an address. -/
def at? : Address → Node → Option Node
  | [], n => some n
  | i :: a, n => n.parts[i]?.bind (at? a)

/-- Whether the position is null in the tree. -/
def isNull : Node → Bool
  | .leaf _ v => v.isNull
  | .null _ _ => true
  | _ => false

/-- Whether an error has been raised for the null of the position. -/
def isReported : Node → Bool
  | .null _ reported => reported
  | _ => false

/-- Whether the position is null where its type excludes it. -/
def isDead (n : Node) : Bool := n.isNull && n.place.isNonNull

/-- The error of a dead position. -/
def nullError (n : Node) : ResponseError :=
  n.place.error ("Cannot return null for non-nullable field \"" ++ n.place.coordinates ++ "\".")

/-- The dead positions of a tree that no error has been raised for, depth first. -/
def unreported (n : Node) : List Node :=
  n.positions.filter fun m => m.isDead && !m.isReported

/-- No position of the tree has work left. -/
def IsResolved (n : Node) : Prop := ∀ sub, Node.pending sub ∉ n.positions

/-- Some dead position has only non-null positions on the way to it, the first and
itself included. -/
def Collapses (n : Node) : Prop :=
  ∃ a d, n.at? a = some d ∧ d.isDead = true ∧
    ∀ b m, b <+: a → n.at? b = some m → m.place.isNonNull = true

/-- The position allows null, and it is null in the tree or some dead position below has
only non-null positions between the two. -/
def IsNulled (n : Node) : Prop :=
  n.place.isNonNull = false ∧ (n.isNull = true ∨
    ∃ a d, a ≠ [] ∧ n.at? a = some d ∧ d.isDead = true ∧
      ∀ b m, b <+: a → b ≠ [] → b ≠ a → n.at? b = some m → m.place.isNonNull = true)

/-- The value shows the node: the value of a leaf, an object with all keys in order or a
list with all items. -/
def HasForm : Node → Json → Prop
  | .leaf _ w, v => v = w
  | .object _ children, v =>
    ∃ fields, v = .obj fields ∧ Entries.keys fields = children.map Prod.fst
  | .list _ items, v => ∃ vs, v = .arr vs ∧ vs.length = items.length
  | _, _ => False

/-- The value shows the tree: each position that is not below a nulled one is null if it
is nulled, and otherwise has the form of its node. -/
def Renders (n : Node) (v : Json) : Prop :=
  ∀ a m, n.at? a = some m →
    (∀ b k, b <+: a → b ≠ a → n.at? b = some k → ¬ k.IsNulled) →
    ∃ w, v.at? a = some w ∧ (w = .null ↔ m.IsNulled) ∧ (¬ m.IsNulled → m.HasForm w)

/-! ## Trees by their parts -/

/-- The children of an object settle as items do, under their keys. -/
theorem settleChildren_eq (children : List (String × Node)) :
    settleChildren children = (settleItems (children.map Prod.snd)).map fun r =>
      (r.1, r.2.map fun vs => (children.map Prod.fst).zip vs) := by
  induction children with
  | nil => rfl
  | cons c rest ih =>
    obtain ⟨key, n⟩ := c
    simp only [settleChildren, ih, List.map_cons, settleItems]
    cases settle n with
    | error f => rfl
    | ok c =>
      cases settleItems (rest.map Prod.snd) with
      | error f => rfl
      | ok r =>
        obtain ⟨es, c⟩ := c
        obtain ⟨fs, vs⟩ := r
        cases c <;> cases vs <;> rfl

theorem IsResolved.of_mem {n m : Node} (h : n.IsResolved) (hm : m ∈ n.parts) :
    m.IsResolved := by
  intro sub hsub
  refine h sub ?_
  rw [positions_eq]
  exact List.mem_cons_of_mem _ (List.mem_flatMap.2 ⟨m, hm, hsub⟩)

theorem unreported_eq (n : Node) :
    n.unreported = (if n.isDead && !n.isReported then [n] else []) ++
      n.parts.flatMap unreported := by
  unfold unreported
  rw [positions_eq, List.filter_cons, List.filter_flatMap]
  split <;> rfl

/-- Dead positions at or below a node: the node itself, or one that a part passes on. -/
theorem collapses_iff (n : Node) :
    n.Collapses ↔ n.place.isNonNull = true ∧ (n.isNull = true ∨ ∃ m ∈ n.parts, m.Collapses) := by
  constructor
  · rintro ⟨a, d, had, hdead, hway⟩
    have hn := hway [] n (List.nil_prefix) rfl
    refine ⟨hn, ?_⟩
    cases a with
    | nil =>
      obtain rfl := Option.some.inj had
      exact .inl (Bool.and_eq_true_iff.1 hdead).1
    | cons i a =>
      obtain ⟨m, hm, hmd⟩ := Option.bind_eq_some_iff.1 had
      refine .inr ⟨m, List.mem_of_getElem? hm, a, d, hmd, hdead, fun b k hb hk => ?_⟩
      refine hway (i :: b) k (List.cons_prefix_cons.2 ⟨rfl, hb⟩) ?_
      rw [at?, hm]
      exact hk
  · rintro ⟨hn, hnull | ⟨m, hm, a, d, had, hdead, hway⟩⟩
    · refine ⟨[], n, rfl, Bool.and_eq_true_iff.2 ⟨hnull, hn⟩, fun b k hb hk => ?_⟩
      obtain rfl := List.prefix_nil.1 hb
      obtain rfl := Option.some.inj hk
      exact hn
    · obtain ⟨i, hi⟩ := List.mem_iff_getElem?.1 hm
      refine ⟨i :: a, d, by rw [at?, hi]; exact had, hdead, fun b k hb hk => ?_⟩
      cases b with
      | nil =>
        obtain rfl := Option.some.inj hk
        exact hn
      | cons j b =>
        obtain ⟨rfl, hba⟩ := List.cons_prefix_cons.1 hb
        rw [at?, hi] at hk
        exact hway b k hba hk

/-- A nulled position has a null of its own or one that a part passes on. -/
theorem isNulled_iff (n : Node) :
    n.IsNulled ↔
      n.place.isNonNull = false ∧ (n.isNull = true ∨ ∃ m ∈ n.parts, m.Collapses) := by
  refine and_congr_right fun _ => or_congr_right ?_
  constructor
  · rintro ⟨a, d, hne, had, hdead, hway⟩
    cases a with
    | nil => exact absurd rfl hne
    | cons i a =>
      obtain ⟨m, hm, hmd⟩ := Option.bind_eq_some_iff.1 had
      refine ⟨m, List.mem_of_getElem? hm, a, d, hmd, hdead, fun b k hb hk => ?_⟩
      by_cases hba : b = a
      · -- the dead position itself is non-null by what it means to be dead
        subst hba
        obtain rfl := Option.some.inj (hmd.symm.trans hk)
        exact (Bool.and_eq_true_iff.1 hdead).2
      · refine hway (i :: b) k (List.cons_prefix_cons.2 ⟨rfl, hb⟩) (by simp)
          (fun e => hba (List.cons.inj e).2) ?_
        rw [at?, hm]
        exact hk
  · rintro ⟨m, hm, a, d, had, hdead, hway⟩
    obtain ⟨i, hi⟩ := List.mem_iff_getElem?.1 hm
    refine ⟨i :: a, d, by simp, by rw [at?, hi]; exact had, hdead, fun b k hb hne _ hk => ?_⟩
    cases b with
    | nil => exact absurd rfl hne
    | cons j b =>
      obtain ⟨rfl, hba⟩ := List.cons_prefix_cons.1 hb
      rw [at?, hi] at hk
      exact hway b k hba hk

/-! ## Settling is exact -/

/-- Each part of the node is shown by the part of the value with the same number. -/
def PartsRendered (n : Node) (v : Json) : Prop :=
  ∀ (i : Nat) (k : Node), n.parts[i]? = some k →
    ∃ w, v.parts[i]? = some w ∧ k.Renders w

theorem partsRendered_of_forall₂ {n : Node} {v : Json}
    (h : List.Forall₂ Renders n.parts v.parts) : n.PartsRendered v := by
  intro i k hk
  obtain ⟨hi, rfl⟩ := List.getElem?_eq_some_iff.1 hk
  have hi' : i < v.parts.length := h.length_eq ▸ hi
  exact ⟨v.parts[i], List.getElem?_eq_getElem hi', h.get hi hi'⟩

/-- A value shows a tree if it shows the root and, where that is not nulled, its parts
show the parts. -/
theorem renders_of_parts {n : Node} {v : Json} (hv : v = .null ↔ n.IsNulled)
    (hform : ¬ n.IsNulled → n.HasForm v ∧ n.PartsRendered v) : n.Renders v := by
  intro a m ham habove
  cases a with
  | nil =>
    obtain rfl := Option.some.inj ham
    exact ⟨v, rfl, hv, fun h => (hform h).1⟩
  | cons i a =>
    have hn : ¬ n.IsNulled := habove [] n List.nil_prefix (by simp) rfl
    obtain ⟨k, hk, hkm⟩ := Option.bind_eq_some_iff.1 ham
    obtain ⟨w, hw, hkw⟩ := (hform hn).2 i k hk
    obtain ⟨u, hu, hrest⟩ := hkw a m hkm fun b l hb hne hl => by
      refine habove (i :: b) l (List.cons_prefix_cons.2 ⟨rfl, hb⟩)
        (fun e => hne (List.cons.inj e).2) ?_
      rw [at?, hk]
      exact hl
    refine ⟨u, ?_, hrest⟩
    rw [Json.at?, hw]
    exact hu

/-- A tree settles by the rule: it gives the errors of its unreported dead positions, it
collapses exactly if a dead position passes on its null, and otherwise the value shows
the tree. -/
def SettlesExactly (n : Node) : Prop :=
  ∃ c, n.settle = .ok (n.unreported.map nullError, c) ∧ (c = .collapsed ↔ n.Collapses) ∧
    ∀ v, c = .value v → n.Renders v

theorem settleItems_exact {ns : List Node} (h : ∀ m ∈ ns, m.SettlesExactly) :
    ∃ parts, settleItems ns = .ok ((ns.flatMap unreported).map nullError, parts) ∧
      (parts = none ↔ ∃ m ∈ ns, m.Collapses) ∧
      ∀ vs, parts = some vs → List.Forall₂ Renders ns vs := by
  induction ns with
  | nil => exact ⟨some [], rfl, by simp, fun vs hvs => Option.some.inj hvs ▸ .nil⟩
  | cons n ns ih =>
    obtain ⟨c, hc, hcollapse, hvalue⟩ := h n List.mem_cons_self
    obtain ⟨parts, hparts, hnone, hsome⟩ := ih fun m hm => h m (List.mem_cons_of_mem _ hm)
    refine ⟨joinPart (fun v => v) c parts, ?_, ?_, ?_⟩
    · rw [settleItems, hc, hparts, List.flatMap_cons, List.map_append]
      rfl
    · rw [joinPart_eq_none, hcollapse, hnone]
      simp
    · intro vs hvs
      obtain ⟨v, vs', rfl, rfl, rfl⟩ := joinPart_eq_some.1 hvs
      exact .cons (hvalue v rfl) (hsome vs' rfl)

/-- A leaf with a value of its own settles to it. -/
theorem settlesExactly_leaf (p : Place) {v : Json} (hv : v ≠ .null) :
    (Node.leaf p v).SettlesExactly := by
  have hnull : isNull (.leaf p v) = false := Json.isNull_eq_false.2 hv
  have hnot : ¬ (Node.leaf p v).Collapses := by
    rw [collapses_iff, hnull]
    simp [parts]
  have hnulled : ¬ (Node.leaf p v).IsNulled := by
    rw [isNulled_iff, hnull]
    simp [parts]
  refine ⟨.value v, ?_, iff_of_false (by simp) hnot, fun w hw => ?_⟩
  · rw [settle_leaf_of_ne_null p hv, unreported_eq, isDead, hnull]
    rfl
  · obtain rfl := Settled.value.inj hw
    exact renders_of_parts (iff_of_false hv hnulled) fun _ => ⟨rfl, fun i k hk => by
      simp [parts] at hk⟩

/-- A position that is null in the tree: dead if its type excludes null, nulled if not. -/
theorem settlesExactly_of_isNull {n : Node} (hnull : n.isNull = true)
    (hs : n.settle = .ok (settleNull n.place n.isReported)) : n.SettlesExactly := by
  have hparts : n.parts = [] := by
    cases n with
    | leaf | null => rfl
    | object | list | pending => exact absurd hnull (by simp [isNull])
  have hunreported : n.unreported = if n.isDead && !n.isReported then [n] else [] := by
    rw [unreported_eq, hparts, List.flatMap_nil, List.append_nil]
  unfold SettlesExactly
  rw [hs, hunreported, isDead, hnull, Bool.true_and]
  cases hn : n.place.isNonNull
  · refine ⟨.value .null, by simp [settleNull, hn], iff_of_false (by simp) ?_, fun v hv => ?_⟩
    · rw [collapses_iff, hn]
      simp
    · obtain rfl := Settled.value.inj hv
      have hnulled : n.IsNulled := (isNulled_iff n).2 ⟨hn, .inl hnull⟩
      exact renders_of_parts (iff_of_true rfl hnulled) fun h => absurd hnulled h
  · refine ⟨.collapsed, ?_, ?_, by simp⟩
    · cases n.isReported <;> simp [settleNull, hn, nullError]
    · exact iff_of_true rfl ((collapses_iff n).2 ⟨hn, .inl hnull⟩)

/-- A position with parts: it collapses with any of them, if its type excludes null. -/
theorem settlesExactly_of_parts {n : Node} {mk : List Json → Json} {parts : Option (List Json)}
    (hnull : n.isNull = false)
    (hs : n.settle = .ok ((n.parts.flatMap unreported).map nullError,
      settleParts n.place (parts.map mk)))
    (hnone : parts = none ↔ ∃ m ∈ n.parts, m.Collapses)
    (hsome : ∀ vs, parts = some vs →
      mk vs ≠ .null ∧ n.HasForm (mk vs) ∧ n.PartsRendered (mk vs)) :
    n.SettlesExactly := by
  have hunreported : n.unreported = n.parts.flatMap unreported := by
    rw [unreported_eq, isDead, hnull]
    rfl
  refine ⟨settleParts n.place (parts.map mk), hunreported ▸ hs, ?_, fun v hv => ?_⟩
  · rw [settleParts_eq_collapsed, Option.map_eq_none_iff, hnone, collapses_iff, hnull, and_comm]
    simp
  · rcases settleParts_eq_value.1 hv with hparts | ⟨hparts, hn, rfl⟩
    · obtain ⟨vs, hvs, rfl⟩ := Option.map_eq_some_iff.1 hparts
      obtain ⟨hne, hform⟩ := hsome vs hvs
      have hnot : ¬ n.IsNulled := by
        rw [isNulled_iff, hnull, ← hnone, hvs]
        simp
      exact renders_of_parts (iff_of_false hne hnot) fun _ => hform
    · have hnulled : n.IsNulled :=
        (isNulled_iff n).2 ⟨hn, .inr (hnone.1 (Option.map_eq_none_iff.1 hparts))⟩
      exact renders_of_parts (iff_of_true rfl hnulled) fun h => absurd hnulled h

theorem settlesExactly_object (p : Place) (children : List (String × Node))
    (h : ∀ m ∈ (Node.object p children).parts, m.SettlesExactly) :
    (Node.object p children).SettlesExactly := by
  obtain ⟨parts, hparts, hnone, hsome⟩ := settleItems_exact h
  have hvalues : ∀ {vs : List Json}, vs.length = children.length →
      ((children.map Prod.fst).zip vs).map Prod.snd = vs := fun hlen =>
    List.map_snd_zip (Nat.le_of_eq (hlen.trans (List.length_map _).symm))
  have hs : (Node.object p children).settle =
      .ok (((Node.object p children).parts.flatMap unreported).map nullError,
        settleParts p (parts.map fun vs => .obj ((children.map Prod.fst).zip vs))) := by
    rw [settle, settleChildren_eq]
    change ((settleItems (Node.object p children).parts).map _).map _ = _
    rw [hparts]
    simp only [Except.map, Option.map_map, Function.comp_def]
  refine settlesExactly_of_parts rfl hs hnone fun vs hvs => ?_
  have hrender := hsome vs hvs
  have hlen : vs.length = children.length := by
    rw [← hrender.length_eq, Node.parts, List.length_map]
  have hkeys : ((children.map Prod.fst).zip vs).map Prod.fst = children.map Prod.fst :=
    List.map_fst_zip (Nat.le_of_eq ((List.length_map _).trans hlen.symm))
  refine ⟨by simp, ⟨_, rfl, hkeys⟩, partsRendered_of_forall₂ ?_⟩
  rw [Json.parts, hvalues hlen]
  exact hrender

theorem settlesExactly_list (p : Place) (items : List Node)
    (h : ∀ m ∈ (Node.list p items).parts, m.SettlesExactly) :
    (Node.list p items).SettlesExactly := by
  obtain ⟨parts, hparts, hnone, hsome⟩ := settleItems_exact h
  have hs : (Node.list p items).settle =
      .ok (((Node.list p items).parts.flatMap unreported).map nullError,
        settleParts p (parts.map .arr)) := by
    rw [settle]
    change (settleItems (Node.list p items).parts).map _ = _
    rw [hparts]
    rfl
  refine settlesExactly_of_parts rfl hs hnone fun vs hvs => ?_
  have hrender := hsome vs hvs
  exact ⟨by simp, ⟨vs, rfl, hrender.length_eq.symm⟩, partsRendered_of_forall₂ hrender⟩

/-- Every resolved tree settles by the rule. -/
theorem settlesExactly (n : Node) (h : n.IsResolved) : n.SettlesExactly := by
  induction n using induction_on_parts with
  | h n ih =>
    have hparts : ∀ m ∈ n.parts, m.SettlesExactly := fun m hm => ih m hm (h.of_mem hm)
    cases n with
    | leaf p v =>
      by_cases hv : v = .null
      · subst hv
        exact settlesExactly_of_isNull rfl rfl
      · exact settlesExactly_leaf p hv
    | null p reported => exact settlesExactly_of_isNull rfl rfl
    | object p children => exact settlesExactly_object p children hparts
    | list p items => exact settlesExactly_list p items hparts
    | pending sub => exact absurd (by simp [positions]) (h sub)

/-- A tree that settles has no work left. -/
theorem isResolved_of_settle {n : Node} {x : List ResponseError × Settled}
    (h : n.settle = .ok x) : n.IsResolved := by
  have hitems : ∀ {ns : List Node} {r}, settleItems ns = .ok r →
      ∀ m ∈ ns, ∃ x, m.settle = .ok x := by
    intro ns
    induction ns with
    | nil => exact fun _ m hm => absurd hm List.not_mem_nil
    | cons n ns ih =>
      intro r hr m hm
      obtain ⟨c, r', hc, hr', _⟩ := settleItems_cons hr
      rcases List.mem_cons.1 hm with rfl | hm
      · exact ⟨c, hc⟩
      · exact ih hr' m hm
  induction n using induction_on_parts generalizing x with
  | h n ih =>
    have hparts : ∀ m ∈ n.parts, ∃ x, m.settle = .ok x := by
      cases n with
      | leaf | null => exact fun m hm => absurd hm List.not_mem_nil
      | object p children =>
        obtain ⟨r, hr, _⟩ := settle_object h
        rw [settleChildren_eq] at hr
        cases hs : settleItems (children.map Prod.snd) with
        | error f => simp [hs, Except.map] at hr
        | ok r' => exact hitems hs
      | list p items =>
        obtain ⟨r, hr, _⟩ := settle_list h
        exact hitems hr
      | pending sub => simp [settle] at h
    intro sub hsub
    rw [positions_eq] at hsub
    rcases List.mem_cons.1 hsub with rfl | hsub
    · simp [settle] at h
    · obtain ⟨m, hm, hsub⟩ := List.mem_flatMap.1 hsub
      obtain ⟨x, hx⟩ := hparts m hm
      exact ih m hm hx sub hsub

/-! ## Values at positions -/

theorem mem_positions_of_at? {n m : Node} {a : Address} (h : n.at? a = some m) :
    m ∈ n.positions := by
  induction a generalizing n with
  | nil =>
    obtain rfl := Option.some.inj h
    rw [positions_eq]
    exact List.mem_cons_self
  | cons i a ih =>
    obtain ⟨k, hk, hm⟩ := Option.bind_eq_some_iff.1 h
    rw [positions_eq]
    exact List.mem_cons_of_mem _ (List.mem_flatMap.2 ⟨k, List.mem_of_getElem? hk, ih hm⟩)

/-- Where the root is not nulled, the parts of the value show the parts of the tree. -/
theorem Renders.part {n k : Node} {v : Json} (h : n.Renders v) (hn : ¬ n.IsNulled) {i : Nat}
    (hk : n.parts[i]? = some k) : ∃ w, v.parts[i]? = some w ∧ k.Renders w := by
  have habove : ∀ {a : Address}, (∀ b l, b <+: a → b ≠ a → k.at? b = some l → ¬ l.IsNulled) →
      ∀ b l, b <+: i :: a → b ≠ i :: a → n.at? b = some l → ¬ l.IsNulled := by
    intro a ha b l hb hne hl
    cases b with
    | nil =>
      obtain rfl := Option.some.inj hl
      exact hn
    | cons j b =>
      obtain ⟨rfl, hba⟩ := List.cons_prefix_cons.1 hb
      rw [at?, hk] at hl
      exact ha b l hba (fun e => hne (e ▸ rfl)) hl
  have hat : ∀ {a : Address} {m : Node}, k.at? a = some m → n.at? (i :: a) = some m := by
    intro a m hm
    rw [at?, hk]
    exact hm
  obtain ⟨w, hw, _⟩ := h [i] k (hat rfl) (habove fun b l hb hne _ =>
    absurd (List.prefix_nil.1 hb) hne)
  obtain ⟨u, hu, hself⟩ := Option.bind_eq_some_iff.1 hw
  obtain rfl := Option.some.inj hself
  refine ⟨u, hu, fun a m hm ha => ?_⟩
  obtain ⟨x, hx, hrest⟩ := h (i :: a) m (hat hm) (habove ha)
  rw [Json.at?, hu] at hx
  exact ⟨x, hx, hrest⟩

/-- What the data has at a position is null or has the form of the node. -/
theorem Renders.form {n m : Node} {v w : Json} (h : n.Renders v) {a : Address}
    (hm : n.at? a = some m) (hw : v.at? a = some w) : w = .null ∨ m.HasForm w := by
  induction a generalizing n v with
  | nil =>
    obtain rfl := Option.some.inj hm
    obtain rfl := Option.some.inj hw
    obtain ⟨x, hx, hnull, hform⟩ := h [] n rfl fun b l hb hne _ =>
      absurd (List.prefix_nil.1 hb) hne
    obtain rfl := Option.some.inj hx
    by_cases hn : n.IsNulled
    · exact .inl (hnull.2 hn)
    · exact .inr (hform hn)
  | cons i a ih =>
    obtain ⟨k, hk, hkm⟩ := Option.bind_eq_some_iff.1 hm
    obtain ⟨u, hu, huw⟩ := Option.bind_eq_some_iff.1 hw
    by_cases hn : n.IsNulled
    · -- a nulled position leaves no value below
      obtain ⟨x, hx, hnull, _⟩ := h [] n rfl fun b l hb hne _ =>
        absurd (List.prefix_nil.1 hb) hne
      obtain rfl := Option.some.inj hx
      rw [hnull.2 hn] at hu
      simp [Json.parts] at hu
    · obtain ⟨u', hu', hrenders⟩ := h.part hn hk
      rw [hu] at hu'
      obtain rfl := Option.some.inj hu'
      exact ih hrenders hkm huw

/-- What the data of a tree has at a position is null or has the form of the node. -/
theorem form_of_toData {n m : Node} {v w : Json} {errors : List ResponseError}
    (h : n.toData = .ok (v, errors)) {a : Address} (hm : n.at? a = some m)
    (hw : v.at? a = some w) : w = .null ∨ m.HasForm w := by
  unfold toData at h
  cases hs : n.settle with
  | error f => simp [hs, Except.map] at h
  | ok x =>
    obtain ⟨c, hc, _, hrenders⟩ := settlesExactly n (isResolved_of_settle hs)
    rw [hc] at h
    cases c with
    | collapsed =>
      obtain rfl : Json.null = v := (Prod.mk.inj (Except.ok.inj h)).1
      cases a with
      | nil => exact .inl (Option.some.inj hw).symm
      | cons i a => simp [Json.at?, Json.parts] at hw
    | value u =>
      obtain rfl : u = v := (Prod.mk.inj (Except.ok.inj h)).1
      exact (hrenders u rfl).form hm hw

/-! ## The rule -/

/-- What a resolved tree with a non-null root turns into: which positions of the data are
null, what the others show, and which errors that gives. -/
theorem toData_exact (root : Node) (hr : root.IsResolved) (hn : root.place.isNonNull = true) :
    ∃ data errors, root.toData = .ok (data, errors) ∧
      (data = .null ↔ root.Collapses) ∧
      (data ≠ .null → root.Renders data) ∧
      errors = root.unreported.map nullError ∧
      errors.map (·.path?) = root.unreported.map fun m => some m.place.path := by
  obtain ⟨c, hc, hcollapse, hvalue⟩ := settlesExactly root hr
  have hpaths : (root.unreported.map nullError).map (·.path?) =
      root.unreported.map fun m => some m.place.path := by
    rw [List.map_map]
    rfl
  cases c with
  | collapsed =>
    refine ⟨.null, root.unreported.map nullError, ?_, ?_, by simp, rfl, hpaths⟩
    · rw [toData, hc]
      rfl
    · exact iff_of_true rfl (hcollapse.1 rfl)
  | value v =>
    refine ⟨v, root.unreported.map nullError, ?_, ?_, fun _ => hvalue v rfl, rfl, hpaths⟩
    · rw [toData, hc]
      rfl
    · have hne : v ≠ .null := ne_null_of_settle hn hc
      exact iff_of_false hne fun h => by simpa using hcollapse.2 h

/-- A null that an object takes, one below a list that has been reported, and one in a
place for it. -/
def demoTree : Node :=
  let place (path : Path) (type : TypeExpr) : Place := ⟨path, type, none, none, none⟩
  .object (.root "Query")
    [("user", .object (place [.key "user"] (.named "User"))
      [("tag", .leaf (place [.key "user", .key "tag"] (.named "String")) (.str "x")),
        ("name", .leaf (place [.key "user", .key "name"] (.required "String")) .null)]),
      ("ids", .list (place [.key "ids"] (.list (.required "Int")))
        [.leaf (place [.key "ids", .index 0] (.required "Int")) (.int 1),
          .null (place [.key "ids", .index 1] (.required "Int")) true]),
      ("tags", .list (place [.key "tags"] (.nonNull (.list (.named "String"))))
        [.null (place [.key "tags", .index 0] (.named "String")) false])]

theorem toData_exact_demo :
    demoTree.IsResolved ∧ demoTree.place.isNonNull = true ∧
      ∃ data errors, demoTree.toData = .ok (data, errors) ∧
        (data = .null ↔ demoTree.Collapses) ∧
        (data ≠ .null → demoTree.Renders data) ∧
        errors = demoTree.unreported.map nullError ∧
        errors.map (·.path?) = demoTree.unreported.map (fun m => some m.place.path) := by
  have hr : demoTree.IsResolved := by
    intro sub h
    simp [demoTree, positions, positionsOfChildren, positionsOfItems] at h
  exact ⟨hr, rfl, toData_exact demoTree hr rfl⟩

example : demoTree.toData = .ok
    (.obj [("user", .null), ("ids", .null), ("tags", .arr [.null])],
      [⟨"Cannot return null for non-nullable field \"String!\".", [],
        some [.key "user", .key "name"], none⟩]) := by
  decide

end Node

end GraphQL
