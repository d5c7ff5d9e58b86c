/-
GraphQL.Proofs.FailureIsolation — how far the outcome of one resolver reaches.

Two runs of a request differ in what the resolver at one field path comes to: a
value, null, nothing, a failure or a breakdown. Take a position on the route from the
root to that path whose type allows null. Whatever happens below, it is null at worst,
and nothing of it reaches a sibling.

* `Request.failure_isolated` — outside such a position the data of both runs are the
  same, and so are the errors up to order.

Of the trees this says that both are the same once the position is pruned
(`GraphQL.Proofs.TwoRuns`). `Node.settlesAlike_of_grown` is the other half, about one
tree: pruning a position that allows null changes neither the data outside it nor
the errors outside it. A collapse below the position ends there at the latest.
-/
import GraphQL.Proofs.NullPropagation
import GraphQL.Proofs.ScheduleIndependence

namespace GraphQL

/-! ## Values without a part -/

namespace Json

/-- The value with null in place of what stands at a path, if anything does. -/
def blank : Path → Json → Json
  | [], _ => .null
  | .key k :: q, .obj fields =>
    .obj (fields.map fun f => (f.1, if f.1 = k then blank q f.2 else f.2))
  | .index i :: q, .arr items => .arr (items.modify i (blank q))
  | _ :: _, v => v

/-- The value `v` of the path `a`, with null in place of what stands at the path `q`. -/
def blankFrom (q a : Path) (v : Json) : Json :=
  if a <+: q then blank (q.drop a.length) v else v

variable {q a : Path}

@[simp] theorem blankFrom_nil (v : Json) : blankFrom q [] v = blank q v := if_pos List.nil_prefix

theorem blankFrom_null (q a : Path) : blankFrom q a .null = .null := by
  have hblank : ∀ rest, blank rest .null = .null := by
    intro rest
    cases rest with
    | nil => rfl
    | cons x rest => cases x <;> rfl
  rw [blankFrom, hblank, ite_self]

theorem blankFrom_self (v : Json) : blankFrom q q v = .null := by
  rw [blankFrom, if_pos List.prefix_rfl, List.drop_length]
  rfl

theorem blankFrom_off {x : PathPart} (h : ¬ a ++ [x] <+: q) (v : Json) :
    blankFrom q (a ++ [x]) v = v := if_neg h

/-- Below a path on the route, one part leads on. -/
theorem blankFrom_part (x y : PathPart) (rest : Path) (v : Json) :
    blankFrom (a ++ y :: rest) (a ++ [x]) v = if x = y then blank rest v else v := by
  have hprefix : a ++ [x] <+: a ++ y :: rest ↔ x = y := by
    rw [List.prefix_append_right_inj, List.cons_prefix_cons]
    simp
  have hdrop : (a ++ y :: rest).drop (a ++ [x]).length = rest := by
    rw [List.length_append, List.drop_append, List.length_singleton]
    simp
  rw [blankFrom, hdrop]
  exact if_congr hprefix rfl rfl

/-- What stands at a path strictly above is blanked part by part. -/
theorem blankFrom_obj (h : a ≠ q) (fields : List (String × Json)) :
    blankFrom q a (.obj fields) =
      .obj (fields.map fun f => (f.1, blankFrom q (a ++ [.key f.1]) f.2)) := by
  by_cases hpre : a <+: q
  · obtain ⟨rest, rfl⟩ := hpre
    cases rest with
    | nil => simp at h
    | cons y rest =>
      simp only [blankFrom_part]
      rw [blankFrom, if_pos (List.prefix_append _ _), List.drop_left]
      cases y with
      | key k => simp only [blank, PathPart.key.injEq]
      | index i => simp [blank]
  · have hoff : ∀ x, ¬ a ++ [x] <+: q := fun x hx => hpre ((List.prefix_append _ _).trans hx)
    simp only [blankFrom_off (hoff _)]
    rw [blankFrom, if_neg hpre]
    simp

theorem blankFrom_arr (h : a ≠ q) (items : List Json) :
    blankFrom q a (.arr items) =
      .arr (items.mapIdx fun i v => blankFrom q (a ++ [.index i]) v) := by
  have hid : items.mapIdx (fun _ v => v) = items := List.ext_getElem? fun j => by simp
  by_cases hpre : a <+: q
  · obtain ⟨rest, rfl⟩ := hpre
    cases rest with
    | nil => simp at h
    | cons y rest =>
      simp only [blankFrom_part]
      rw [blankFrom, if_pos (List.prefix_append _ _), List.drop_left]
      cases y with
      | key k => simp [blank, hid]
      | index i =>
        simp only [blank, PathPart.index.injEq, Json.arr.injEq]
        refine List.ext_getElem? fun j => ?_
        rw [List.getElem?_modify, List.getElem?_mapIdx]
        cases items[j]? with
        | none => rfl
        | some v => by_cases hij : i = j <;> simp [hij, eq_comm]
  · have hoff : ∀ x, ¬ a ++ [x] <+: q := fun x hx => hpre ((List.prefix_append _ _).trans hx)
    simp only [blankFrom_off (hoff _)]
    rw [blankFrom, if_neg hpre, hid]

end Json

/-! ## Settling a pruned tree -/

/-- Change the value that a position contributes. -/
def Settled.map (f : Json → Json) : Settled → Settled
  | .value v => .value (f v)
  | .collapsed => .collapsed

/-- The data that the root contributes. -/
def Settled.data : Settled → Json
  | .value v => v
  | .collapsed => .null

theorem Settled.data_map {f : Json → Json} (hf : f .null = .null) (c : Settled) :
    (c.map f).data = f c.data := by
  cases c with
  | value v => rfl
  | collapsed => exact hf.symm

namespace Node

/-- The errors of the nulls of a grown tree lie at or below its place. -/
theorem under_of_settle {env : Environment} {t : TypeExpr} {p : Place} {n : Node}
    (hn : env.Grown t p n) {es : List ResponseError} {c : Settled} (h : n.settle = .ok (es, c)) :
    ∀ e ∈ es, e.Under p.path := by
  intro e he
  obtain ⟨c', hc', _⟩ := settlesExactly n (isResolved_of_settle h)
  rw [h] at hc'
  rw [(Prod.mk.inj (Except.ok.inj hc')).1] at he
  obtain ⟨m, hm, rfl⟩ := List.mem_map.1 he
  obtain ⟨b, hb⟩ := Environment.below_of_grown hn m (List.mem_filter.1 hm).1
  exact ⟨b, by rw [hb]; rfl⟩

/-- Among some positions, what stands at a path allows null. -/
def NullableIn (q : Path) (ns : List Node) : Prop :=
  ∀ m ∈ ns, m.place.path = q → m.place.isNonNull = false

/-- A tree at the path `a` settles to the same outside `q` whether or not it is pruned
there. -/
def SettlesAlike (q a : Path) (n : Node) : Prop :=
  ∀ es c, n.settle = .ok (es, c) → ∃ c',
    (n.prune (.covering q)).settle = .ok (es.filter (Veil.covering q).shows, c') ∧
      c'.map (Json.blankFrom q a) = c.map (Json.blankFrom q a)

variable {env : Environment} {q : Path}

theorem hides_iff {a : Path} : (Veil.covering q).hides a = true ↔ q <+: a :=
  List.isPrefixOf_iff_prefix

theorem hides_eq_false {a : Path} (h : ¬ q <+: a) : (Veil.covering q).hides a = false := by
  rw [← Bool.not_eq_true, hides_iff]
  exact h

/-- At the pruned position itself there is a null that its type allows. -/
theorem settlesAlike_self {t : TypeExpr} {p : Place} {n : Node} (hn : env.Grown t p n)
    (hp : p.path = q) (hnull : NullableIn q (n.prune (.covering q)).positions) :
    SettlesAlike q p.path n := by
  intro es c h
  have hpath : n.place.path = q := (Environment.path_of_grown hn).trans hp
  have hprune : n.prune (.covering q) = .null n.place.untyped true :=
    prune_of_hides (hides_iff.2 (hpath ▸ List.prefix_rfl))
  have hnonnull : n.place.isNonNull = false := by
    rw [hprune] at hnull
    have hnulled := hnull (.null n.place.untyped true) (List.mem_singleton.2 rfl) hpath
    exact hnulled
  have hes : es.filter (Veil.covering q).shows = [] := by
    refine List.filter_eq_nil_iff.2 fun e he => ?_
    obtain ⟨b, hb⟩ := under_of_settle hn h e he
    have hhides : (Veil.covering q).hides (p.path ++ b) = true :=
      hides_iff.2 (hp ▸ List.prefix_append _ _)
    simp [Veil.shows, hb, hhides]
  obtain ⟨c', hc', hcollapse, _⟩ := settlesExactly n (isResolved_of_settle h)
  obtain ⟨rfl, rfl⟩ := Prod.mk.inj (Except.ok.inj (h.symm.trans hc'))
  refine ⟨.value .null, ?_, ?_⟩
  · rw [hprune, hes]
    simp only [settle, settleNull]
    rw [show n.place.untyped.isNonNull = false from hnonnull]
    rfl
  · cases c with
    | value v => simp only [Settled.map, hp, Json.blankFrom_self]
    | collapsed =>
      have hcollapses := ((collapses_iff n).1 (hcollapse.1 rfl)).1
      simp [hnonnull] at hcollapses

theorem not_prefix_part {a : Path} {x : PathPart} (h : ¬ q <+: a) (hx : a ++ [x] ≠ q) :
    ¬ q <+: a ++ [x] := by
  rw [List.prefix_concat_iff]
  rintro (heq | hpre)
  · exact hx heq.symm
  · exact h hpre

/-- A node off the route of the pruned position, that stays as it is. -/
theorem settlesAlike_of_prune_eq {p : Place} {n : Node} (hq : ¬ q <+: p.path)
    (hprune : n.prune (.covering q) = n)
    (herrors : ∀ {es c}, n.settle = .ok (es, c) → ∀ e ∈ es, e.path? = some p.path) :
    SettlesAlike q p.path n := by
  intro es c h
  refine ⟨c, ?_, rfl⟩
  have hes : es.filter (Veil.covering q).shows = es := by
    refine List.filter_eq_self.2 fun e he => ?_
    simp [Veil.shows, herrors h e he, hides_eq_false hq]
  rw [hprune, h, hes]

theorem path_of_settleNull {p : Place} {reported : Bool} :
    ∀ e ∈ (settleNull p reported).1, e.path? = some p.path := by
  intro e he
  unfold settleNull at he
  split at he
  · split at he
    · simp at he
    · obtain rfl := List.mem_singleton.1 he
      rfl
  · simp at he

theorem settlesAlike_null (p : Place) (reported : Bool) (hq : ¬ q <+: p.path) :
    SettlesAlike q p.path (.null p reported) := by
  refine settlesAlike_of_prune_eq hq (prune_null (hides_eq_false hq) reported) ?_
  intro es c h
  have hes : (settleNull p reported).1 = es := congrArg Prod.fst (Except.ok.inj h)
  exact hes ▸ path_of_settleNull

theorem settlesAlike_leaf (p : Place) (v : Json) (hq : ¬ q <+: p.path) :
    SettlesAlike q p.path (.leaf p v) := by
  refine settlesAlike_of_prune_eq hq (prune_leaf (hides_eq_false hq) v) ?_
  intro es c h
  by_cases hv : v = .null
  · subst hv
    have hes : (settleNull p false).1 = es := congrArg Prod.fst (Except.ok.inj h)
    exact hes ▸ path_of_settleNull
  · rw [settle_leaf_of_ne_null p hv] at h
    obtain ⟨rfl, _⟩ := Prod.mk.inj (Except.ok.inj h)
    simp

/-- Two ways to prepend a part that are the same outside `q`. -/
theorem joinPart_map_congr {α : Type} {mk : Json → α} {f : Json → Json} {F G : List α → List α}
    (hF : ∀ v vs, F (mk v :: vs) = mk (f v) :: G vs) {c c' : Settled}
    {parts parts' : Option (List α)} (hc : c'.map f = c.map f)
    (hparts : parts'.map G = parts.map G) :
    (joinPart mk c' parts').map F = (joinPart mk c parts).map F := by
  cases c <;> cases c' <;> cases parts <;> cases parts' <;>
    simp_all [joinPart, Settled.map]

/-- Two ways to put parts together that are the same outside `q`. -/
theorem settleParts_map_congr {α : Type} {p : Place} {mk : List α → Json} {f : Json → Json}
    {F : List α → List α} (hF : ∀ xs, f (mk xs) = mk (F xs)) {parts parts' : Option (List α)}
    (hparts : parts'.map F = parts.map F) :
    (settleParts p (parts'.map mk)).map f = (settleParts p (parts.map mk)).map f := by
  cases parts <;> cases parts' <;> simp_all [settleParts, Settled.map]

/-- The items of a list at the path `a` from an index on, with null at `q`. -/
def blankItems (q a : Path) (i : Nat) (vs : List Json) : List Json :=
  vs.mapIdx fun j v => v.blankFrom q (a ++ [.index (i + j)])

/-- The fields of an object at the path `a`, with null at `q`. -/
def blankFields (q a : Path) (fields : List (String × Json)) : List (String × Json) :=
  fields.map fun f => (f.1, f.2.blankFrom q (a ++ [.key f.1]))

/-- Items from an index on settle to the same outside `q` whether or not they are pruned. -/
def ItemsAlike (q a : Path) (i : Nat) (ns : List Node) : Prop :=
  ∀ es parts, settleItems ns = .ok (es, parts) → ∃ parts',
    settleItems (ns.map (prune (.covering q))) = .ok (es.filter (Veil.covering q).shows, parts') ∧
      parts'.map (blankItems q a i) = parts.map (blankItems q a i)

/-- Children settle to the same outside `q` whether or not they are pruned. -/
def ChildrenAlike (q a : Path) (children : List (String × Node)) : Prop :=
  ∀ es parts, settleChildren children = .ok (es, parts) → ∃ parts',
    settleChildren (children.map fun c => (c.1, prune (.covering q) c.2)) =
      .ok (es.filter (Veil.covering q).shows, parts') ∧
      parts'.map (blankFields q a) = parts.map (blankFields q a)

theorem ItemsAlike.cons {a : Path} {i : Nat} {n : Node} {ns : List Node}
    (h : SettlesAlike q (a ++ [.index i]) n) (hs : ItemsAlike q a (i + 1) ns) :
    ItemsAlike q a i (n :: ns) := by
  intro es parts hsettle
  obtain ⟨⟨es₁, c⟩, ⟨es₂, rest⟩, hc, hr, hx⟩ := settleItems_cons hsettle
  obtain ⟨rfl, rfl⟩ := Prod.mk.inj hx
  obtain ⟨c', hc', hblank⟩ := h _ _ hc
  obtain ⟨rest', hr', hblanks⟩ := hs _ _ hr
  refine ⟨joinPart (fun v => v) c' rest', ?_, joinPart_map_congr (fun v vs => ?_) hblank hblanks⟩
  · rw [List.map_cons, settleItems, hc', hr', List.filter_append]
    rfl
  · have hindex : ∀ j, i + 1 + j = i + (j + 1) := fun j => by omega
    simp only [blankItems, List.mapIdx_cons, hindex, Nat.add_zero]

theorem ChildrenAlike.cons {a : Path} {key : String} {n : Node} {children : List (String × Node)}
    (h : SettlesAlike q (a ++ [.key key]) n) (hs : ChildrenAlike q a children) :
    ChildrenAlike q a ((key, n) :: children) := by
  intro es parts hsettle
  obtain ⟨⟨es₁, c⟩, ⟨es₂, rest⟩, hc, hr, hx⟩ := settleChildren_cons hsettle
  obtain ⟨rfl, rfl⟩ := Prod.mk.inj hx
  obtain ⟨c', hc', hblank⟩ := h _ _ hc
  obtain ⟨rest', hr', hblanks⟩ := hs _ _ hr
  have hcons : ∀ v vs, blankFields q a ((key, v) :: vs) =
      (key, v.blankFrom q (a ++ [.key key])) :: blankFields q a vs := fun _ _ => rfl
  refine ⟨joinPart (key, ·) c' rest', ?_, joinPart_map_congr hcons hblank hblanks⟩
  rw [List.map_cons, settleChildren, hc', hr', List.filter_append]
  rfl

theorem settlesAlike_list {p : Place} {items : List Node} (hq : ¬ q <+: p.path)
    (h : ItemsAlike q p.path 0 items) : SettlesAlike q p.path (.list p items) := by
  intro es c hsettle
  obtain ⟨⟨es', parts⟩, hr, hx⟩ := settle_list hsettle
  obtain ⟨rfl, rfl⟩ := Prod.mk.inj hx
  obtain ⟨parts', hparts', hblank⟩ := h _ _ hr
  have hne : p.path ≠ q := fun hp => hq (hp ▸ List.prefix_rfl)
  refine ⟨settleParts p (parts'.map .arr), ?_, settleParts_map_congr (fun vs => ?_) hblank⟩
  · rw [prune_list (hides_eq_false hq), settle, hparts']
    rfl
  · simp only [Json.blankFrom_arr hne, blankItems, Nat.zero_add]

theorem settlesAlike_object {p : Place} {children : List (String × Node)}
    (hq : ¬ q <+: p.path) (h : ChildrenAlike q p.path children) :
    SettlesAlike q p.path (.object p children) := by
  intro es c hsettle
  obtain ⟨⟨es', parts⟩, hr, hx⟩ := settle_object hsettle
  obtain ⟨rfl, rfl⟩ := Prod.mk.inj hx
  obtain ⟨parts', hparts', hblank⟩ := h _ _ hr
  have hne : p.path ≠ q := fun hp => hq (hp ▸ List.prefix_rfl)
  refine ⟨settleParts p (parts'.map .obj), ?_,
    settleParts_map_congr (fun fields => Json.blankFrom_obj hne fields) hblank⟩
  rw [prune_object (hides_eq_false hq), settle, hparts']
  rfl

theorem NullableIn.left {ns ms : List Node} (h : NullableIn q (ns ++ ms)) : NullableIn q ns :=
  fun m hm => h m (List.mem_append_left ms hm)

theorem NullableIn.right {ns ms : List Node} (h : NullableIn q (ns ++ ms)) : NullableIn q ms :=
  fun m hm => h m (List.mem_append_right ns hm)

/-- `__typename` is never the pruned position: its type excludes null. -/
theorem settlesAlike_typename (p : Place) (g : FieldGroup) (object : String)
    (hq : ¬ q <+: p.path)
    (hnull : NullableIn q ((Node.leaf (p.field g.key g object (.required "String"))
      (.str object)).prune (.covering q)).positions) :
    SettlesAlike q (p.path ++ [.key g.key])
      (.leaf (p.field g.key g object (.required "String")) (.str object)) := by
  refine settlesAlike_leaf _ _ (not_prefix_part hq fun hp => ?_)
  have hhides : (Veil.covering q).hides (p.path ++ [.key g.key]) = true :=
    hides_iff.2 (hp ▸ List.prefix_rfl)
  rw [prune_of_hides hhides] at hnull
  have hnullable := hnull _ (List.mem_singleton.2 rfl) hp
  exact Bool.false_ne_true hnullable.symm

mutual

/-- Pruning a position that allows null changes nothing outside it. -/
theorem settlesAlike_of_grown : ∀ {t : TypeExpr} {p : Place} {n : Node}, env.Grown t p n →
    ¬ q <+: p.path → NullableIn q (n.prune (.covering q)).positions → SettlesAlike q p.path n
  | _, _, _, .nonNull h, hq, hnull => settlesAlike_of_grown h hq hnull
  | _, p, _, .null _ _ reported, hq, _ => settlesAlike_null p reported hq
  | _, p, _, .list hitems, hq, hnull => by
    rw [prune_list (hides_eq_false hq)] at hnull
    exact settlesAlike_list hq (itemsAlike_of_grown hitems hq fun m hm =>
      hnull m (List.mem_cons_of_mem _ hm))
  | _, p, _, .scalar _ _, hq, _ => settlesAlike_leaf p _ hq
  | _, p, _, .enum _ _, hq, _ => settlesAlike_leaf p _ hq
  | _, p, _, @Environment.Grown.object _ _ o _ _ _ _ hfields, hq, hnull => by
    have hq' : ¬ q <+: (p.withConcreteType o.name).path := hq
    rw [prune_object (hides_eq_false hq')] at hnull
    exact settlesAlike_object hq' (childrenAlike_of_grown hfields hq fun m hm =>
      hnull m (List.mem_cons_of_mem _ hm))

theorem itemsAlike_of_grown : ∀ {t : TypeExpr} {p : Place} {i : Nat} {ns : List Node},
    env.GrownItems t p i ns → ¬ q <+: p.path →
      NullableIn q (positionsOfItems (ns.map (prune (.covering q)))) → ItemsAlike q p.path i ns
  | _, _, _, _, .nil _ _ _, _, _ => by
    intro es parts h
    obtain ⟨rfl, rfl⟩ := Prod.mk.inj (Except.ok.inj h)
    exact ⟨some [], rfl, rfl⟩
  | t, p, i, _, .cons h hs, hq, hnull => by
    refine ItemsAlike.cons ?_ (itemsAlike_of_grown hs hq hnull.right)
    by_cases hp : (p.item i t).path = q
    · exact settlesAlike_self h hp hnull.left
    · exact settlesAlike_of_grown h (not_prefix_part hq hp) hnull.left

theorem childrenAlike_of_grown : ∀ {p : Place} {object : String} {gs : FieldGroups}
    {children : List (String × Node)}, env.GrownFields p object gs children → ¬ q <+: p.path →
      NullableIn q (positionsOfChildren (children.map fun c => (c.1, prune (.covering q) c.2))) →
      ChildrenAlike q p.path children
  | _, _, _, _, .nil _ _, _, _ => by
    intro es parts h
    obtain ⟨rfl, rfl⟩ := Prod.mk.inj (Except.ok.inj h)
    exact ⟨some [], rfl, rfl⟩
  | p, _, _, _, @Environment.GrownFields.typename _ _ o g _ _ _ hs, hq, hnull => by
    refine ChildrenAlike.cons ?_ (childrenAlike_of_grown hs hq hnull.right)
    exact settlesAlike_typename p g o hq hnull.left
  | _, _, _, _, .undeclared _ _ hs, hq, hnull => childrenAlike_of_grown hs hq hnull
  | p, _, _, _, @Environment.GrownFields.declared _ _ o g _ d _ _ _ _ h hs, hq, hnull => by
    refine ChildrenAlike.cons ?_ (childrenAlike_of_grown hs hq hnull.right)
    by_cases hp : (p.field g.key g o d.type).path = q
    · exact settlesAlike_self h hp hnull.left
    · exact settlesAlike_of_grown h (not_prefix_part hq hp) hnull.left

end

/-! ## Positions of a pruned tree -/

/-- A pruned node is a null, or it stands where it did and its parts are pruned. -/
theorem prune_cases (w : Veil) (n : Node) :
    n.prune w = .null n.place.untyped true ∨
      (n.prune w).place = n.place ∧ (n.prune w).parts = n.parts.map (prune w) := by
  cases h : w.hides n.place.path with
  | true => exact .inl (prune_of_hides h)
  | false =>
    refine .inr ?_
    cases n with
    | leaf p v =>
      rw [prune_leaf (p := p) h]
      exact ⟨rfl, rfl⟩
    | null p reported =>
      rw [prune_null (p := p) h]
      exact ⟨rfl, rfl⟩
    | object p children =>
      rw [prune_object (p := p) h]
      exact ⟨rfl, by simp [parts]⟩
    | list p items =>
      rw [prune_list (p := p) h]
      exact ⟨rfl, rfl⟩
    | pending sub =>
      rw [prune_pending h]
      exact ⟨rfl, rfl⟩

/-- A pruned tree has no positions of its own. -/
theorem mem_positions_prune {w : Veil} {n m : Node} (h : m ∈ (n.prune w).positions) :
    ∃ k ∈ n.positions, m.place.untyped = k.place.untyped := by
  induction n using induction_on_parts with
  | h n ih =>
    rw [positions_eq] at h ⊢
    rcases prune_cases w n with hprune | ⟨hplace, hparts⟩
    · rw [hprune] at h
      obtain rfl := List.mem_singleton.1 h
      exact ⟨n, List.mem_cons_self, rfl⟩
    · rw [hparts] at h
      rcases List.mem_cons.1 h with rfl | h
      · exact ⟨n, List.mem_cons_self, congrArg Place.untyped hplace⟩
      · obtain ⟨l, hl, hm⟩ := List.mem_flatMap.1 h
        obtain ⟨k, hk, rfl⟩ := List.mem_map.1 hl
        obtain ⟨k', hk', heq⟩ := ih k hk hm
        exact ⟨k', List.mem_cons_of_mem n (List.mem_flatMap.2 ⟨k, hk, hk'⟩), heq⟩

end Node

/-! ## Two runs of a request -/

/-- An error that is not about a path or something below it. -/
def ResponseError.isOff (q : Path) (e : ResponseError) : Bool := !e.path?.any q.isPrefixOf

/-- The result tree of a request, if it is executed and meets no fault. -/
def Request.tree? (s : Schema) (r : Request) : Option Node :=
  match r.plan s with
  | .ok p => ((p.jobIn p.mode s r.rootValue r.data).run 0).2.toOption
  | .error _ => none

theorem Request.tree?_of_plan {s : Schema} {r : Request} {p : Plan} (h : r.plan s = .ok p) :
    r.tree? s = ((p.jobIn p.mode s r.rootValue r.data).run 0).2.toOption := by
  unfold tree?
  rw [h]

/-- The result tree of a request has a position at a path, and its type allows null. -/
def Request.NullableAt (s : Schema) (r : Request) (q : Path) : Prop :=
  ∃ n ∈ r.tree? s, ∃ m ∈ n.positions, m.place.path = q ∧ m.place.isNonNull = false

namespace Plan

variable {p : Plan} {mode : Mode} {s : Schema} {source : Json} {data : RequestData}

/-- The result tree of a run is a grown object at the root. -/
theorem grown_of_run {es : List Event} {n : Node}
    (h : (p.jobIn mode s source data).run 0 = (es, .ok n)) :
    ∃ children, n = .object (.root p.root) children ∧
      (p.environment s data).GrownFields (.root p.root) p.root (p.subSelection s source).groups
        children :=
  Environment.grown_objectJob _ _ _ rfl (Job.ends_of_run h)

/-- No two positions of the result tree of a run share a path. -/
theorem eq_of_path_eq {es : List Event} {n m k : Node}
    (h : (p.jobIn mode s source data).run 0 = (es, .ok n)) (hm : m ∈ n.positions)
    (hk : k ∈ n.positions) (hpath : m.place.path = k.place.path) : m = k := by
  obtain ⟨children, rfl, hfields⟩ := grown_of_run h
  have hnodup := Environment.nodup_paths_of_object hfields (FieldGroups.nodup_keys_ofFields _)
  exact List.inj_on_of_nodup_map hnodup hm hk hpath

/-- Outside a position that allows null a run settles to the same whether or not its
tree is pruned there. -/
theorem settle_prune_of_run {es : List Event} {n : Node} {q : Path} (hq : q ≠ [])
    (h : (p.jobIn mode s source data).run 0 = (es, .ok n))
    (hnull : Node.NullableIn q (n.prune (.covering q)).positions) {v : Json}
    {nulls : List ResponseError} (hdata : n.toData = .ok (v, nulls)) :
    ∃ c, (n.prune (.covering q)).settle = .ok (nulls.filter (Veil.covering q).shows, c) ∧
      c.data.blank q = v.blank q := by
  obtain ⟨children, rfl, hfields⟩ := grown_of_run h
  have hroot : ¬ q <+: (Place.root p.root).path := fun hpre => hq (List.prefix_nil.1 hpre)
  rw [Node.prune_object (Node.hides_eq_false hroot)] at hnull
  have halike := Node.settlesAlike_object hroot
    (Node.childrenAlike_of_grown hfields hroot fun m hm => hnull m (List.mem_cons_of_mem _ hm))
  unfold Node.toData at hdata
  cases hs : (Node.object (.root p.root) children).settle with
  | error f => simp [hs, Except.map] at hdata
  | ok x =>
    obtain ⟨es', c⟩ := x
    have hx : c.data = v ∧ es' = nulls := by
      cases c <;> simpa [hs, Except.map, Settled.data] using hdata
    obtain ⟨rfl, rfl⟩ := hx
    obtain ⟨c', hc', hblank⟩ := halike _ _ hs
    refine ⟨c', hc', ?_⟩
    have hdata := congrArg Settled.data hblank
    rw [Settled.data_map (Json.blankFrom_null _ _), Settled.data_map (Json.blankFrom_null _ _)]
      at hdata
    simpa using hdata

/-- Two runs of a plan whose resolvers agree outside a position that allows null. -/
theorem isolated_of_run {q : Path} {ρ₁ ρ₂ : Resolvers} (hρ : ρ₁.AgreeIn (.covering q) ρ₂)
    {es₁ es₂ : List Event} {n₁ n₂ : Node}
    (h₁ : (p.jobIn mode (s.withResolvers ρ₁) source data).run 0 = (es₁, .ok n₁))
    (h₂ : (p.jobIn mode (s.withResolvers ρ₂) source data).run 0 = (es₂, .ok n₂))
    {m : Node} (hm : m ∈ n₁.positions) (hpath : m.place.path = q)
    (hnull : m.place.isNonNull = false) {v₁ v₂ : Json} {nulls₁ nulls₂ : List ResponseError}
    (hd₁ : n₁.toData = .ok (v₁, nulls₁)) (hd₂ : n₂.toData = .ok (v₂, nulls₂)) :
    v₁.blank q = v₂.blank q ∧
      ((Event.errors es₁ ++ nulls₁).filter (Veil.covering q).shows).Perm
        ((Event.errors es₂ ++ nulls₂).filter (Veil.covering q).shows) := by
  have hq : q ≠ [] := by
    -- the root is the only position at its path, and its type excludes null
    rintro rfl
    obtain ⟨children, rfl, _⟩ := grown_of_run h₁
    obtain rfl := eq_of_path_eq h₁ hm List.mem_cons_self hpath
    exact Bool.false_ne_true hnull.symm
  have hroot : (Veil.covering q).hides [] = false :=
    Node.hides_eq_false fun hpre => hq (List.prefix_nil.1 hpre)
  obtain ⟨hprune, hraised⟩ := p.alike_jobIn hρ hroot s source data (Job.ends_of_run h₁)
    (Job.ends_of_run h₂)
  have hnull₁ : Node.NullableIn q (n₁.prune (.covering q)).positions := by
    intro k hk hkq
    obtain ⟨k', hk', heq⟩ := Node.mem_positions_prune hk
    have hkpath := congrArg Place.path heq
    obtain rfl := eq_of_path_eq h₁ hk' hm (hkpath.symm.trans (hkq.trans hpath.symm))
    have hknull := congrArg Place.isNonNull heq
    exact hknull.trans hnull
  obtain ⟨c₁, hc₁, hv₁⟩ := settle_prune_of_run hq h₁ hnull₁ hd₁
  obtain ⟨c₂, hc₂, hv₂⟩ := settle_prune_of_run hq h₂ (hprune ▸ hnull₁) hd₂
  rw [hprune, hc₂] at hc₁
  obtain ⟨hnulls, rfl⟩ := Prod.mk.inj (Except.ok.inj hc₁)
  refine ⟨hv₁.symm.trans hv₂, ?_⟩
  rw [List.filter_append, List.filter_append, hnulls]
  exact (Multiset.coe_eq_coe.1 hraised).append_right _

end Plan

/-- Two runs of a request that differ in what the resolvers at one path come to. Outside
any position on the route to it whose type allows null, and so outside the innermost
one, both have the same data, and the same errors up to order. -/
theorem Request.failure_isolated {s : Schema} {ρ₁ ρ₂ : Resolvers} {f₁ f₂ : Outcomes}
    (h₁ : ρ₁.Computes f₁) (h₂ : ρ₂.Computes f₂) {x : Path}
    (hx : ∀ type name call, call.site.path ≠ x → f₁ type name call = f₂ type name call)
    {r : Request}
    (hv : ∀ d, r.validator (s.withResolvers ρ₁) d = r.validator (s.withResolvers ρ₂) d)
    {a₁ a₂ : Response} (ha₁ : (r.run (s.withResolvers ρ₁)).result = .ok a₁)
    (ha₂ : (r.run (s.withResolvers ρ₂)).result = .ok a₂) {q : Path} (hq : q <+: x)
    (hnull : r.NullableAt (s.withResolvers ρ₁) q) :
    a₁.data?.map (Json.blank q) = a₂.data?.map (Json.blank q) ∧
      (a₁.errors.filter (·.isOff q)).Perm (a₂.errors.filter (·.isOff q)) := by
  obtain ⟨n, hn, m, hm, hpath, hnonnull⟩ := hnull
  have hagree : ρ₁.AgreeIn (.covering q) ρ₂ := by
    intro type name call o₁ o₂ hcall ho₁ ho₂
    have hne : call.site.path ≠ x := by
      intro heq
      rw [heq, Node.hides_iff.2 hq] at hcall
      exact Bool.false_ne_true hcall.symm
    rw [h₁ type name call o₁ ho₁, h₂ type name call o₂ ho₂, hx type name call hne]
  cases hp : r.plan (s.withResolvers ρ₁) with
  | error failure => simp [tree?, hp] at hn
  | ok p =>
    have hp₂ : r.plan (s.withResolvers ρ₂) = .ok p := plan_withResolvers hv ▸ hp
    obtain ⟨es₁, n₁, v₁, nulls₁, hrun₁, hd₁, rfl⟩ := job_of_runIn hp ha₁
    obtain ⟨es₂, n₂, v₂, nulls₂, hrun₂, hd₂, rfl⟩ := job_of_runIn hp₂ ha₂
    rw [tree?_of_plan hp, hrun₁] at hn
    obtain rfl := Option.some.inj hn
    obtain ⟨hdata, herrors⟩ := Plan.isolated_of_run hagree hrun₁ hrun₂ hm hpath hnonnull hd₁ hd₂
    exact ⟨congrArg some hdata, herrors⟩

/-- A user whose name may not be null, next to a count. -/
def userSchema : Schema :=
  let field (name : String) (type : TypeExpr) : FieldDefinition := ⟨name, .empty, type, none⟩
  ((Schema.ofQueryType "Query").register
    (.object ⟨"User", .ofList [field "name" (.required "String"), field "age" (.named "Int")],
      []⟩)).register
    (.object ⟨"Query", .ofList [field "user" (.named "User"), field "count" (.required "Int")], []⟩)

def userRequest : Request := .ofText "{ user { name age } count }"

/-- Everything has a value but the name, which comes to `o`. -/
def userOutcome (o : Outcome) : Outcomes := fun _ name call =>
  if call.site.path = [.key "user", .key "name"] then o
  else .value (if name = "user" then .obj [] else .int 3)

def userResolvers (o : Outcome) : Resolvers := fun type name =>
  some (.pure (userOutcome o type name))

/-- A name that breaks down costs the user, and nothing beside it. -/
theorem Request.failure_isolated_demo :
    ∃ a₁ a₂, (userRequest.run (userSchema.withResolvers
        (userResolvers (.breakdown none)))).result = .ok a₁ ∧
      (userRequest.run (userSchema.withResolvers
        (userResolvers (.value (.str "Ann"))))).result = .ok a₂ ∧
      a₁.data? = some (.obj [("user", .null), ("count", .int 3)]) ∧
      a₂.data? = some (.obj [("user", .obj [("name", .str "Ann"), ("age", .int 3)]),
        ("count", .int 3)]) ∧
      a₁.data?.map (Json.blank [.key "user"]) = a₂.data?.map (Json.blank [.key "user"]) ∧
      (a₁.errors.filter (·.isOff [.key "user"])).Perm
        (a₂.errors.filter (·.isOff [.key "user"])) := by
  let lost : ResponseError :=
    ⟨"Resolver panicked.", [⟨1, 10⟩], some [.key "user", .key "name"], none⟩
  have hcomputes : ∀ o, (userResolvers o).Computes (userOutcome o) := by
    intro o type name call o' h
    exact Fetch.ends_finish h
  have hx : ∀ type name call, call.site.path ≠ [.key "user", .key "name"] →
      userOutcome (.breakdown none) type name call =
        userOutcome (.value (.str "Ann")) type name call := by
    intro type name call hne
    rw [userOutcome, userOutcome, if_neg hne, if_neg hne]
  have hvalidator : userRequest.validator = Validation.findings := rfl
  have hv : ∀ d, userRequest.validator (userSchema.withResolvers
        (userResolvers (.breakdown none))) d =
      userRequest.validator (userSchema.withResolvers
        (userResolvers (.value (.str "Ann")))) d := by
    intro d
    rw [hvalidator, Validation.findings_withResolvers, Validation.findings_withResolvers]
  have ha₁ : (userRequest.run (userSchema.withResolvers
      (userResolvers (.breakdown none)))).result =
      .ok ⟨some (.obj [("user", .null), ("count", .int 3)]), [lost]⟩ := by
    decide +kernel
  have ha₂ : (userRequest.run (userSchema.withResolvers
      (userResolvers (.value (.str "Ann"))))).result =
      .ok ⟨some (.obj [("user", .obj [("name", .str "Ann"), ("age", .int 3)]),
        ("count", .int 3)]), []⟩ := by
    decide +kernel
  have hq : [PathPart.key "user"] <+: [.key "user", .key "name"] := ⟨[.key "name"], rfl⟩
  have hnull : userRequest.NullableAt (userSchema.withResolvers
      (userResolvers (.breakdown none))) [.key "user"] := by
    have hany : ((userRequest.tree? (userSchema.withResolvers
        (userResolvers (.breakdown none)))).any fun n => n.positions.any fun m =>
          m.place.path == [.key "user"] && !m.place.isNonNull) = true := by
      decide +kernel
    obtain ⟨n, hn, hpositions⟩ := Option.any_eq_true _ _ |>.1 hany
    obtain ⟨m, hm, hplace⟩ := List.any_eq_true.1 hpositions
    rw [Bool.and_eq_true, beq_iff_eq, Bool.not_eq_true'] at hplace
    exact ⟨n, hn, m, hm, hplace⟩
  exact ⟨_, _, ha₁, ha₂, rfl, rfl,
    Request.failure_isolated (hcomputes _) (hcomputes _) hx hv ha₁ ha₂ hq hnull⟩

end GraphQL
