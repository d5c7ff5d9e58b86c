/-
GraphQL.Proofs.Explanation — nulls and errors explain each other.

Errors are raised by fetches, by completions and, for the nulls that are left over, by
turning the tree into data; the values of branches that collapse vanish. Still each null
has its error and each failure its null.

* Below a null where the type excludes null lies an error of the response
  (`Environment.reported_of_told` for the nulls that execution has reported).
* Where something failed, the data is null, there or further up
  (`Environment.null_of_failure` for the tree, `Node.null_on_route` for the data).
* No error is lost and none is doubled.

`Node.shown_of_renders` carries this from the tree to the data: on the route to any
position the data shows the tree until it meets a null.
-/
import GraphQL.Proofs.Accounts

namespace GraphQL

/-! ## Following a path -/

namespace Json

/-- What stands at a path of the data. -/
def follow? : Path → Json → Option Json
  | [], v => some v
  | .key k :: rest, .obj fields => (fields.lookup k).bind (follow? rest)
  | .index i :: rest, .arr items => items[i]?.bind (follow? rest)
  | _ :: _, _ => none

/-- Nothing stands below a null. -/
theorem follow?_null {a : Path} (ha : a ≠ []) : follow? a .null = none := by
  cases a with
  | nil => exact absurd rfl ha
  | cons x rest => cases x <;> rfl

theorem follow?_append (a b : Path) (v : Json) :
    follow? (a ++ b) v = (follow? a v).bind (follow? b) := by
  induction a generalizing v with
  | nil => rfl
  | cons x a ih =>
    cases x with
    | key k =>
      cases v with
      | obj fields =>
        simp only [List.cons_append, follow?]
        cases fields.lookup k with
        | none => rfl
        | some w => exact ih w
      | _ => rfl
    | index i =>
      cases v with
      | arr items =>
        simp only [List.cons_append, follow?]
        cases items[i]? with
        | none => rfl
        | some w => exact ih w
      | _ => rfl

end Json

/-! ## Trees with their paths -/

namespace Node

/-- The parts of a position stand one step below it: the children of an object at
different keys, the items of a list at their indices. -/
def WellPlaced : Node → Prop
  | .object p children =>
    (children.map Prod.fst).Nodup ∧ ∀ c ∈ children, c.2.place.path = p.path ++ [.key c.1]
  | .list p items => ∀ i m, items[i]? = some m → m.place.path = p.path ++ [.index i]
  | _ => True

/-- All positions of a tree are well placed. -/
def IsPlaced (n : Node) : Prop := ∀ m ∈ n.positions, m.WellPlaced

theorem IsPlaced.of_mem {n m : Node} (h : n.IsPlaced) (hm : m ∈ n.positions) : m.IsPlaced :=
  fun k hk => h k (mem_positions_trans hm hk)

theorem IsPlaced.part {n k : Node} (h : n.IsPlaced) (hk : k ∈ n.parts) : k.IsPlaced :=
  h.of_mem (mem_positions_of_part n.mem_positions_self hk)

theorem IsPlaced.root {n : Node} (h : n.IsPlaced) : n.WellPlaced := h n n.mem_positions_self

/-- A part of a value of the form of a node stands where the part of the node does. -/
theorem exists_step {n k : Node} (h : n.WellPlaced) {i : Nat} (hk : n.parts[i]? = some k) :
    ∃ x, k.place.path = n.place.path ++ [x] ∧ ∀ {u w : Json}, n.HasForm u →
      u.parts[i]? = some w → ∀ rest, u.follow? (x :: rest) = w.follow? rest := by
  cases n with
  | leaf | null | pending => simp [parts] at hk
  | list p items =>
    refine ⟨.index i, h i k hk, fun hu hw rest => ?_⟩
    obtain ⟨vs, rfl, -⟩ := hu
    have hvs : vs[i]? = some _ := hw
    simp only [Json.follow?, hvs, Option.bind_some]
  | object p children =>
    rw [parts, List.getElem?_map] at hk
    obtain ⟨⟨key, m⟩, hc, rfl⟩ := Option.map_eq_some_iff.1 hk
    refine ⟨.key key, h.2 _ (List.mem_of_getElem? hc), fun hu hw rest => ?_⟩
    obtain ⟨fields, rfl, hkeys⟩ := hu
    rw [Json.parts, List.getElem?_map] at hw
    obtain ⟨⟨key', w⟩, hf, rfl⟩ := Option.map_eq_some_iff.1 hw
    have hkey : (Entries.keys fields)[i]? = some key' := by
      rw [Entries.keys, List.getElem?_map, hf]
      rfl
    rw [hkeys, List.getElem?_map, hc] at hkey
    obtain rfl := Option.some.inj hkey
    have hlookup : fields.lookup key = some w :=
      Entries.lookup_of_mem (hkeys ▸ h.1) (List.mem_of_getElem? hf)
    simp only [Json.follow?, hlookup, Option.bind_some]

/-- The positions of a tree are at or below its root. -/
theorem IsPlaced.below {n m : Node} (h : n.IsPlaced) (hm : m ∈ n.positions) :
    n.place.path <+: m.place.path := by
  induction n using induction_on_parts with
  | h n ih =>
    rw [positions_eq] at hm
    rcases List.mem_cons.1 hm with rfl | hm
    · exact List.prefix_rfl
    · obtain ⟨k, hk, hm⟩ := List.mem_flatMap.1 hm
      obtain ⟨i, hi⟩ := List.mem_iff_getElem?.1 hk
      obtain ⟨x, hx, -⟩ := exists_step h.root hi
      exact (hx ▸ List.prefix_append _ _).trans (ih k hk (h.part hk) hm)

/-! ## Nulls of the data -/

/-- A value that shows a null of the tree is null. -/
theorem Renders.eq_null {n : Node} {v : Json} (h : n.Renders v) (hn : n.isNull = true) :
    v = .null := by
  obtain ⟨w, hw, hnull, hform⟩ := h [] n rfl fun b k hb hne _ =>
    absurd (List.prefix_nil.1 hb) hne
  obtain rfl := Option.some.inj hw
  by_cases hnulled : n.IsNulled
  · exact hnull.2 hnulled
  · cases n with
    | leaf p u =>
      obtain rfl : v = u := hform hnulled
      exact Json.isNull_eq_true.1 hn
    | null => exact (hform hnulled).elim
    | object | list | pending => simp [isNull] at hn

/-- On the route to a position of the tree the data is null at some point, or it shows the
tree there. -/
theorem shown_of_renders {n m : Node} {v : Json} (hn : n.IsPlaced) (h : n.Renders v)
    (hm : m ∈ n.positions) {rest : Path} (hrest : m.place.path = n.place.path ++ rest) :
    (∃ a b, b ≠ [] ∧ rest = a ++ b ∧ v.follow? a = some .null) ∨
      ∃ w, v.follow? rest = some w ∧ m.Renders w := by
  induction n using induction_on_parts generalizing v rest with
  | h n ih =>
    rw [positions_eq] at hm
    rcases List.mem_cons.1 hm with rfl | hm
    · obtain rfl : rest = [] := by simpa using hrest
      exact .inr ⟨v, rfl, h⟩
    · obtain ⟨k, hk, hm⟩ := List.mem_flatMap.1 hm
      obtain ⟨i, hi⟩ := List.mem_iff_getElem?.1 hk
      obtain ⟨x, hx, hfollow⟩ := exists_step hn.root hi
      obtain ⟨rest', hrest'⟩ := (hn.part hk).below hm
      obtain rfl : rest = x :: rest' := by
        rw [← hrest', hx, List.append_assoc, List.append_cancel_left_eq] at hrest
        exact hrest.symm
      obtain ⟨u, hu, hnull, hform⟩ := h [] n rfl fun b l hb hne _ =>
        absurd (List.prefix_nil.1 hb) hne
      obtain rfl := Option.some.inj hu
      by_cases hnulled : n.IsNulled
      · exact .inl ⟨[], x :: rest', by simp, rfl, by rw [hnull.2 hnulled]; rfl⟩
      · obtain ⟨w, hw, hkw⟩ := h.part hnulled hi
        have hstep := hfollow (hform hnulled) hw
        rcases ih k hk (hn.part hk) hkw hm hrest'.symm with ⟨a, b, hb, rfl, ha⟩ | ⟨u, hu, hmu⟩
        · exact .inl ⟨x :: a, b, hb, rfl, by rw [hstep, ha]⟩
        · exact .inr ⟨u, by rw [hstep, hu], hmu⟩

section

variable {n m : Node} {v : Json} {errors : List ResponseError}

/-- The data of a tree: it shows the tree, unless the root collapses. -/
theorem renders_of_toData (h : n.toData = .ok (v, errors)) :
    errors = n.unreported.map nullError ∧ (n.Renders v ∨ n.Collapses ∧ v = .null) := by
  obtain ⟨x, hs, -⟩ := Except.map_eq_ok h
  obtain ⟨c, hc, hcollapse, hrenders⟩ := settlesExactly n (isResolved_of_settle hs)
  rw [toData, hc] at h
  cases c with
  | collapsed =>
    obtain ⟨rfl, rfl⟩ := Prod.mk.inj (Except.ok.inj h)
    exact ⟨rfl, .inr ⟨hcollapse.1 rfl, rfl⟩⟩
  | value u =>
    obtain ⟨rfl, rfl⟩ := Prod.mk.inj (Except.ok.inj h)
    exact ⟨rfl, .inl (hrenders _ rfl)⟩

variable (hn : n.IsPlaced) (hroot : n.place.path = []) (h : n.toData = .ok (v, errors))
include hn hroot h

/-- Where the tree is null the data is null, at the position or above it. -/
theorem null_on_route (hm : m ∈ n.positions) (hnull : m.isNull = true) :
    ∃ a b, m.place.path = a ++ b ∧ v.follow? a = some .null := by
  rcases (renders_of_toData h).2 with hrenders | ⟨-, rfl⟩
  · have hpath : m.place.path = n.place.path ++ m.place.path := by rw [hroot, List.nil_append]
    rcases shown_of_renders hn hrenders hm hpath with ⟨a, b, -, hab, ha⟩ | ⟨w, hw, hmw⟩
    · exact ⟨a, b, hab, ha⟩
    · obtain rfl := hmw.eq_null hnull
      exact ⟨m.place.path, [], by simp, hw⟩
  · exact ⟨[], m.place.path, rfl, rfl⟩

/-- A position that is null in the data but not in the tree has a dead position strictly
below it. -/
theorem exists_dead_below (hpaths : (Environment.paths n.positions).Nodup)
    (hm : m ∈ n.positions) (hnull : m.isNull = false)
    (hv : v.follow? m.place.path = some .null) :
    ∃ d ∈ n.positions, d.isDead = true ∧ ∃ rest, rest ≠ [] ∧
      d.place.path = m.place.path ++ rest := by
  have hpart : ∃ k ∈ m.parts, k.Collapses := by
    rcases (renders_of_toData h).2 with hrenders | ⟨hcollapses, rfl⟩
    · have hpath : m.place.path = n.place.path ++ m.place.path := by rw [hroot, List.nil_append]
      rcases shown_of_renders hn hrenders hm hpath with ⟨a, b, hb, hab, ha⟩ | ⟨w, hw, hmw⟩
      · rw [hab, Json.follow?_append, ha, Option.bind_some, Json.follow?_null hb] at hv
        cases hv
      · obtain rfl := Option.some.inj (hw.symm.trans hv)
        obtain ⟨u, hu, hnulled, -⟩ := hmw [] m rfl fun b k hb hne _ =>
          absurd (List.prefix_nil.1 hb) hne
        obtain rfl := Option.some.inj hu
        exact ((isNulled_iff m).1 (hnulled.1 rfl)).2.resolve_left (by simp [hnull])
    · have hempty : m.place.path = [] := by
        by_contra hne
        rw [Json.follow?_null hne] at hv
        cases hv
      obtain rfl := List.inj_on_of_nodup_map hpaths hm n.mem_positions_self
        (hempty.trans hroot.symm)
      exact ((collapses_iff m).1 hcollapses).2.resolve_left (by simp [hnull])
  obtain ⟨k, hk, a, d, had, hdead, -⟩ := hpart
  have hd : d ∈ k.positions := mem_positions_of_at? had
  obtain ⟨i, hi⟩ := List.mem_iff_getElem?.1 hk
  obtain ⟨x, hx, -⟩ := exists_step (hn m hm) hi
  obtain ⟨rest, hrest⟩ := ((hn.of_mem hm).part hk).below hd
  refine ⟨d, mem_positions_trans (mem_positions_of_part hm hk) hd, hdead, x :: rest, by simp, ?_⟩
  rw [← hrest, hx, List.append_assoc]
  rfl

end

end Node

namespace Environment

variable {env : Environment}

/-! ## Grown trees are placed -/

theorem path_of_grownItems {t : TypeExpr} {p : Place} {i : Nat} {ns : List Node}
    (h : env.GrownItems t p i ns) {j : Nat} {m : Node} (hm : ns[j]? = some m) :
    m.place.path = p.path ++ [.index (i + j)] := by
  induction ns generalizing i j with
  | nil => simp at hm
  | cons n ns ih =>
    cases h with
    | cons h hs =>
      cases j with
      | zero =>
        obtain rfl := Option.some.inj hm
        exact path_of_grown h
      | succ j =>
        have hindex : i + 1 + j = i + (j + 1) := by omega
        exact hindex ▸ ih hs hm

theorem path_of_grownFields {p : Place} {object : String} {gs : FieldGroups}
    {children : List (String × Node)} (h : env.GrownFields p object gs children) :
    ∀ c ∈ children, c.2.place.path = p.path ++ [.key c.1] := by
  induction gs generalizing children with
  | nil =>
    cases h
    simp
  | cons g gs ih =>
    cases h with
    | typename _ hs => exact List.forall_mem_cons.2 ⟨rfl, ih hs⟩
    | undeclared _ _ hs => exact ih hs
    | declared _ _ h hs => exact List.forall_mem_cons.2 ⟨path_of_grown h, ih hs⟩

/-- The children of an object are some of the keys that are collected for it, in order. -/
theorem keys_sublist_of_grownFields {p : Place} {object : String} {gs : FieldGroups}
    {children : List (String × Node)} (h : env.GrownFields p object gs children) :
    (children.map Prod.fst).Sublist (FieldGroups.keys gs) := by
  induction gs generalizing children with
  | nil =>
    cases h
    exact .slnil
  | cons g gs ih =>
    cases h with
    | typename _ hs => exact (ih hs).cons_cons _
    | undeclared _ _ hs => exact (ih hs).cons _
    | declared _ _ _ hs => exact (ih hs).cons_cons _

theorem wellPlaced_of_grownFields {p : Place} {object : String} {gs : FieldGroups}
    {children : List (String × Node)} (h : env.GrownFields p object gs children)
    (hkeys : (FieldGroups.keys gs).Nodup) : (Node.object p children).WellPlaced :=
  ⟨(keys_sublist_of_grownFields h).nodup hkeys, path_of_grownFields h⟩

mutual

/-- The parts of a grown node stand one step below it, and so on downwards. -/
theorem placed_of_grown : ∀ {t : TypeExpr} {p : Place} {n : Node}, env.Grown t p n → n.IsPlaced
  | _, _, _, .nonNull h => placed_of_grown h
  | _, _, _, .null _ _ _ => List.forall_mem_singleton.2 trivial
  | _, _, _, .list hs =>
    List.forall_mem_cons.2
      ⟨fun i m hm => by simpa using path_of_grownItems hs hm, placed_of_grownItems hs⟩
  | _, _, _, .scalar _ _ => List.forall_mem_singleton.2 trivial
  | _, _, _, .enum _ _ => List.forall_mem_singleton.2 trivial
  | _, _, _, .object _ hs =>
    have hkeys := nodup_keys_subSelectionAt _ _ _
    List.forall_mem_cons.2 ⟨wellPlaced_of_grownFields hs hkeys, placed_of_grownFields hs⟩

theorem placed_of_grownItems : ∀ {t : TypeExpr} {p : Place} {i : Nat} {ns : List Node},
    env.GrownItems t p i ns → ∀ m ∈ Node.positionsOfItems ns, m.WellPlaced
  | _, _, _, _, .nil _ _ _ => by simp [Node.positionsOfItems]
  | _, _, _, _, .cons h hs =>
    List.forall_mem_append.2 ⟨placed_of_grown h, placed_of_grownItems hs⟩

theorem placed_of_grownFields : ∀ {p : Place} {object : String} {gs : FieldGroups}
    {children : List (String × Node)}, env.GrownFields p object gs children →
      ∀ m ∈ Node.positionsOfChildren children, m.WellPlaced
  | _, _, _, _, .nil _ _ => by simp [Node.positionsOfChildren]
  | _, _, _, _, .typename _ hs => List.forall_mem_cons.2 ⟨trivial, placed_of_grownFields hs⟩
  | _, _, _, _, .undeclared _ _ hs => placed_of_grownFields hs
  | _, _, _, _, .declared _ _ h hs =>
    List.forall_mem_append.2 ⟨placed_of_grown h, placed_of_grownFields hs⟩

end

/-! ## Nulls of the tree -/

theorem told_null {t : TypeExpr} {p : Place} {reported : Bool} {n : Node} {xs : List Incident}
    (h : env.Told t p .null reported n xs) : n = .null p reported ∧ xs = [] := by
  cases h with
  | null => exact ⟨rfl, rfl⟩
  | refused hv | leaf hv | list hv | object hv =>
    rw [judge_null] at hv
    cases hv

mutual

/-- Where something fails the tree is null. -/
theorem null_of_failure : ∀ {t : TypeExpr} {p : Place} {v : Json} {reported : Bool} {n : Node}
    {xs : List Incident}, env.Told t p v reported n xs → ∀ x ∈ xs, x.isFailure = true →
      ∃ m ∈ n.positions, m.isNull = true ∧ m.place.path = x.path
  | _, _, _, _, _, _, .null _, x, hx, _ => absurd hx List.not_mem_nil
  | _, _, _, _, _, _, .refused _, x, hx, _ => by
    obtain rfl := List.mem_singleton.1 hx
    exact ⟨_, Node.mem_positions_self _, rfl, rfl⟩
  | _, _, _, _, _, _, .leaf _, x, hx, _ => absurd hx List.not_mem_nil
  | _, _, _, _, _, _, .list _ hs, x, hx, hfail => by
    obtain ⟨m, hm, hnull⟩ := null_of_failure_items hs x hx hfail
    exact ⟨m, List.mem_cons_of_mem _ hm, hnull⟩
  | _, _, _, _, _, _, .object _ hs, x, hx, hfail => by
    obtain ⟨m, hm, hnull⟩ := null_of_failure_fields hs x hx hfail
    exact ⟨m, List.mem_cons_of_mem _ hm, hnull⟩

theorem null_of_failure_items : ∀ {t : TypeExpr} {p : Place} {i : Nat} {vs : List Json}
    {ns : List Node} {xs : List Incident}, env.ToldItems t p i vs ns xs →
      ∀ x ∈ xs, x.isFailure = true →
        ∃ m ∈ Node.positionsOfItems ns, m.isNull = true ∧ m.place.path = x.path
  | _, _, _, _, _, _, .nil _ _ _, x, hx, _ => absurd hx List.not_mem_nil
  | _, _, _, _, _, _, .cons h hs, x, hx, hfail => by
    rcases List.mem_append.1 hx with hx | hx
    · obtain ⟨m, hm, hnull⟩ := null_of_failure h x hx hfail
      exact ⟨m, List.mem_append_left _ hm, hnull⟩
    · obtain ⟨m, hm, hnull⟩ := null_of_failure_items hs x hx hfail
      exact ⟨m, List.mem_append_right _ hm, hnull⟩

theorem null_of_failure_fields : ∀ {sub : SubSelection} {object : String} {gs : FieldGroups}
    {children : List (String × Node)} {xs : List Incident},
    env.ToldFields sub object gs children xs → ∀ x ∈ xs, x.isFailure = true →
      ∃ m ∈ Node.positionsOfChildren children, m.isNull = true ∧ m.place.path = x.path
  | _, _, _, _, _, .nil _ _, x, hx, _ => absurd hx List.not_mem_nil
  | _, _, _, _, _, .typename _ hs, x, hx, hfail => by
    obtain ⟨m, hm, hnull⟩ := null_of_failure_fields hs x hx hfail
    exact ⟨m, List.mem_cons_of_mem _ hm, hnull⟩
  | _, _, _, _, _, .undeclared _ _ hs, x, hx, hfail => null_of_failure_fields hs x hx hfail
  | _, _, _, _, _, .declared _ _ hf h hs, x, hx, hfail => by
    rcases List.mem_cons.1 hx with rfl | hx
    · -- the fetch itself has failed: its value is null
      obtain ⟨e, he⟩ := Incident.fetched_of_isFailure hfail
      have hvalue : x.value = .null := by rw [Incident.value, he]; rfl
      rw [hvalue] at h
      obtain ⟨rfl, -⟩ := told_null h
      exact ⟨_, List.mem_append_left _ (Node.mem_positions_self _), rfl, hf.path_eq.symm⟩
    · rcases List.mem_append.1 hx with hx | hx
      · obtain ⟨m, hm, hnull⟩ := null_of_failure h x hx hfail
        exact ⟨m, List.mem_append_left _ hm, hnull⟩
      · obtain ⟨m, hm, hnull⟩ := null_of_failure_fields hs x hx hfail
        exact ⟨m, List.mem_append_right _ hm, hnull⟩

end

/-- Some incident at a path has raised an error. -/
def RaisedAt (a : Path) (xs : List Incident) : Prop := ∃ x ∈ xs, x.path = a ∧ x.errors ≠ []

theorem RaisedAt.of_subset {a : Path} {xs ys : List Incident} (h : RaisedAt a xs)
    (hsub : xs ⊆ ys) : RaisedAt a ys := by
  obtain ⟨x, hx, hraised⟩ := h
  exact ⟨x, hsub hx, hraised⟩

mutual

/-- For a null that has been reported an error has been raised at its place, if not by the
fetch of the value itself. -/
theorem reported_of_told : ∀ {t : TypeExpr} {p : Place} {v : Json} {reported : Bool} {n : Node}
    {xs : List Incident}, env.Told t p v reported n xs → ∀ m ∈ n.positions, m.isReported = true →
      (reported = true ∧ m.place = p) ∨ RaisedAt m.place.path xs
  | _, _, _, _, _, _, .null _, m, hm, hreported => by
    obtain rfl := List.mem_singleton.1 hm
    exact .inl ⟨hreported, rfl⟩
  | _, _, _, _, _, _, .refused _, m, hm, _ => by
    obtain rfl := List.mem_singleton.1 hm
    exact .inr ⟨_, List.mem_singleton_self _, rfl, List.cons_ne_nil _ _⟩
  | _, _, _, _, _, _, .leaf _, m, hm, hreported => by
    obtain rfl := List.mem_singleton.1 hm
    cases hreported
  | _, _, _, _, _, _, .list _ hs, m, hm, hreported => by
    rcases List.mem_cons.1 hm with rfl | hm
    · cases hreported
    · exact .inr (reported_of_toldItems hs m hm hreported)
  | _, _, _, _, _, _, .object _ hs, m, hm, hreported => by
    rcases List.mem_cons.1 hm with rfl | hm
    · cases hreported
    · exact .inr (reported_of_toldFields hs m hm hreported)

theorem reported_of_toldItems : ∀ {t : TypeExpr} {p : Place} {i : Nat} {vs : List Json}
    {ns : List Node} {xs : List Incident}, env.ToldItems t p i vs ns xs →
      ∀ m ∈ Node.positionsOfItems ns, m.isReported = true → RaisedAt m.place.path xs
  | _, _, _, _, _, _, .nil _ _ _, m, hm, _ => absurd hm List.not_mem_nil
  | _, _, _, _, _, _, .cons h hs, m, hm, hreported => by
    rcases List.mem_append.1 hm with hm | hm
    · rcases reported_of_told h m hm hreported with ⟨hfalse, -⟩ | hraised
      · cases hfalse
      · exact hraised.of_subset (List.subset_append_left _ _)
    · exact (reported_of_toldItems hs m hm hreported).of_subset (List.subset_append_right _ _)

theorem reported_of_toldFields : ∀ {sub : SubSelection} {object : String} {gs : FieldGroups}
    {children : List (String × Node)} {xs : List Incident},
    env.ToldFields sub object gs children xs →
      ∀ m ∈ Node.positionsOfChildren children, m.isReported = true → RaisedAt m.place.path xs
  | _, _, _, _, _, .nil _ _, m, hm, _ => absurd hm List.not_mem_nil
  | _, _, _, _, _, .typename _ hs, m, hm, hreported => by
    rcases List.mem_cons.1 hm with rfl | hm
    · cases hreported
    · exact reported_of_toldFields hs m hm hreported
  | _, _, _, _, _, .undeclared _ _ hs, m, hm, hreported =>
    reported_of_toldFields hs m hm hreported
  | _, _, _, _, _, .declared (x := x) _ _ hf h hs, m, hm, hreported => by
    rcases List.mem_append.1 hm with hm | hm
    · rcases reported_of_told h m hm hreported with ⟨hraised, hplace⟩ | hraised
      · exact ⟨x, List.mem_cons_self, hplace ▸ hf.path_eq, by simpa using hraised⟩
      · exact hraised.of_subset fun y hy =>
          List.mem_cons_of_mem _ (List.mem_append_left _ hy)
    · exact (reported_of_toldFields hs m hm hreported).of_subset fun y hy =>
        List.mem_cons_of_mem _ (List.mem_append_right _ hy)

end

end Environment

/-! ## Nulls and errors -/

/-- Nulls and errors explain each other, in the data that a tree becomes and the errors of
the response. -/
structure Node.Explained (tree : Node) (xs : List Incident) (data : Json)
    (errors : List ResponseError) : Prop where
  /-- A null where the type excludes it has an error at its path or below. -/
  dead : ∀ m ∈ tree.positions, m.isDead = true → ∃ e ∈ errors, e.Under m.place.path
  /-- A null of the data that is none of the tree has an error strictly below its path. -/
  nulled : ∀ m ∈ tree.positions, m.isNull = false → data.follow? m.place.path = some .null →
    ∃ e ∈ errors, ∃ rest, rest ≠ [] ∧ e.path? = some (m.place.path ++ rest)
  /-- Data that is null as a whole comes with an error. -/
  whole : data = .null → errors ≠ []
  /-- On the route to a failure the data is null, at the failure or above it. -/
  failed : ∀ x ∈ xs, x.isFailure = true →
    ∃ a b, x.path = a ++ b ∧ data.follow? a = some .null
  /-- The errors are those of the incidents and those of the nulls that no error has been
  raised for, each once. -/
  once : errors.Perm (xs.flatMap Incident.errors ++ tree.unreported.map Node.nullError)

namespace Environment

variable {env : Environment} {sub : SubSelection} {object : String}
  {children : List (String × Node)} {xs : List Incident}

/-- In a tree that is told each dead position has an error among those raised and those of
the nulls left over. -/
theorem exists_error_of_dead (htold : env.ToldFields sub object sub.groups children xs) {m : Node}
    (hm : m ∈ (Node.object sub.place children).positions) (hdead : m.isDead = true) :
    ∃ e ∈ xs.flatMap Incident.errors ++
      (Node.object sub.place children).unreported.map Node.nullError, e.Under m.place.path := by
  cases hreported : m.isReported with
  | true =>
    rcases List.mem_cons.1 hm with rfl | hm
    · cases hreported
    · obtain ⟨x, hx, hpath, hraised⟩ := reported_of_toldFields htold m hm hreported
      obtain ⟨e, he⟩ := List.exists_mem_of_ne_nil _ hraised
      exact ⟨e, List.mem_append_left _ (List.mem_flatMap.2 ⟨x, hx, he⟩),
        hpath ▸ Incident.under_errors he⟩
  | false =>
    have hmem : m ∈ (Node.object sub.place children).unreported :=
      List.mem_filter.2 ⟨hm, by simp [hdead, hreported]⟩
    exact ⟨_, List.mem_append_right _ (List.mem_map_of_mem hmem), Place.under_error _ _⟩

/-- The tree of an execution that is told explains the data that it becomes. -/
theorem explained_of_told (sub : SubSelection) (hpath : sub.place.path = [])
    (hkeys : (FieldGroups.keys sub.groups).Nodup)
    (hgrown : env.GrownFields sub.place object sub.groups children)
    (htold : env.ToldFields sub object sub.groups children xs) {data : Json}
    {raised nulls : List ResponseError} (hraised : raised.Perm (xs.flatMap Incident.errors))
    (hdata : (Node.object sub.place children).toData = .ok (data, nulls)) :
    (Node.object sub.place children).Explained xs data (raised ++ nulls) := by
  have hplaced : (Node.object sub.place children).IsPlaced :=
    List.forall_mem_cons.2 ⟨wellPlaced_of_grownFields hgrown hkeys, placed_of_grownFields hgrown⟩
  have hpaths := nodup_paths_of_object hgrown hkeys
  have honce : (raised ++ nulls).Perm (xs.flatMap Incident.errors ++
      (Node.object sub.place children).unreported.map Node.nullError) := by
    rw [(Node.renders_of_toData hdata).1]
    exact hraised.append_right _
  have hdead : ∀ m ∈ (Node.object sub.place children).positions, m.isDead = true →
      ∃ e ∈ raised ++ nulls, e.Under m.place.path := by
    intro m hm hm'
    obtain ⟨e, he, hunder⟩ := exists_error_of_dead htold hm hm'
    exact ⟨e, honce.mem_iff.2 he, hunder⟩
  have hnulled : ∀ m ∈ (Node.object sub.place children).positions, m.isNull = false →
      data.follow? m.place.path = some .null →
        ∃ e ∈ raised ++ nulls, ∃ rest, rest ≠ [] ∧ e.path? = some (m.place.path ++ rest) := by
    intro m hm hnull hv
    obtain ⟨d, hd, hd', rest, hne, hrest⟩ :=
      Node.exists_dead_below hplaced hpath hdata hpaths hm hnull hv
    obtain ⟨e, he, below, hbelow⟩ := hdead d hd hd'
    refine ⟨e, he, rest ++ below, by simp [hne], ?_⟩
    rw [hbelow, hrest, List.append_assoc]
  refine ⟨hdead, hnulled, fun hv => ?_, fun x hx hfail => ?_, honce⟩
  · subst hv
    have hroot : Json.follow? (Node.object sub.place children).place.path .null = some .null := by
      rw [Node.place, hpath]
      rfl
    obtain ⟨e, he, -⟩ := hnulled _ (Node.mem_positions_self _) rfl hroot
    exact List.ne_nil_of_mem he
  · obtain ⟨m, hm, hnull, hmx⟩ := null_of_failure_fields htold x hx hfail
    rw [← hmx]
    exact Node.null_on_route hplaced hpath hdata (List.mem_cons_of_mem _ hm) hnull

end Environment

/-- Nulls and errors explain each other in every request that is answered with data. The
incidents are all that befalls its execution, and every position of its tree has a path of
its own. -/
theorem Request.nulls_explained {s : Schema} {r : Request} {p : Plan} {a : Response}
    (hp : r.plan s = .ok p) (h : (r.run s).result = .ok a) :
    ∃ tree xs data, r.tree? s = some tree ∧ a.data? = some data ∧
      (p.environment s r.data).Accounts (p.subSelection s r.rootValue) xs ∧
      (Environment.paths tree.positions).Nodup ∧ tree.Explained xs data a.errors := by
  obtain ⟨children, xs, v, nulls, htree, hgrown, hfields, hxs, hdata, rfl⟩ := told_of_run hp h
  have hkeys := p.nodup_keys_subSelection s r.rootValue
  exact ⟨_, xs, v, htree, rfl, Environment.accounts_of_told rfl rfl hkeys hfields,
    Environment.nodup_paths_of_object hgrown hkeys,
    Environment.explained_of_told (p.subSelection s r.rootValue) rfl hkeys hgrown hfields
      hxs.errors hdata⟩

/-- A list of users of which one has no name, a list that is none, and a status that comes
with an error. -/
def rosterSchema : Schema :=
  let user (name : Json) : Json := .obj [("name", name)]
  let users := Json.arr [user (.str "Ada"), user .null]
  ((Schema.ofQueryType "Query").register
    (.object ⟨"User", .ofList [⟨"name", .empty, .required "String", none⟩], []⟩)).register
    (.object ⟨"Query", .ofList [
      ⟨"users", .empty, .list (.required "User"), some (.ofOutcome (.value users))⟩,
      ⟨"tags", .empty, .list (.named "String"), some (.ofOutcome (.value (.str "x")))⟩,
      ⟨"status", .empty, .named "String", some (.ofOutcome
        (.partialValue (.str "up") [.ofMessage "late"]))⟩], []⟩)

def rosterRequest : Request := .ofText "{ users { name } tags status }"

/-- The missing name costs the whole list of users; the value of the status stays. -/
theorem Request.nulls_explained_demo :
    ∃ p a, rosterRequest.plan rosterSchema = .ok p ∧
      (rosterRequest.run rosterSchema).result = .ok a ∧
      (a.data?, a.errors.map fun e => e.path?.map Path.text) =
        (some (.obj [("users", .null), ("tags", .null), ("status", .str "up")]),
          [some "/tags", some "/status", some "/users/1/name"]) ∧
      ∃ tree xs data, rosterRequest.tree? rosterSchema = some tree ∧ a.data? = some data ∧
        (p.environment rosterSchema rosterRequest.data).Accounts
          (p.subSelection rosterSchema rosterRequest.rootValue) xs ∧
        (Environment.paths tree.positions).Nodup ∧ tree.Explained xs data a.errors := by
  have hplan : (rosterRequest.plan rosterSchema).toOption.isSome = true := by decide +kernel
  have hresult : (rosterRequest.run rosterSchema).result.toOption.map (fun a =>
      (a.data?, a.errors.map fun e => e.path?.map Path.text)) =
        some (some (.obj [("users", .null), ("tags", .null), ("status", .str "up")]),
          [some "/tags", some "/status", some "/users/1/name"]) := by
    decide +kernel
  cases hp : rosterRequest.plan rosterSchema with
  | error e => simp [hp, Except.toOption] at hplan
  | ok p =>
    cases ha : (rosterRequest.run rosterSchema).result with
    | error f => simp [ha, Except.toOption] at hresult
    | ok a =>
      rw [ha] at hresult
      exact ⟨p, a, rfl, rfl, Option.some.inj hresult, Request.nulls_explained hp ha⟩

end GraphQL
