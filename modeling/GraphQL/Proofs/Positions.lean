/-
GraphQL.Proofs.Positions — the positions of a result tree and their paths.

`Node.positions` lists a node and everything below it, depth first. In a tree that an
execution has built every position stands at a path of its own:

* `Environment.below_of_grown` — the positions of a grown node are at or below its
  place;
* `Environment.nodup_paths_of_grown` — no two of them share a path, since the response
  keys of an object are different and so are the indices of a list.
-/
import GraphQL.Proofs.ResultTree

namespace GraphQL

/-! ## Trees by their parts -/

namespace Node

/-- The nodes directly below a node, in order. -/
def parts : Node → List Node
  | .object _ children => children.map Prod.snd
  | .list _ items => items
  | _ => []

mutual

/-- All positions of a tree, depth first. -/
def positions : Node → List Node
  | .leaf p v => [.leaf p v]
  | .null p reported => [.null p reported]
  | .object p children => .object p children :: positionsOfChildren children
  | .list p items => .list p items :: positionsOfItems items
  | .pending sub => [.pending sub]

/-- All positions in the children of an object. -/
def positionsOfChildren : List (String × Node) → List Node
  | [] => []
  | (_, n) :: rest => n.positions ++ positionsOfChildren rest

/-- All positions in the items of a list. -/
def positionsOfItems : List Node → List Node
  | [] => []
  | n :: rest => n.positions ++ positionsOfItems rest

end

theorem positions_eq (n : Node) : n.positions = n :: n.parts.flatMap positions := by
  have hitems : ∀ items, positionsOfItems items = items.flatMap positions := by
    intro items
    induction items with
    | nil => rfl
    | cons n rest ih => rw [positionsOfItems, ih, List.flatMap_cons]
  have hchildren : ∀ children : List (String × Node),
      positionsOfChildren children = (children.map Prod.snd).flatMap positions := by
    intro children
    induction children with
    | nil => rfl
    | cons c rest ih => rw [positionsOfChildren, ih, List.map_cons, List.flatMap_cons]
  cases n with
  | object p children => rw [positions, hchildren]; rfl
  | list p items => rw [positions, hitems]; rfl
  | _ => rfl

theorem sizeOf_lt_of_mem_parts {m n : Node} (h : m ∈ n.parts) : sizeOf m < sizeOf n := by
  cases n with
  | object p children =>
    obtain ⟨c, hc, rfl⟩ := List.mem_map.1 h
    have hlt := List.sizeOf_lt_of_mem hc
    obtain ⟨key, child⟩ := c
    simp only [Node.object.sizeOf_spec, Prod.mk.sizeOf_spec] at hlt ⊢
    omega
  | list p items =>
    have hlt := List.sizeOf_lt_of_mem (show m ∈ items from h)
    simp only [Node.list.sizeOf_spec]
    omega
  | leaf => simp [parts] at h
  | null => simp [parts] at h
  | pending => simp [parts] at h

/-- What holds of a node whenever it holds of its parts holds of every tree. -/
theorem induction_on_parts {P : Node → Prop} (h : ∀ n, (∀ m ∈ n.parts, P m) → P n)
    (n : Node) : P n :=
  h n fun m _ => induction_on_parts h m
termination_by sizeOf n
decreasing_by exact sizeOf_lt_of_mem_parts ‹_›

end Node

/-! ## Response keys -/

/-- The response keys of collected groups are different. -/
theorem FieldGroups.nodup_keys_ofFields (fs : List Field) : (keys (ofFields fs)).Nodup := by
  have hadd : ∀ (fs : List Field) (gs : FieldGroups), (keys gs).Nodup →
      (keys (fs.foldl (fun gs f => add f gs) gs)).Nodup := by
    intro fs
    induction fs with
    | nil => exact fun gs h => h
    | cons f fs ih =>
      intro gs h
      refine ih _ ?_
      rw [keys_add]
      split
      · exact h
      · next hnew =>
        refine List.nodup_append.2 ⟨h, List.nodup_singleton _, ?_⟩
        intro a ha b hb hab
        rw [List.mem_singleton] at hb
        exact hnew (hb ▸ hab ▸ ha)
  exact hadd fs [] List.nodup_nil

namespace Environment

variable {env : Environment}

theorem nodup_keys_subSelectionAt (p : Place) (object : String) (v : Json) :
    (FieldGroups.keys (env.subSelectionAt p object v).groups).Nodup := by
  unfold subSelectionAt
  cases p.group? with
  | none => exact List.nodup_nil
  | some g => exact FieldGroups.nodup_keys_ofFields _

/-! ## Paths -/

/-- A grown node stands at the path of its place. -/
theorem path_of_grown {t : TypeExpr} {p : Place} {n : Node} (h : env.Grown t p n) :
    n.place.path = p.path := by
  have hpath := congrArg Place.path (place_of_grown h)
  exact hpath

mutual

/-- The positions of a grown node are at or below its place. -/
theorem below_of_grown : ∀ {t : TypeExpr} {p : Place} {n : Node}, env.Grown t p n →
    ∀ m ∈ n.positions, p.path <+: m.place.path
  | _, _, _, .nonNull h, m, hm => below_of_grown h m hm
  | _, _, _, .null _ p _, m, hm => by
    obtain rfl := List.mem_singleton.1 hm
    exact List.prefix_rfl
  | _, _, _, .list hitems, m, hm => by
    rcases List.mem_cons.1 hm with rfl | hm
    · exact List.prefix_rfl
    · obtain ⟨j, _, hj⟩ := below_of_grownItems hitems m hm
      exact (List.prefix_append _ _).trans hj
  | _, _, _, .scalar _ _, m, hm => by
    obtain rfl := List.mem_singleton.1 hm
    exact List.prefix_rfl
  | _, _, _, .enum _ _, m, hm => by
    obtain rfl := List.mem_singleton.1 hm
    exact List.prefix_rfl
  | _, _, _, .object _ hfields, m, hm => by
    rcases List.mem_cons.1 hm with rfl | hm
    · exact List.prefix_rfl
    · obtain ⟨k, _, hk⟩ := below_of_grownFields hfields m hm
      exact (List.prefix_append _ _).trans hk

theorem below_of_grownItems : ∀ {t : TypeExpr} {p : Place} {i : Nat} {ns : List Node},
    env.GrownItems t p i ns →
      ∀ m ∈ Node.positionsOfItems ns, ∃ j, i ≤ j ∧ p.path ++ [.index j] <+: m.place.path
  | _, _, _, _, .nil _ _ _, m, hm => by simp [Node.positionsOfItems] at hm
  | _, _, i, _, .cons h hs, m, hm => by
    rcases List.mem_append.1 hm with hm | hm
    · exact ⟨i, Nat.le_refl i, below_of_grown h m hm⟩
    · obtain ⟨j, hij, hj⟩ := below_of_grownItems hs m hm
      exact ⟨j, Nat.le_of_succ_le hij, hj⟩

theorem below_of_grownFields : ∀ {p : Place} {object : String} {gs : FieldGroups}
    {children : List (String × Node)}, env.GrownFields p object gs children →
      ∀ m ∈ Node.positionsOfChildren children,
        ∃ k ∈ FieldGroups.keys gs, p.path ++ [.key k] <+: m.place.path
  | _, _, _, _, .nil _ _, m, hm => by simp [Node.positionsOfChildren] at hm
  | _, _, _, _, .typename _ hs, m, hm => by
    rcases List.mem_cons.1 hm with rfl | hm
    · exact ⟨_, List.mem_cons_self, List.prefix_rfl⟩
    · obtain ⟨k, hmem, hk⟩ := below_of_grownFields hs m hm
      exact ⟨k, List.mem_cons_of_mem _ hmem, hk⟩
  | _, _, _, _, .undeclared _ _ hs, m, hm => by
    obtain ⟨k, hmem, hk⟩ := below_of_grownFields hs m hm
    exact ⟨k, List.mem_cons_of_mem _ hmem, hk⟩
  | _, _, _, _, .declared _ _ h hs, m, hm => by
    rcases List.mem_append.1 hm with hm | hm
    · exact ⟨_, List.mem_cons_self, below_of_grown h m hm⟩
    · obtain ⟨k, hmem, hk⟩ := below_of_grownFields hs m hm
      exact ⟨k, List.mem_cons_of_mem _ hmem, hk⟩

end

/-- The paths of some positions. -/
def paths (ns : List Node) : List Path := ns.map (·.place.path)

/-- Two different parts below one path lead to different paths. -/
theorem ne_of_parts {a b c : Path} {x y : PathPart} (hxy : x ≠ y) (hb : a ++ [x] <+: b)
    (hc : a ++ [y] <+: c) : b ≠ c := by
  rintro rfl
  obtain ⟨b', rfl⟩ := hb
  obtain ⟨c', hc'⟩ := hc
  rw [List.append_assoc, List.append_assoc, List.append_cancel_left_eq] at hc'
  exact hxy (List.cons.inj hc').1.symm

theorem key_ne_of_mem {keys : List String} {k k' : String} (hk : k ∉ keys) (hk' : k' ∈ keys) :
    PathPart.key k ≠ .key k' := by
  intro h
  obtain rfl := PathPart.key.inj h
  exact hk hk'

/-- A position and what is below it, if the latter is strictly below. -/
theorem nodup_paths_cons {n : Node} {ns : List Node}
    (hbelow : ∀ m ∈ ns, ∃ x, n.place.path ++ [x] <+: m.place.path)
    (h : (paths ns).Nodup) : (paths (n :: ns)).Nodup := by
  refine List.nodup_cons.2 ⟨fun hmem => ?_, h⟩
  obtain ⟨m, hm, heq⟩ := List.mem_map.1 hmem
  obtain ⟨x, hx⟩ := hbelow m hm
  have hlength := hx.length_le
  have hsame : m.place.path.length = n.place.path.length := congrArg List.length heq
  rw [List.length_append, List.length_singleton] at hlength
  omega

theorem nodup_paths_append {ns ms : List Node} (hns : (paths ns).Nodup)
    (hms : (paths ms).Nodup)
    (hne : ∀ n ∈ ns, ∀ m ∈ ms, n.place.path ≠ m.place.path) : (paths (ns ++ ms)).Nodup := by
  rw [paths, List.map_append]
  refine List.nodup_append.2 ⟨hns, hms, fun a ha b hb => ?_⟩
  obtain ⟨n, hn, rfl⟩ := List.mem_map.1 ha
  obtain ⟨m, hm, rfl⟩ := List.mem_map.1 hb
  exact hne n hn m hm

mutual

/-- No two positions of a grown node share a path. -/
theorem nodup_paths_of_grown : ∀ {t : TypeExpr} {p : Place} {n : Node}, env.Grown t p n →
    (paths n.positions).Nodup
  | _, _, _, .nonNull h => nodup_paths_of_grown h
  | _, _, _, .null _ _ _ => List.nodup_singleton _
  | _, _, _, .list hitems => by
    refine nodup_paths_cons (fun m hm => ?_) (nodup_paths_of_grownItems hitems)
    obtain ⟨j, _, hj⟩ := below_of_grownItems hitems m hm
    exact ⟨.index j, hj⟩
  | _, _, _, .scalar _ _ => List.nodup_singleton _
  | _, _, _, .enum _ _ => List.nodup_singleton _
  | _, _, _, .object _ hfields => by
    refine nodup_paths_cons (fun m hm => ?_)
      (nodup_paths_of_grownFields hfields (nodup_keys_subSelectionAt _ _ _))
    obtain ⟨k, _, hk⟩ := below_of_grownFields hfields m hm
    exact ⟨.key k, hk⟩

theorem nodup_paths_of_grownItems : ∀ {t : TypeExpr} {p : Place} {i : Nat} {ns : List Node},
    env.GrownItems t p i ns → (paths (Node.positionsOfItems ns)).Nodup
  | _, _, _, _, .nil _ _ _ => List.nodup_nil
  | _, _, i, _, .cons h hs => by
    refine nodup_paths_append (nodup_paths_of_grown h) (nodup_paths_of_grownItems hs) ?_
    intro n hn m hm
    obtain ⟨j, hij, hj⟩ := below_of_grownItems hs m hm
    have hne : PathPart.index i ≠ .index j := by
      simp only [ne_eq, PathPart.index.injEq]
      omega
    exact ne_of_parts hne (below_of_grown h n hn) hj

theorem nodup_paths_of_grownFields : ∀ {p : Place} {object : String} {gs : FieldGroups}
    {children : List (String × Node)}, env.GrownFields p object gs children →
      (FieldGroups.keys gs).Nodup → (paths (Node.positionsOfChildren children)).Nodup
  | _, _, _, _, .nil _ _, _ => List.nodup_nil
  | _, _, _, _, .typename _ hs, hkeys => by
    obtain ⟨hnew, hkeys⟩ := List.nodup_cons.1 hkeys
    refine nodup_paths_append (List.nodup_singleton _) (nodup_paths_of_grownFields hs hkeys) ?_
    intro n hn m hm
    obtain rfl := List.mem_singleton.1 hn
    obtain ⟨k, hmem, hk⟩ := below_of_grownFields hs m hm
    exact ne_of_parts (key_ne_of_mem hnew hmem) List.prefix_rfl hk
  | _, _, _, _, .undeclared _ _ hs, hkeys =>
    nodup_paths_of_grownFields hs (List.nodup_cons.1 hkeys).2
  | _, _, _, _, .declared _ _ h hs, hkeys => by
    obtain ⟨hnew, hkeys⟩ := List.nodup_cons.1 hkeys
    refine nodup_paths_append (nodup_paths_of_grown h) (nodup_paths_of_grownFields hs hkeys) ?_
    intro n hn m hm
    obtain ⟨k, hmem, hk⟩ := below_of_grownFields hs m hm
    exact ne_of_parts (key_ne_of_mem hnew hmem) (below_of_grown h n hn) hk

end

theorem nodup_paths_of_object {p : Place} {object : String} {gs : FieldGroups}
    {children : List (String × Node)} (h : env.GrownFields p object gs children)
    (hkeys : (FieldGroups.keys gs).Nodup) : (paths (Node.object p children).positions).Nodup := by
  refine nodup_paths_cons (fun m hm => ?_) (nodup_paths_of_grownFields h hkeys)
  obtain ⟨k, _, hk⟩ := below_of_grownFields h m hm
  exact ⟨.key k, hk⟩

end Environment

end GraphQL
