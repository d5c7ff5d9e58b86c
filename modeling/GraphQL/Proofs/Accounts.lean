/-
GraphQL.Proofs.Accounts — the account of an execution.

Which values an execution comes to depends on what its resolvers answer. Given the
incidents with the answers, `Environment.Visits` says to which object values it comes
and `Environment.Stands` which values stand at which paths: an object value leads to
the values of its fields, a list to its items. Neither looks at the result tree.

`Environment.Accounts` says that the incidents are complete and without repetition:
each field of an object value that is visited is fetched, each value that its type
refuses is refused, nothing else happens, and nothing happens twice.

* `Environment.Visits.unique` — at most one object value is visited at a path.
* `Environment.accounts_of_told` — the incidents of an execution are such an account.
* `Environment.visits_iff_of_told` — the objects of its result tree are those visited.
-/
import GraphQL.Proofs.FailureIsolation
import GraphQL.Proofs.Incidents

namespace GraphQL

/-- The positions below a position of a tree are positions of the tree. -/
theorem Node.mem_positions_trans {n m k : Node} (hm : m ∈ n.positions) (hk : k ∈ m.positions) :
    k ∈ n.positions := by
  induction n using induction_on_parts with
  | h n ih =>
    rw [positions_eq] at hm
    rcases List.mem_cons.1 hm with rfl | hm
    · exact hk
    · obtain ⟨l, hl, hm⟩ := List.mem_flatMap.1 hm
      rw [positions_eq]
      exact List.mem_cons_of_mem _ (List.mem_flatMap.2 ⟨l, hl, ih l hl hm⟩)

theorem Node.mem_positions_self (n : Node) : n ∈ n.positions := by
  rw [positions_eq]
  exact List.mem_cons_self

theorem Node.mem_positions_of_part {n m k : Node} (hm : m ∈ n.positions) (hk : k ∈ m.parts) :
    k ∈ n.positions := by
  refine mem_positions_trans hm ?_
  rw [positions_eq]
  exact List.mem_cons_of_mem _ (List.mem_flatMap.2 ⟨k, hk, mem_positions_self k⟩)

/-- The incident is the refusal of what stands at a path, or lies strictly below it. -/
def Incident.Within (x : Incident) (a : Path) : Prop :=
  x.slot = (a, true) ∨ ∃ y, a ++ [y] <+: x.path

theorem Incident.path_of_slot {x : Incident} {a : Path} {b : Bool} (h : x.slot = (a, b)) :
    x.path = a := by
  rw [← slot_fst, h]

theorem Incident.Within.below {x : Incident} {a : Path} (h : x.Within a) : a <+: x.path := by
  rcases h with hslot | ⟨y, hy⟩
  · exact path_of_slot hslot ▸ List.prefix_rfl
  · exact (List.prefix_append _ _).trans hy

/-- What befalls a value is not the fetch that gave it. -/
theorem Incident.Within.slot_ne {x : Incident} {a : Path} (h : x.Within a) :
    x.slot ≠ (a, false) := by
  intro hslot
  rcases h with hrefused | ⟨y, hy⟩
  · rw [hrefused] at hslot
    simp at hslot
  · have hlength := hy.length_le
    rw [path_of_slot hslot, List.length_append, List.length_singleton] at hlength
    omega

/-! ## Values that an execution comes to -/

namespace Environment

mutual

/-- By the incidents the execution of a sub-selection comes to an object value at a path,
with the fields to be resolved on it. -/
inductive Visits (env : Environment) (root : SubSelection) (xs : List Incident) :
    Path → SubSelection → Prop
  | root : Visits env root xs [] root
  | value {path : Path} {p : Place} {v : Json} {object : String}
      (h : Stands env root xs path p v) (hv : env.judge p.type p v = .object object) :
      Visits env root xs path (env.subSelectionAt p object v)

/-- By the incidents a value stands at a path: what a field was fetched as, or an item of
a list. -/
inductive Stands (env : Environment) (root : SubSelection) (xs : List Incident) :
    Path → Place → Json → Prop
  | field {path : Path} {sub : SubSelection} {object : String} {g : FieldGroup}
      {d : FieldDefinition} {x : Incident} (h : Visits env root xs path sub)
      (hg : env.Selects sub object g d) (hx : x ∈ xs)
      (hf : env.Fetches sub.source d (sub.place.field g.key g object d.type) g x) :
      Stands env root xs (path ++ [.key g.key]) (sub.place.field g.key g object d.type) x.value
  | item {path : Path} {p : Place} {v w : Json} {t : TypeExpr} {vs : List Json} {i : Nat}
      (h : Stands env root xs path p v) (hv : env.judge p.type p v = .items t vs)
      (hw : vs[i]? = some w) : Stands env root xs (path ++ [.index i]) (p.item i t) w

end

/-- What can happen where the execution comes by. -/
inductive Occurs (env : Environment) (root : SubSelection) (xs : List Incident) :
    Incident → Prop
  | fetched {path : Path} {sub : SubSelection} {object : String} {g : FieldGroup}
      {d : FieldDefinition} {x : Incident} (h : env.Visits root xs path sub)
      (hg : env.Selects sub object g d)
      (hf : env.Fetches sub.source d (sub.place.field g.key g object d.type) g x) :
      Occurs env root xs x
  | refused {path : Path} {p : Place} {v : Json} {message : String}
      (h : env.Stands root xs path p v) (hv : env.judge p.type p v = .refused message) :
      Occurs env root xs (.refused p message)

/-- The incidents are all that befalls an execution, each listed once. -/
structure Accounts (env : Environment) (root : SubSelection) (xs : List Incident) : Prop where
  once : (xs.map Incident.slot).Nodup
  occurs : ∀ x ∈ xs, env.Occurs root xs x
  fetched : ∀ {path sub object g d}, env.Visits root xs path sub → env.Selects sub object g d →
    ∃ x ∈ xs, env.Fetches sub.source d (sub.place.field g.key g object d.type) g x
  refused : ∀ {path p v message}, env.Stands root xs path p v →
    env.judge p.type p v = .refused message → .refused p message ∈ xs

variable {env : Environment} {root : SubSelection} {all : List Incident}

theorem Fetches.slot_eq {source : Json} {d : FieldDefinition} {p : Place} {g : FieldGroup}
    {x : Incident} (h : env.Fetches source d p g x) : x.slot = (p.path, false) := by
  cases h <;> rfl

theorem Fetches.path_eq {source : Json} {d : FieldDefinition} {p : Place} {g : FieldGroup}
    {x : Incident} (h : env.Fetches source d p g x) : x.path = p.path := by
  cases h <;> rfl

/-- One listed incident of a fetch is all that befalls its field. -/
theorem Fetches.unique (hall : (all.map Incident.slot).Nodup) {source source' : Json}
    {d d' : FieldDefinition} {p p' : Place} {g g' : FieldGroup} {x y : Incident} (hx : x ∈ all)
    (hy : y ∈ all) (h : env.Fetches source d p g x) (h' : env.Fetches source' d' p' g' y)
    (hp : p.path = p'.path) : x = y := by
  refine List.inj_on_of_nodup_map hall hx hy ?_
  rw [h.slot_eq, h'.slot_eq, hp]

/-! ## Where the execution comes by -/

mutual

/-- An object value that is visited stands at the path of the visit. -/
theorem Visits.path_eq (hroot : root.place.path = []) :
    ∀ {path : Path} {sub : SubSelection}, env.Visits root all path sub → sub.place.path = path
  | _, _, .root => hroot
  | _, _, .value h _ => by
    have hp := Stands.path_eq hroot h
    exact hp

theorem Stands.path_eq (hroot : root.place.path = []) :
    ∀ {path : Path} {p : Place} {v : Json}, env.Stands root all path p v → p.path = path
  | _, _, _, .field h _ _ _ => by rw [Place.path_field, Visits.path_eq hroot h]
  | _, _, _, .item h _ _ => by rw [Place.path_item, Stands.path_eq hroot h]

end

theorem Stands.ne_nil {path : Path} {p : Place} {v : Json} (h : env.Stands root all path p v) :
    path ≠ [] := by
  cases h <;> simp

/-- A sub-selection that is visited has its object type. -/
theorem Visits.typed (hroot : ∃ object, root.place.concreteType? = some object) {path : Path}
    {sub : SubSelection} (h : env.Visits root all path sub) :
    ∃ object, sub.place.concreteType? = some object := by
  cases h with
  | root => exact hroot
  | value => exact ⟨_, rfl⟩

theorem Visits.nodup_keys (hroot : (FieldGroups.keys root.groups).Nodup) {path : Path}
    {sub : SubSelection} (h : env.Visits root all path sub) :
    (FieldGroups.keys sub.groups).Nodup := by
  cases h with
  | root => exact hroot
  | value => exact nodup_keys_subSelectionAt _ _ _

mutual

theorem Visits.eq_of_path_eq (hall : (all.map Incident.slot).Nodup)
    (hroot : (FieldGroups.keys root.groups).Nodup) :
    ∀ {path path' : Path} {sub sub' : SubSelection},
    env.Visits root all path sub → env.Visits root all path' sub' → path = path' → sub = sub'
  | _, _, _, _, .root, .root, _ => rfl
  | _, _, _, _, .root, .value h' _, hpath => absurd hpath.symm h'.ne_nil
  | _, _, _, _, .value h _, .root, hpath => absurd hpath h.ne_nil
  | _, _, _, _, .value h hv, .value h' hv', hpath => by
    obtain ⟨rfl, rfl⟩ := Stands.eq_of_path_eq hall hroot h h' hpath
    obtain rfl := Verdict.object.inj (hv.symm.trans hv')
    rfl

theorem Stands.eq_of_path_eq (hall : (all.map Incident.slot).Nodup)
    (hroot : (FieldGroups.keys root.groups).Nodup) :
    ∀ {path path' : Path} {p p' : Place} {v v' : Json},
    env.Stands root all path p v → env.Stands root all path' p' v' → path = path' →
      p = p' ∧ v = v'
  | _, _, _, _, _, _, .field h hg hx hf, .field h' hg' hx' hf', hpath => by
    obtain ⟨hpath, hlast⟩ := List.append_inj' hpath rfl
    obtain rfl := Visits.eq_of_path_eq hall hroot h h' hpath
    obtain rfl := Option.some.inj (hg.typed.symm.trans hg'.typed)
    have hkey := PathPart.key.inj (List.cons.inj hlast).1
    obtain rfl := List.inj_on_of_nodup_map (h.nodup_keys hroot) hg.group hg'.group hkey
    obtain rfl := Option.some.inj (hg.field.symm.trans hg'.field)
    obtain rfl := Fetches.unique hall hx hx' hf hf' rfl
    exact ⟨rfl, rfl⟩
  | _, _, _, _, _, _, .field _ _ _ _, .item _ _ _, hpath => by
    have hlast := (List.append_inj' hpath rfl).2
    simp at hlast
  | _, _, _, _, _, _, .item _ _ _, .field _ _ _ _, hpath => by
    have hlast := (List.append_inj' hpath rfl).2
    simp at hlast
  | _, _, _, _, _, _, .item h hv hw, .item h' hv' hw', hpath => by
    obtain ⟨hpath, hlast⟩ := List.append_inj' hpath rfl
    obtain ⟨rfl, rfl⟩ := Stands.eq_of_path_eq hall hroot h h' hpath
    obtain rfl := PathPart.index.inj (List.cons.inj hlast).1
    obtain ⟨rfl, rfl⟩ := Verdict.items.inj (hv.symm.trans hv')
    exact ⟨rfl, Option.some.inj (hw.symm.trans hw')⟩

end

/-- At most one object value is visited at a path. -/
theorem Visits.unique (hall : (all.map Incident.slot).Nodup)
    (hroot : (FieldGroups.keys root.groups).Nodup) {path : Path} {sub sub' : SubSelection}
    (h : env.Visits root all path sub) (h' : env.Visits root all path sub') : sub = sub' :=
  Visits.eq_of_path_eq hall hroot h h' rfl

/-! ## Incidents once each -/

mutual

/-- An incident of a value is its refusal, or lies strictly below its place. -/
theorem within_of_told : ∀ {t : TypeExpr} {p : Place} {v : Json} {reported : Bool} {n : Node}
    {xs : List Incident}, env.Told t p v reported n xs →
      ∀ x ∈ xs, x.Within p.path
  | _, _, _, _, _, _, .null _, x, hx => absurd hx List.not_mem_nil
  | _, _, _, _, _, _, .refused _, x, hx => by
    obtain rfl := List.mem_singleton.1 hx
    exact .inl rfl
  | _, _, _, _, _, _, .leaf _, x, hx => absurd hx List.not_mem_nil
  | _, _, _, _, _, _, .list _ hs, x, hx => by
    obtain ⟨j, _, hj⟩ := below_of_toldItems hs x hx
    exact .inr ⟨.index j, hj⟩
  | _, _, _, _, _, _, .object _ hs, x, hx => by
    obtain ⟨k, _, hk⟩ := below_of_toldFields hs x hx
    exact .inr ⟨.key k, hk⟩

theorem below_of_toldItems : ∀ {t : TypeExpr} {p : Place} {i : Nat} {vs : List Json}
    {ns : List Node} {xs : List Incident}, env.ToldItems t p i vs ns xs →
      ∀ x ∈ xs, ∃ j, i ≤ j ∧ p.path ++ [.index j] <+: x.path
  | _, _, _, _, _, _, .nil _ _ _, x, hx => absurd hx List.not_mem_nil
  | _, _, i, _, _, _, .cons h hs, x, hx => by
    rcases List.mem_append.1 hx with hx | hx
    · exact ⟨i, Nat.le_refl i, (within_of_told h x hx).below⟩
    · obtain ⟨j, hij, hj⟩ := below_of_toldItems hs x hx
      exact ⟨j, Nat.le_of_succ_le hij, hj⟩

theorem below_of_toldFields : ∀ {sub : SubSelection} {object : String} {gs : FieldGroups}
    {children : List (String × Node)} {xs : List Incident},
    env.ToldFields sub object gs children xs →
      ∀ x ∈ xs, ∃ k ∈ FieldGroups.keys gs, sub.place.path ++ [.key k] <+: x.path
  | _, _, _, _, _, .nil _ _, x, hx => absurd hx List.not_mem_nil
  | _, _, _, _, _, .typename _ hs, x, hx => by
    obtain ⟨k, hmem, hk⟩ := below_of_toldFields hs x hx
    exact ⟨k, List.mem_cons_of_mem _ hmem, hk⟩
  | _, _, _, _, _, .undeclared _ _ hs, x, hx => by
    obtain ⟨k, hmem, hk⟩ := below_of_toldFields hs x hx
    exact ⟨k, List.mem_cons_of_mem _ hmem, hk⟩
  | _, _, _, _, _, .declared _ _ hf h hs, x, hx => by
    rcases List.mem_cons.1 hx with rfl | hx
    · exact ⟨_, List.mem_cons_self, hf.path_eq ▸ List.prefix_rfl⟩
    · rcases List.mem_append.1 hx with hx | hx
      · exact ⟨_, List.mem_cons_self, (within_of_told h x hx).below⟩
      · obtain ⟨k, hmem, hk⟩ := below_of_toldFields hs x hx
        exact ⟨k, List.mem_cons_of_mem _ hmem, hk⟩

end

theorem nodup_slots_append {xs ys : List Incident} (hxs : (xs.map Incident.slot).Nodup)
    (hys : (ys.map Incident.slot).Nodup) (hne : ∀ x ∈ xs, ∀ y ∈ ys, x.path ≠ y.path) :
    ((xs ++ ys).map Incident.slot).Nodup := by
  rw [List.map_append]
  refine List.nodup_append.2 ⟨hxs, hys, fun a ha b hb hab => ?_⟩
  obtain ⟨x, hx, rfl⟩ := List.mem_map.1 ha
  obtain ⟨y, hy, rfl⟩ := List.mem_map.1 hb
  refine hne x hx y hy ?_
  rw [← Incident.slot_fst, hab, Incident.slot_fst]

mutual

/-- What befalls a value and its parts befalls each position once. -/
theorem nodup_slots_of_told : ∀ {t : TypeExpr} {p : Place} {v : Json} {reported : Bool} {n : Node}
    {xs : List Incident}, env.Told t p v reported n xs → (xs.map Incident.slot).Nodup
  | _, _, _, _, _, _, .null _ => List.nodup_nil
  | _, _, _, _, _, _, .refused _ => List.nodup_singleton _
  | _, _, _, _, _, _, .leaf _ => List.nodup_nil
  | _, _, _, _, _, _, .list _ hs => nodup_slots_of_toldItems hs
  | _, _, _, _, _, _, .object _ hs =>
    nodup_slots_of_toldFields hs (nodup_keys_subSelectionAt _ _ _)

theorem nodup_slots_of_toldItems : ∀ {t : TypeExpr} {p : Place} {i : Nat} {vs : List Json}
    {ns : List Node} {xs : List Incident}, env.ToldItems t p i vs ns xs →
      (xs.map Incident.slot).Nodup
  | _, _, _, _, _, _, .nil _ _ _ => List.nodup_nil
  | _, _, i, _, _, _, .cons h hs => by
    refine nodup_slots_append (nodup_slots_of_told h) (nodup_slots_of_toldItems hs) ?_
    intro x hx y hy
    obtain ⟨j, hij, hj⟩ := below_of_toldItems hs y hy
    have hne : PathPart.index i ≠ .index j := by
      simp only [ne_eq, PathPart.index.injEq]
      omega
    exact ne_of_parts hne (within_of_told h x hx).below hj

theorem nodup_slots_of_toldFields : ∀ {sub : SubSelection} {object : String} {gs : FieldGroups}
    {children : List (String × Node)} {xs : List Incident},
    env.ToldFields sub object gs children xs → (FieldGroups.keys gs).Nodup →
      (xs.map Incident.slot).Nodup
  | _, _, _, _, _, .nil _ _, _ => List.nodup_nil
  | _, _, _, _, _, .typename _ hs, hkeys =>
    nodup_slots_of_toldFields hs (List.nodup_cons.1 hkeys).2
  | _, _, _, _, _, .undeclared _ _ hs, hkeys =>
    nodup_slots_of_toldFields hs (List.nodup_cons.1 hkeys).2
  | _, _, _, _, _, .declared (x := x) _ _ hf h hs, hkeys => by
    obtain ⟨hnew, hkeys⟩ := List.nodup_cons.1 hkeys
    rw [← List.cons_append]
    refine nodup_slots_append (List.nodup_cons.2 ⟨fun hmem => ?_, nodup_slots_of_told h⟩)
      (nodup_slots_of_toldFields hs hkeys) ?_
    · obtain ⟨y, hy, hslot⟩ := List.mem_map.1 hmem
      exact (within_of_told h y hy).slot_ne (hslot.trans hf.slot_eq)
    · intro y hy z hz
      obtain ⟨k, hmem, hk⟩ := below_of_toldFields hs z hz
      refine ne_of_parts (key_ne_of_mem hnew hmem) ?_ hk
      rcases List.mem_cons.1 hy with rfl | hy
      · exact hf.path_eq ▸ List.prefix_rfl
      · exact (within_of_told h y hy).below

end

/-! ## What is visited is told -/

/-- A field of an object that is told: what befell it, and the node of its value. -/
theorem exists_told_of_mem {sub : SubSelection} {object : String} {gs : FieldGroups}
    {children : List (String × Node)} {xs : List Incident}
    (h : env.ToldFields sub object gs children xs) {g : FieldGroup} {d : FieldDefinition}
    (hg : g ∈ gs) (hn : g.name ≠ "__typename") (hd : env.schema.field? object g.name = some d) :
    ∃ x n ys, env.Fetches sub.source d (sub.place.field g.key g object d.type) g x ∧
      env.Told d.type (sub.place.field g.key g object d.type) x.value (!x.errors.isEmpty) n ys ∧
      x ∈ xs ∧ ys ⊆ xs ∧ (g.key, n) ∈ children := by
  induction gs generalizing children xs with
  | nil => exact absurd hg List.not_mem_nil
  | cons g' gs ih =>
    cases h with
    | typename hn' hs =>
      rcases List.mem_cons.1 hg with rfl | hg
      · exact absurd hn' hn
      · obtain ⟨x, n, ys, hx, h, hmem, hsub, hchild⟩ := ih hs hg
        exact ⟨x, n, ys, hx, h, hmem, hsub, List.mem_cons_of_mem _ hchild⟩
    | undeclared hn' hd' hs =>
      rcases List.mem_cons.1 hg with rfl | hg
      · rw [hd] at hd'
        cases hd'
      · exact ih hs hg
    | @declared _ _ _ _ d' x n _ xs' zs hn' hd' hx h hs =>
      rcases List.mem_cons.1 hg with rfl | hg
      · obtain rfl := Option.some.inj (hd.symm.trans hd')
        exact ⟨x, n, xs', hx, h, List.mem_cons_self,
          fun y hy => List.mem_cons_of_mem _ (List.mem_append_left _ hy), List.mem_cons_self⟩
      · obtain ⟨y, m, ys, hy, hm, hmem, hsub, hchild⟩ := ih hs hg
        have hlater : zs ⊆ x :: (xs' ++ zs) := fun z hz =>
          List.mem_cons_of_mem _ (List.mem_append_right _ hz)
        exact ⟨y, m, ys, hy, hm, hlater hmem, fun z hz => hlater (hsub hz),
          List.mem_cons_of_mem _ hchild⟩

/-- An item of a list that is told. -/
theorem exists_told_of_getElem? {t : TypeExpr} {p : Place} {i : Nat} {vs : List Json}
    {ns : List Node} {xs : List Incident} (h : env.ToldItems t p i vs ns xs) {j : Nat} {v : Json}
    (hv : vs[j]? = some v) :
    ∃ n ys, env.Told t (p.item (i + j) t) v false n ys ∧ ys ⊆ xs ∧ n ∈ ns := by
  induction vs generalizing i ns xs j with
  | nil => simp at hv
  | cons w vs ih =>
    cases h with
    | @cons _ _ _ _ _ n ns ys zs h hs =>
      cases j with
      | zero =>
        obtain rfl := Option.some.inj hv
        exact ⟨n, ys, h, List.subset_append_left _ _, List.mem_cons_self⟩
      | succ j =>
        obtain ⟨m, us, hm, hsub, hmem⟩ := ih hs hv
        have hindex : i + 1 + j = i + (j + 1) := by omega
        exact ⟨m, us, hindex ▸ hm, fun y hy => List.mem_append_right _ (hsub hy),
          List.mem_cons_of_mem _ hmem⟩

mutual

/-- The fields of an object value that is visited are told, and the object is in the tree. -/
theorem told_of_visits {object : String} {children : List (String × Node)}
    (hroot : root.place.concreteType? = some object)
    (htold : env.ToldFields root object root.groups children all)
    (hall : (all.map Incident.slot).Nodup) :
    ∀ {path : Path} {sub : SubSelection}, env.Visits root all path sub →
      ∃ o cs ys, sub.place.concreteType? = some o ∧ env.ToldFields sub o sub.groups cs ys ∧
        ys ⊆ all ∧ .object sub.place cs ∈ (Node.object root.place children).positions
  | _, _, .root =>
    ⟨object, children, all, hroot, htold, fun _ h => h, Node.mem_positions_self _⟩
  | _, _, .value h hv => by
    obtain ⟨reported, n, ys, hn, hsub, hmem⟩ := told_of_stands hroot htold hall h
    cases hn with
    | object hv' hs =>
      obtain rfl := Verdict.object.inj (hv.symm.trans hv')
      exact ⟨_, _, _, rfl, hs, hsub, hmem⟩
    | null hv' | refused hv' | leaf hv' | list hv' => cases hv.symm.trans hv'

/-- A value that stands somewhere is told, and its node is in the tree. -/
theorem told_of_stands {object : String} {children : List (String × Node)}
    (hroot : root.place.concreteType? = some object)
    (htold : env.ToldFields root object root.groups children all)
    (hall : (all.map Incident.slot).Nodup) :
    ∀ {path : Path} {p : Place} {v : Json}, env.Stands root all path p v →
      ∃ reported n ys, env.Told p.type p v reported n ys ∧ ys ⊆ all ∧
        n ∈ (Node.object root.place children).positions
  | _, _, _, .field h hg hx hf => by
    obtain ⟨o, cs, ys, ho, hs, hsub, hmem⟩ := told_of_visits hroot htold hall h
    obtain rfl := Option.some.inj (ho.symm.trans hg.typed)
    obtain ⟨y, n, zs, hy, hn, hyx, hzs, hchild⟩ :=
      exists_told_of_mem hs hg.group hg.name hg.field
    obtain rfl := Fetches.unique hall hx (hsub hyx) hf hy rfl
    refine ⟨_, n, zs, hn, fun z hz => hsub (hzs hz), Node.mem_positions_of_part hmem ?_⟩
    exact List.mem_map.2 ⟨_, hchild, rfl⟩
  | _, _, _, .item h hv hw => by
    obtain ⟨reported, n, ys, hn, hsub, hmem⟩ := told_of_stands hroot htold hall h
    cases hn with
    | list hv' hs =>
      obtain ⟨rfl, rfl⟩ := Verdict.items.inj (hv.symm.trans hv')
      obtain ⟨m, zs, hm, hzs, hitem⟩ := exists_told_of_getElem? hs hw
      rw [Nat.zero_add] at hm
      exact ⟨_, m, zs, hm, fun z hz => hsub (hzs hz), Node.mem_positions_of_part hmem hitem⟩
    | null hv' | refused hv' | leaf hv' | object hv' => cases hv.symm.trans hv'

end

/-! ## What is told is visited -/

/-- Some incidents happen where the execution comes by, and the objects among some
positions are those of object values that it visits. -/
structure Traces (env : Environment) (root : SubSelection) (all : List Incident)
    (ns : List Node) (xs : List Incident) : Prop where
  incidents : ∀ x ∈ xs, env.Occurs root all x
  objects : ∀ q children, .object q children ∈ ns →
    ∃ sub, env.Visits root all q.path sub ∧ sub.place = q

namespace Traces

variable {ns ms : List Node} {xs ys : List Incident}

theorem nil : env.Traces root all [] [] := ⟨by simp, by simp⟩

theorem append (hn : env.Traces root all ns xs) (hm : env.Traces root all ms ys) :
    env.Traces root all (ns ++ ms) (xs ++ ys) where
  incidents x hx := (List.mem_append.1 hx).elim (hn.incidents x) (hm.incidents x)
  objects q children hq :=
    (List.mem_append.1 hq).elim (hn.objects q children) (hm.objects q children)

/-- A position that is no object changes nothing. -/
theorem position {n : Node} (h : env.Traces root all ns xs)
    (hn : ∀ q children, n ≠ .object q children) : env.Traces root all (n :: ns) xs where
  incidents := h.incidents
  objects q children hq := by
    rcases List.mem_cons.1 hq with hq | hq
    · exact absurd hq.symm (hn q children)
    · exact h.objects q children hq

theorem object {q : Place} {children : List (String × Node)} {sub : SubSelection}
    (h : env.Traces root all ns xs) (hsub : env.Visits root all q.path sub)
    (hplace : sub.place = q) : env.Traces root all (.object q children :: ns) xs where
  incidents := h.incidents
  objects q' children' hq := by
    rcases List.mem_cons.1 hq with hq | hq
    · obtain ⟨rfl, -⟩ := Node.object.inj hq
      exact ⟨sub, hsub, hplace⟩
    · exact h.objects q' children' hq

theorem incident {x : Incident} (h : env.Traces root all ns xs) (hx : env.Occurs root all x) :
    env.Traces root all ns (x :: xs) where
  incidents := List.forall_mem_cons.2 ⟨hx, h.incidents⟩
  objects := h.objects

end Traces

mutual

/-- What is told of a value that stands somewhere. -/
theorem traces_of_told : ∀ {t : TypeExpr} {p : Place} {v : Json} {reported : Bool} {n : Node}
    {xs : List Incident}, env.Told t p v reported n xs → t = p.type →
      env.Stands root all p.path p v → xs ⊆ all → env.Traces root all n.positions xs
  | _, _, _, _, _, _, .null _, _, _, _ => Traces.nil.position (by simp)
  | _, _, _, _, _, _, .refused hv, ht, h, _ =>
    (Traces.nil.position (by simp)).incident (.refused h (ht ▸ hv))
  | _, _, _, _, _, _, .leaf _, _, _, _ => Traces.nil.position (by simp)
  | _, _, _, _, _, _, .list hv hs, ht, h, hall =>
    (traces_of_toldItems hs h (ht ▸ hv) (fun _ _ hw => by rwa [Nat.zero_add]) hall).position
      (by simp)
  | _, _, _, _, _, _, .object hv hs, ht, h, hall =>
    have hvisit := Visits.value h (ht ▸ hv)
    (traces_of_toldFields hs hvisit rfl (fun _ h => h) hall).object hvisit rfl

theorem traces_of_toldItems : ∀ {u : TypeExpr} {p : Place} {i : Nat} {ws : List Json}
    {ns : List Node} {xs : List Incident}, env.ToldItems u p i ws ns xs →
      ∀ {v : Json} {vs : List Json}, env.Stands root all p.path p v →
      env.judge p.type p v = .items u vs → (∀ j w, ws[j]? = some w → vs[i + j]? = some w) →
      xs ⊆ all → env.Traces root all (Node.positionsOfItems ns) xs
  | _, _, _, _, _, _, .nil _ _ _, _, _, _, _, _, _ => .nil
  | _, _, i, _, _, _, .cons h hs, _, _, hp, hv, hws, hall => by
    have hhead := traces_of_told h rfl (.item hp hv (hws 0 _ rfl)) fun x hx =>
      hall (List.mem_append_left _ hx)
    refine hhead.append (traces_of_toldItems hs hp hv (fun j w hw => ?_) fun x hx =>
      hall (List.mem_append_right _ hx))
    have hindex : i + 1 + j = i + (j + 1) := by omega
    exact hindex ▸ hws (j + 1) w hw

theorem traces_of_toldFields : ∀ {sub : SubSelection} {object : String} {gs : FieldGroups}
    {children : List (String × Node)} {xs : List Incident},
    env.ToldFields sub object gs children xs → env.Visits root all sub.place.path sub →
      sub.place.concreteType? = some object → gs ⊆ sub.groups → xs ⊆ all →
      env.Traces root all (Node.positionsOfChildren children) xs
  | _, _, _, _, _, .nil _ _, _, _, _, _ => .nil
  | _, _, _, _, _, .typename _ hs, h, ho, hgs, hall =>
    (traces_of_toldFields hs h ho (fun _ hg => hgs (List.mem_cons_of_mem _ hg)) hall).position
      (by simp)
  | _, _, _, _, _, .undeclared _ _ hs, h, ho, hgs, hall =>
    traces_of_toldFields hs h ho (fun _ hg => hgs (List.mem_cons_of_mem _ hg)) hall
  | _, _, _, _, _, .declared hn hd hx hv hs, h, ho, hgs, hall => by
    have hselects := Selects.mk ho (hgs List.mem_cons_self) hn hd
    have hvalue := hall (List.mem_cons_self)
    refine Traces.incident (.append ?_ ?_) (.fetched h hselects hx)
    · exact traces_of_told hv rfl (.field h hselects hvalue hx)
        fun y hy => hall (List.mem_cons_of_mem _ (List.mem_append_left _ hy))
    · exact traces_of_toldFields hs h ho (fun _ hg => hgs (List.mem_cons_of_mem _ hg))
        fun y hy => hall (List.mem_cons_of_mem _ (List.mem_append_right _ hy))

end

/-! ## Accounts -/

section

variable {object : String} {children : List (String × Node)}
  (hpath : root.place.path = []) (hroot : root.place.concreteType? = some object)
  (hkeys : (FieldGroups.keys root.groups).Nodup)
  (htold : env.ToldFields root object root.groups children all)

include hpath hroot hkeys htold

/-- The incidents by which the execution of a sub-selection is told account for it. -/
theorem accounts_of_told : env.Accounts root all := by
  have hvisit : env.Visits root all root.place.path root := hpath ▸ .root
  have hall := nodup_slots_of_toldFields htold hkeys
  have htraces := traces_of_toldFields htold hvisit hroot (fun _ h => h) fun _ h => h
  refine ⟨hall, htraces.incidents, fun h hg => ?_, fun h hv => ?_⟩
  · obtain ⟨o, cs, ys, ho, hs, hsub, -⟩ := told_of_visits hroot htold hall h
    obtain rfl := Option.some.inj (ho.symm.trans hg.typed)
    obtain ⟨x, n, zs, hx, -, hmem, -⟩ := exists_told_of_mem hs hg.group hg.name hg.field
    exact ⟨x, hsub hmem, hx⟩
  · obtain ⟨reported, n, ys, hn, hsub, -⟩ := told_of_stands hroot htold hall h
    cases hn with
    | refused hv' =>
      obtain rfl := Verdict.refused.inj (hv.symm.trans hv')
      exact hsub List.mem_cons_self
    | null hv' | leaf hv' | list hv' | object hv' => cases hv.symm.trans hv'

/-- The objects of the result tree are those of the object values that are visited. -/
theorem visits_iff_of_told (path : Path) :
    (∃ sub, env.Visits root all path sub) ↔
      ∃ q cs, .object q cs ∈ (Node.object root.place children).positions ∧ q.path = path := by
  have hvisit : env.Visits root all root.place.path root := hpath ▸ .root
  have hall := nodup_slots_of_toldFields htold hkeys
  constructor
  · rintro ⟨sub, h⟩
    obtain ⟨-, cs, -, -, -, -, hmem⟩ := told_of_visits hroot htold hall h
    exact ⟨_, cs, hmem, h.path_eq hpath⟩
  · rintro ⟨q, cs, hmem, rfl⟩
    have htraces := traces_of_toldFields htold hvisit hroot (fun _ h => h) fun _ h => h
    obtain ⟨sub, hsub, -⟩ := (htraces.object hvisit rfl).objects q cs hmem
    exact ⟨sub, hsub⟩

end

end Environment

/-- A request with a plan and a response: its result tree is a grown object, told by
incidents that recount the calls and the errors of the run. -/
theorem Request.told_of_run {s : Schema} {r : Request} {p : Plan} {a : Response}
    (hp : r.plan s = .ok p) (h : (r.run s).result = .ok a) :
    ∃ children xs v nulls, r.tree? s = some (.object (.root p.root) children) ∧
      (p.environment s r.data).GrownFields (.root p.root) p.root
        (p.subSelection s r.rootValue).groups children ∧
      (p.environment s r.data).ToldFields (p.subSelection s r.rootValue) p.root
        (p.subSelection s r.rootValue).groups children xs ∧
      Recounts xs (Event.calls (r.run s).trace) (Event.errors (r.run s).trace) ∧
      (Node.object (.root p.root) children).toData = .ok (v, nulls) ∧
      a = ⟨some v, Event.errors (r.run s).trace ++ nulls⟩ := by
  obtain ⟨es, n, v, nulls, hrun, hdata, rfl⟩ := job_of_runIn hp h
  have htrace : (r.run s).trace = es := by
    simp only [run, runIn, hp, Plan.runIn, Run.ofJob, hrun]
  obtain ⟨children, xs, rfl, hfields, hxs⟩ :=
    Environment.told_objectJob _ _ _ rfl (Job.ends_of_run hrun)
  obtain ⟨children', hroot, hgrown⟩ := p.grown_of_run hrun
  obtain rfl : children = children' := (Node.object.inj hroot).2
  rw [htrace]
  refine ⟨children, xs, v, nulls, ?_, hgrown, hfields, hxs, hdata, rfl⟩
  rw [tree?_of_plan hp, hrun]
  rfl

theorem Plan.nodup_keys_subSelection (p : Plan) (s : Schema) (source : Json) :
    (FieldGroups.keys (p.subSelection s source).groups).Nodup :=
  FieldGroups.nodup_keys_ofFields _

end GraphQL
