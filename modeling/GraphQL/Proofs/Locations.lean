/-
GraphQL.Proofs.Locations — paths and source positions.

A path is written down three times: in the place of a node, in the errors about it, and, if
one follows keys and indices from the root, in the tree itself. A source position is that of
a field selection, and a place has one by the group of selections it was made for. This module
says that all of these agree.

* `Node.route?` reads the path of an address off the tree, without looking at any place.
* `Environment.laidOut_of_ends` — in the tree of an execution the place of each node has the
  path that leads to it. The children of an object are places of the groups collected for it,
  each under the key of its group; the items of a list have the group of the list.
* `Environment.Occurs.located` — the errors of an incident are located at its field and are about
  its place. Only what a resolver returns goes on below it, by a path of its own.
* `Request.placed_and_located` — hence so do all errors of a response.
-/
import Mathlib.Data.List.Induction
import GraphQL.Proofs.Explanation

namespace GraphQL

/-! ## Routes through a tree -/

namespace Node

/-- The keys or indices of the parts of a node, in order. -/
def steps : Node → Path
  | .object _ children => children.map fun c => .key c.1
  | .list _ items => (List.range items.length).map .index
  | _ => []

/-- The keys and indices on the way to an address. -/
def route? : Address → Node → Option Path
  | [], _ => some []
  | i :: a, n => do
    let x ← n.steps[i]?
    let m ← n.parts[i]?
    let rest ← m.route? a
    some (x :: rest)

theorem length_steps (n : Node) : n.steps.length = n.parts.length := by
  cases n <;> simp [steps, parts]

theorem mem_positions_iff {n m : Node} : m ∈ n.positions ↔ ∃ a, n.at? a = some m := by
  constructor
  · intro hm
    induction n using induction_on_parts with
    | h n ih =>
      rw [positions_eq] at hm
      rcases List.mem_cons.1 hm with rfl | hm
      · exact ⟨[], rfl⟩
      · obtain ⟨k, hk, hm⟩ := List.mem_flatMap.1 hm
        obtain ⟨a, ha⟩ := ih k hk hm
        obtain ⟨i, hi⟩ := List.mem_iff_getElem?.1 hk
        exact ⟨i :: a, by rw [at?, hi]; exact ha⟩
  · rintro ⟨a, ha⟩
    exact mem_positions_of_at? ha

/-- The positions below the root of an object are those at its proper addresses. -/
theorem mem_positionsOfChildren_iff {p : Place} {children : List (String × Node)} {m : Node} :
    m ∈ positionsOfChildren children ↔
      ∃ a, a ≠ [] ∧ (Node.object p children).at? a = some m := by
  have hparts : positionsOfChildren children = (Node.object p children).parts.flatMap positions :=
    (List.cons.inj (positions_eq (.object p children))).2
  rw [hparts, List.mem_flatMap]
  constructor
  · rintro ⟨k, hk, hm⟩
    obtain ⟨a, ha⟩ := mem_positions_iff.1 hm
    obtain ⟨i, hi⟩ := List.mem_iff_getElem?.1 hk
    exact ⟨i :: a, List.cons_ne_nil _ _, by rw [at?, hi]; exact ha⟩
  · rintro ⟨a, hne, ha⟩
    cases a with
    | nil => exact absurd rfl hne
    | cons i a =>
      obtain ⟨k, hk, hm⟩ := Option.bind_eq_some_iff.1 ha
      exact ⟨k, List.mem_of_getElem? hk, mem_positions_of_at? hm⟩

theorem at?_append (a b : Address) (n : Node) : n.at? (a ++ b) = (n.at? a).bind (at? b) := by
  induction a generalizing n with
  | nil => rfl
  | cons i a ih =>
    rw [List.cons_append, at?, at?]
    cases n.parts[i]? with
    | none => rfl
    | some m => exact ih m

theorem mem_parts_of_at? {n m : Node} {i : Nat} (h : n.at? [i] = some m) : m ∈ n.parts := by
  obtain ⟨k, hk, hm⟩ := Option.bind_eq_some_iff.1 h
  obtain rfl := Option.some.inj hm
  exact List.mem_of_getElem? hk

/-- The parts of a well placed node stand one step below it, each by a step of its own. -/
theorem WellPlaced.path_of_step {n m : Node} (h : n.WellPlaced) {i : Nat} {x : PathPart}
    (hx : n.steps[i]? = some x) (hm : n.parts[i]? = some m) :
    m.place.path = n.place.path ++ [x] := by
  cases n with
  | leaf | null | pending => simp [parts] at hm
  | list p items =>
    have hi : i < items.length := (List.getElem?_eq_some_iff.1 hm).1
    rw [steps, List.getElem?_map, List.getElem?_range hi] at hx
    obtain rfl := Option.some.inj hx
    exact h i m hm
  | object p children =>
    rw [steps, List.getElem?_map] at hx
    rw [parts, List.getElem?_map] at hm
    obtain ⟨c, hc, rfl⟩ := Option.map_eq_some_iff.1 hx
    rw [hc] at hm
    obtain rfl := Option.some.inj hm
    exact h.2 c (List.mem_of_getElem? hc)

theorem WellPlaced.nodup_steps {n : Node} (h : n.WellPlaced) : n.steps.Nodup := by
  cases n with
  | leaf | null | pending => exact List.nodup_nil
  | list p items => exact (List.nodup_range).map fun i j hij => PathPart.index.inj hij
  | object p children =>
    have hkeys : (Node.object p children).steps = (children.map Prod.fst).map .key := by
      rw [steps, List.map_map]
      rfl
    rw [hkeys]
    exact h.1.map fun k k' hk => PathPart.key.inj hk

/-- Every position of a tree has a route, as long as its address. -/
theorem exists_route {n m : Node} {a : Address} (h : n.at? a = some m) :
    ∃ route, n.route? a = some route ∧ route.length = a.length := by
  induction a generalizing n with
  | nil => exact ⟨[], rfl, rfl⟩
  | cons i a ih =>
    obtain ⟨k, hk, hm⟩ := Option.bind_eq_some_iff.1 h
    obtain ⟨rest, hrest, hlength⟩ := ih hm
    have hi : i < n.steps.length := by
      rw [length_steps]
      exact (List.getElem?_eq_some_iff.1 hk).1
    refine ⟨n.steps[i] :: rest, ?_, by rw [List.length_cons, hlength, List.length_cons]⟩
    simp only [route?, List.getElem?_eq_getElem hi, hk, hrest, Option.bind_eq_bind,
      Option.bind_some]

/-- In a placed tree a position stands at the path that leads to it. -/
theorem IsPlaced.path_of_route {n m : Node} (hn : n.IsPlaced) {a : Address}
    (h : n.at? a = some m) {route : Path} (hroute : n.route? a = some route) :
    m.place.path = n.place.path ++ route := by
  induction a generalizing n route with
  | nil =>
    obtain rfl := Option.some.inj h
    obtain rfl := Option.some.inj hroute
    exact (List.append_nil _).symm
  | cons i a ih =>
    obtain ⟨k, hk, hm⟩ := Option.bind_eq_some_iff.1 h
    obtain ⟨x, hx, hroute⟩ := Option.bind_eq_some_iff.1 hroute
    rw [hk, Option.bind_eq_bind, Option.bind_some] at hroute
    obtain ⟨rest, hrest, hroute⟩ := Option.bind_eq_some_iff.1 hroute
    obtain rfl := Option.some.inj hroute
    rw [ih (hn.part (List.mem_of_getElem? hk)) hm hrest, hn.root.path_of_step hx hk,
      List.append_assoc]
    rfl

/-- In a placed tree different addresses have different routes. -/
theorem IsPlaced.address_unique {n : Node} (hn : n.IsPlaced) {a b : Address} {route : Path}
    (ha : n.route? a = some route) (hb : n.route? b = some route) : a = b := by
  induction a generalizing n b route with
  | nil =>
    obtain rfl := Option.some.inj ha
    cases b with
    | nil => rfl
    | cons j b =>
      obtain ⟨y, -, hb⟩ := Option.bind_eq_some_iff.1 hb
      obtain ⟨k, -, hb⟩ := Option.bind_eq_some_iff.1 hb
      obtain ⟨rest, -, hb⟩ := Option.bind_eq_some_iff.1 hb
      cases hb
  | cons i a ih =>
    obtain ⟨x, hx, ha⟩ := Option.bind_eq_some_iff.1 ha
    obtain ⟨k, hk, ha⟩ := Option.bind_eq_some_iff.1 ha
    obtain ⟨rest, hrest, ha⟩ := Option.bind_eq_some_iff.1 ha
    obtain rfl := Option.some.inj ha
    cases b with
    | nil => cases hb
    | cons j b =>
      obtain ⟨y, hy, hb⟩ := Option.bind_eq_some_iff.1 hb
      obtain ⟨l, hl, hb⟩ := Option.bind_eq_some_iff.1 hb
      obtain ⟨rest', hrest', hb⟩ := Option.bind_eq_some_iff.1 hb
      obtain ⟨rfl, rfl⟩ := List.cons.inj (Option.some.inj hb)
      -- the steps of a node are different, so the same step is at the same number
      have hij : i = j :=
        (List.getElem?_inj (List.getElem?_eq_some_iff.1 hx).1 hn.root.nodup_steps).1
          (hx.trans hy.symm)
      subst hij
      obtain rfl := Option.some.inj (hk.symm.trans hl)
      rw [ih (hn.part (List.mem_of_getElem? hk)) hrest hrest']

end Node

/-! ## The groups of places -/

/-- The concrete type changes neither the path nor the group of a place. -/
theorem Place.of_untyped_eq {p q : Place} (h : p.untyped = q.untyped) :
    p.path = q.path ∧ p.group? = q.group? := by
  obtain ⟨path, type, object?, group?, parent?⟩ := p
  obtain ⟨path', type', object?', group?', parent?'⟩ := q
  simp only [Place.untyped, Place.mk.injEq] at h
  exact ⟨h.1, h.2.2.2.1⟩

/-- The children stand under the keys of some groups, each at a place of its group. -/
def FieldGroups.Lead (gs : FieldGroups) (children : List (String × Node)) : Prop :=
  ∀ c ∈ children, ∃ g ∈ gs, g.key = c.1 ∧ c.2.place.group? = some g

namespace Environment

/-- What is selected on the object value of a place. -/
def groupsAt (env : Environment) (p : Place) : FieldGroups :=
  match p.group?, p.concreteType? with
  | some g, some object => env.scope.subGroups g object
  | _, _ => []

/-- The children of an object are of the groups that are selected on it, the items of a list
are of the group of the list. -/
def WellGrouped (env : Environment) : Node → Prop
  | .object p children => (env.groupsAt p).Lead children
  | .list p items => ∀ m ∈ items, m.place.group? = p.group?
  | _ => True

variable {env : Environment}

theorem groups_subSelectionAt (p : Place) (object : String) (v : Json) :
    (env.subSelectionAt p object v).groups = env.groupsAt (p.withConcreteType object) := by
  unfold subSelectionAt groupsAt Place.withConcreteType
  cases p.group? <;> rfl

theorem group?_of_grown {t : TypeExpr} {p : Place} {n : Node} (h : env.Grown t p n) :
    n.place.group? = p.group? :=
  (Place.of_untyped_eq (place_of_grown h)).2

theorem lead_of_grownFields {p : Place} {object : String} {gs : FieldGroups}
    {children : List (String × Node)} (h : env.GrownFields p object gs children) :
    gs.Lead children := by
  induction gs generalizing children with
  | nil =>
    cases h
    exact fun c hc => absurd hc List.not_mem_nil
  | cons g gs ih =>
    have hlater : ∀ {children},
        FieldGroups.Lead gs children → FieldGroups.Lead (g :: gs) children :=
      fun h c hc => by
        obtain ⟨g', hg', hc⟩ := h c hc
        exact ⟨g', List.mem_cons_of_mem _ hg', hc⟩
    cases h with
    | typename _ hs =>
      exact List.forall_mem_cons.2 ⟨⟨g, List.mem_cons_self, rfl, rfl⟩, hlater (ih hs)⟩
    | undeclared _ _ hs => exact hlater (ih hs)
    | declared _ _ h hs =>
      exact List.forall_mem_cons.2
        ⟨⟨g, List.mem_cons_self, rfl, group?_of_grown h⟩, hlater (ih hs)⟩

theorem group?_of_grownItems {t : TypeExpr} {p : Place} {i : Nat} {ns : List Node}
    (h : env.GrownItems t p i ns) : ∀ m ∈ ns, m.place.group? = p.group? := by
  induction ns generalizing i with
  | nil => exact fun m hm => absurd hm List.not_mem_nil
  | cons n ns ih =>
    cases h with
    | @cons _ _ _ _ _ h hs =>
      have hgroup : n.place.group? = (p.item i t).group? := group?_of_grown h
      exact List.forall_mem_cons.2 ⟨hgroup, ih hs⟩

mutual

/-- The positions of a grown node are of the groups that they are selected by. -/
theorem grouped_of_grown : ∀ {t : TypeExpr} {p : Place} {n : Node}, env.Grown t p n →
    ∀ m ∈ n.positions, env.WellGrouped m
  | _, _, _, .nonNull h => grouped_of_grown h
  | _, _, _, .null _ _ _ => List.forall_mem_singleton.2 trivial
  | _, _, _, .list hs =>
    List.forall_mem_cons.2 ⟨group?_of_grownItems hs, grouped_of_grownItems hs⟩
  | _, _, _, .scalar _ _ => List.forall_mem_singleton.2 trivial
  | _, _, _, .enum _ _ => List.forall_mem_singleton.2 trivial
  | _, _, _, .object _ hs => by
    have hlead := lead_of_grownFields hs
    rw [groups_subSelectionAt] at hlead
    exact List.forall_mem_cons.2 ⟨hlead, grouped_of_grownFields hs⟩

theorem grouped_of_grownItems : ∀ {t : TypeExpr} {p : Place} {i : Nat} {ns : List Node},
    env.GrownItems t p i ns → ∀ m ∈ Node.positionsOfItems ns, env.WellGrouped m
  | _, _, _, _, .nil _ _ _ => by simp [Node.positionsOfItems]
  | _, _, _, _, .cons h hs =>
    List.forall_mem_append.2 ⟨grouped_of_grown h, grouped_of_grownItems hs⟩

theorem grouped_of_grownFields : ∀ {p : Place} {object : String} {gs : FieldGroups}
    {children : List (String × Node)}, env.GrownFields p object gs children →
      ∀ m ∈ Node.positionsOfChildren children, env.WellGrouped m
  | _, _, _, _, .nil _ _ => by simp [Node.positionsOfChildren]
  | _, _, _, _, .typename _ hs => List.forall_mem_cons.2 ⟨trivial, grouped_of_grownFields hs⟩
  | _, _, _, _, .undeclared _ _ hs => grouped_of_grownFields hs
  | _, _, _, _, .declared _ _ h hs =>
    List.forall_mem_append.2 ⟨grouped_of_grown h, grouped_of_grownFields hs⟩

end

/-- A tree as an execution of a sub-selection lays it out. -/
structure LaidOut (env : Environment) (sub : SubSelection) (tree : Node) : Prop where
  /-- The place of a node has the path that leads to it, one part for each step. -/
  path : ∀ a m, tree.at? a = some m → ∃ route, tree.route? a = some route ∧
    m.place.path = sub.place.path ++ route ∧ m.place.depth = sub.place.depth + a.length
  /-- Different positions have different paths. -/
  distinct : ∀ a b m k, tree.at? a = some m → tree.at? b = some k →
    m.place.path = k.place.path → a = b
  /-- The root has the children of the sub-selection. -/
  root : ∃ children, tree = .object sub.place children ∧ sub.groups.Lead children
  /-- Below the root the fields of an object are those selected on it, and an item of a list
  has the field of its list. -/
  grouped : ∀ a m, a ≠ [] → tree.at? a = some m → env.WellGrouped m

theorem laidOut_of_grown {sub : SubSelection} {object : String} {children : List (String × Node)}
    (hkeys : (FieldGroups.keys sub.groups).Nodup)
    (h : env.GrownFields sub.place object sub.groups children) :
    env.LaidOut sub (.object sub.place children) := by
  have hplaced : (Node.object sub.place children).IsPlaced :=
    List.forall_mem_cons.2 ⟨wellPlaced_of_grownFields h hkeys, placed_of_grownFields h⟩
  have hpath : ∀ a m, (Node.object sub.place children).at? a = some m →
      ∃ route, (Node.object sub.place children).route? a = some route ∧
        m.place.path = sub.place.path ++ route ∧ route.length = a.length := by
    intro a m ha
    obtain ⟨route, hroute, hlength⟩ := Node.exists_route ha
    exact ⟨route, hroute, hplaced.path_of_route ha hroute, hlength⟩
  refine ⟨fun a m ha => ?_, fun a b m k ha hb heq => ?_, ⟨children, rfl, lead_of_grownFields h⟩,
    fun a m hne ha => ?_⟩
  · obtain ⟨route, hroute, hp, hlength⟩ := hpath a m ha
    refine ⟨route, hroute, hp, ?_⟩
    rw [Place.depth, hp, List.length_append, hlength, Place.depth]
  · obtain ⟨route, hroute, hp, -⟩ := hpath a m ha
    obtain ⟨route', hroute', hp', -⟩ := hpath b k hb
    rw [hp, hp', List.append_cancel_left_eq] at heq
    exact hplaced.address_unique hroute (heq ▸ hroute')
  · exact grouped_of_grownFields h m (Node.mem_positionsOfChildren_iff.2 ⟨a, hne, ha⟩)

/-- What an execution of a sub-selection without an object type can end in. -/
theorem groups_eq_nil_of_untyped {levels : Nat} {mode : Mode} {sub : SubSelection}
    (hp : sub.place.concreteType? = none) {es : List Event} {n : Node}
    (h : (env.objectJob levels mode sub).Ends es (.ok n)) :
    sub.groups = [] ∧ n = .object sub.place [] := by
  cases levels with
  | zero => exact absurd (objectJob_zero h).2 (by simp)
  | succ levels =>
    obtain ⟨rs, hrs, hn⟩ := joined_of_objectJob h
    obtain ⟨ns, rfl, rfl⟩ := Except.map_eq_ok hn.symm
    cases hgs : sub.groups with
    | nil => exact ⟨rfl, by simp [children]⟩
    | cons g gs =>
      rw [hgs] at hrs
      cases hrs with
      | @cons _ _ _ _ _ n ns hj hjs _ =>
        generalize hr : Except.ok n = r at hj
        cases fieldEnds_of_ends hj with
        | untyped => simp at hr
        | typename ho => simp [hp] at ho
        | undeclared ho => simp [hp] at ho
        | declared ho => simp [hp] at ho

/-- Every execution that ends without a fault lays out its tree. -/
theorem laidOut_of_ends {levels : Nat} {mode : Mode} {sub : SubSelection}
    (hkeys : (FieldGroups.keys sub.groups).Nodup) {es : List Event} {tree : Node}
    (h : (env.objectJob levels mode sub).Ends es (.ok tree)) : env.LaidOut sub tree := by
  cases hp : sub.place.concreteType? with
  | none =>
    obtain ⟨hgroups, rfl⟩ := groups_eq_nil_of_untyped hp h
    have hgrown : env.GrownFields sub.place "" sub.groups [] := by
      rw [hgroups]
      exact .nil _ _
    exact laidOut_of_grown hkeys hgrown
  | some object =>
    obtain ⟨children, rfl, hgrown⟩ := grown_objectJob env levels mode hp h
    exact laidOut_of_grown hkeys hgrown

/-- Every position below the root has a field. -/
theorem LaidOut.exists_group {sub : SubSelection} {tree : Node} (h : env.LaidOut sub tree)
    {a : Address} (ha : a ≠ []) {m : Node} (hm : tree.at? a = some m) :
    ∃ g, m.place.group? = some g := by
  -- from the node around it, and so on upwards from list to list
  induction a using List.reverseRecOn generalizing m with
  | nil => exact absurd rfl ha
  | append_singleton a i ih =>
    rw [Node.at?_append] at hm
    obtain ⟨n, hn, hm⟩ := Option.bind_eq_some_iff.1 hm
    have hpart : m ∈ n.parts := Node.mem_parts_of_at? hm
    have hlead : ∀ {gs : FieldGroups} {children : List (String × Node)}, gs.Lead children →
        m ∈ children.map Prod.snd → ∃ g, m.place.group? = some g := by
      intro gs children hlead hm
      obtain ⟨c, hc, rfl⟩ := List.mem_map.1 hm
      obtain ⟨g, -, -, hg⟩ := hlead c hc
      exact ⟨g, hg⟩
    by_cases hroot : a = []
    · subst hroot
      obtain ⟨children, rfl, hgroups⟩ := h.root
      obtain rfl := Option.some.inj hn
      exact hlead hgroups hpart
    · have hgrouped := h.grouped a n hroot hn
      cases n with
      | leaf | null | pending => simp [Node.parts] at hpart
      | object p children => exact hlead hgrouped hpart
      | list p items =>
        obtain ⟨g, hg⟩ := ih hroot hn
        exact ⟨g, (hgrouped m hpart).trans hg⟩

end Environment

/-! ## Incidents at their positions -/

/-- Whether the position is a null of which execution has reported nothing. What a conversion
makes null is a leaf. -/
def Node.isSilent : Node → Bool
  | .null _ reported => !reported
  | _ => false

/-- The incident is one of the position, which is not silent if it has raised an error. -/
def Node.Befallen (n : Node) (x : Incident) : Prop :=
  n.place.untyped = x.place.untyped ∧ (x.errors ≠ [] → n.isSilent = false)

namespace Environment

variable {env : Environment}

theorem Fetches.place_eq {source : Json} {d : FieldDefinition} {p : Place} {g : FieldGroup}
    {x : Incident} (h : env.Fetches source d p g x) : x.place = p := by
  cases h <;> rfl

theorem place_of_told {t : TypeExpr} {p : Place} {v : Json} {reported : Bool} {n : Node}
    {xs : List Incident} (h : env.Told t p v reported n xs) : n.place.untyped = p.untyped := by
  cases h <;> rfl

/-- What an error has been raised for is not silent. -/
theorem not_isSilent_of_told {t : TypeExpr} {p : Place} {v : Json} {n : Node} {xs : List Incident}
    (h : env.Told t p v true n xs) : n.isSilent = false := by
  cases h <;> rfl

mutual

/-- An incident befalls a position of the tree, which is not silent about its errors. -/
theorem position_of_told : ∀ {t : TypeExpr} {p : Place} {v : Json} {reported : Bool} {n : Node}
    {xs : List Incident}, env.Told t p v reported n xs →
      ∀ x ∈ xs, ∃ m ∈ n.positions, m.Befallen x
  | _, _, _, _, _, _, .null _, x, hx => absurd hx List.not_mem_nil
  | _, _, _, _, _, _, .refused _, x, hx => by
    obtain rfl := List.mem_singleton.1 hx
    exact ⟨_, Node.mem_positions_self _, rfl, fun _ => rfl⟩
  | _, _, _, _, _, _, .leaf _, x, hx => absurd hx List.not_mem_nil
  | _, _, _, _, _, _, .list _ hs, x, hx => by
    obtain ⟨m, hm, hbefallen⟩ := position_of_toldItems hs x hx
    exact ⟨m, List.mem_cons_of_mem _ hm, hbefallen⟩
  | _, _, _, _, _, _, .object _ hs, x, hx => by
    obtain ⟨m, hm, hbefallen⟩ := position_of_toldFields hs x hx
    exact ⟨m, List.mem_cons_of_mem _ hm, hbefallen⟩

theorem position_of_toldItems : ∀ {t : TypeExpr} {p : Place} {i : Nat} {vs : List Json}
    {ns : List Node} {xs : List Incident}, env.ToldItems t p i vs ns xs →
      ∀ x ∈ xs, ∃ m ∈ Node.positionsOfItems ns, m.Befallen x
  | _, _, _, _, _, _, .nil _ _ _, x, hx => absurd hx List.not_mem_nil
  | _, _, _, _, _, _, .cons h hs, x, hx => by
    rcases List.mem_append.1 hx with hx | hx
    · obtain ⟨m, hm, hbefallen⟩ := position_of_told h x hx
      exact ⟨m, List.mem_append_left _ hm, hbefallen⟩
    · obtain ⟨m, hm, hbefallen⟩ := position_of_toldItems hs x hx
      exact ⟨m, List.mem_append_right _ hm, hbefallen⟩

theorem position_of_toldFields : ∀ {sub : SubSelection} {object : String} {gs : FieldGroups}
    {children : List (String × Node)} {xs : List Incident},
    env.ToldFields sub object gs children xs →
      ∀ x ∈ xs, ∃ m ∈ Node.positionsOfChildren children, m.Befallen x
  | _, _, _, _, _, .nil _ _, x, hx => absurd hx List.not_mem_nil
  | _, _, _, _, _, .typename _ hs, x, hx => by
    obtain ⟨m, hm, hbefallen⟩ := position_of_toldFields hs x hx
    exact ⟨m, List.mem_cons_of_mem _ hm, hbefallen⟩
  | _, _, _, _, _, .undeclared _ _ hs, x, hx => position_of_toldFields hs x hx
  | _, _, _, _, _, .declared _ _ hf h hs, x, hx => by
    rcases List.mem_cons.1 hx with rfl | hx
    · refine ⟨_, List.mem_append_left _ (Node.mem_positions_self _), ?_, fun hraised => ?_⟩
      · rw [place_of_told h, hf.place_eq]
      · have hflag : (!x.errors.isEmpty) = true := by simpa using hraised
        exact not_isSilent_of_told (hflag ▸ h)
    · rcases List.mem_append.1 hx with hx | hx
      · obtain ⟨m, hm, hbefallen⟩ := position_of_told h x hx
        exact ⟨m, List.mem_append_left _ hm, hbefallen⟩
      · obtain ⟨m, hm, hbefallen⟩ := position_of_toldFields hs x hx
        exact ⟨m, List.mem_append_right _ hm, hbefallen⟩

end

end Environment

/-! ## Where errors are located -/

/-- The errors that a resolver answers with, instead of a value or besides one. -/
def Outcome.errors : Outcome → List ResolverError
  | .partialValue _ errors => errors
  | .failure e => [e]
  | _ => []

/-- The resolver of a field answers with an error. -/
def Incident.Returns (x : Incident) (e : ResolverError) : Prop :=
  ∃ p g call o, x = .answered p g call o ∧ e ∈ o.errors

/-- The error is located at a field and about a place, or it is an error that an incident
returns there, its path continued from the place. -/
def ResponseError.LocatedAt (e : ResponseError) (p : Place) (g : FieldGroup)
    (returns : ResolverError → Prop) : Prop :=
  e.locations = [g.first.node.position] ∧
    (e.path? = some p.path ∨
      ∃ e', returns e' ∧ e = .ofResolver e' p.path g.first.node.position)

theorem ResponseError.LocatedAt.imp {e : ResponseError} {p : Place} {g : FieldGroup}
    {returns returns' : ResolverError → Prop} (h : e.LocatedAt p g returns)
    (himp : ∀ e', returns e' → returns' e') : e.LocatedAt p g returns' :=
  ⟨h.1, h.2.imp_right fun ⟨e', he', heq⟩ => ⟨e', himp e' he', heq⟩⟩

theorem ResponseError.LocatedAt.of_path {e : ResponseError} {p q : Place} {g : FieldGroup}
    {returns : ResolverError → Prop} (h : e.LocatedAt p g returns) (hpath : p.path = q.path) :
    e.LocatedAt q g returns := by
  unfold LocatedAt at h ⊢
  rwa [hpath] at h

theorem Place.located_error {p : Place} {g : FieldGroup} (hg : p.group? = some g)
    (message : String) (returns : ResolverError → Prop) :
    (p.error message).LocatedAt p g returns := by
  refine ⟨?_, .inl rfl⟩
  rw [Place.error, hg]
  rfl

/-- The errors of an outcome are located at its field. -/
theorem Fetched.located_ofOutcome {p : Place} {g : FieldGroup} (hg : p.group? = some g)
    {o : Outcome} {e : ResponseError} (he : e ∈ (Fetched.ofOutcome p g.position o).errors) :
    e.LocatedAt p g (· ∈ o.errors) := by
  cases o with
  | value v => exact absurd he List.not_mem_nil
  | absent => exact absurd he List.not_mem_nil
  | partialValue v errors =>
    obtain ⟨e', he', rfl⟩ := List.mem_map.1 he
    exact ⟨rfl, .inr ⟨e', he', rfl⟩⟩
  | failure e' =>
    obtain rfl := List.mem_singleton.1 he
    exact ⟨rfl, .inr ⟨e', List.mem_singleton_self e', rfl⟩⟩
  | breakdown message? =>
    obtain rfl := List.mem_singleton.1 he
    exact Place.located_error hg _ _

namespace Environment

variable {env : Environment} {root : SubSelection} {xs : List Incident}

/-- The errors of an incident are located at the field of its place. -/
theorem Occurs.located {x : Incident} (h : env.Occurs root xs x) {g : FieldGroup}
    (hg : x.place.group? = some g) {e : ResponseError} (he : e ∈ x.errors) :
    e.LocatedAt x.place g x.Returns := by
  cases h with
  | fetched _ _ hf =>
    cases hf with
    | misfit =>
      obtain rfl := List.mem_singleton.1 he
      exact Place.located_error hg _ _
    | @answered arguments o =>
      obtain rfl := Option.some.inj hg
      obtain ⟨hlocations, hpath⟩ := Fetched.located_ofOutcome rfl he
      refine ⟨hlocations, hpath.imp_right ?_⟩
      rintro ⟨e', he', rfl⟩
      exact ⟨e', ⟨_, _, _, _, rfl, he'⟩, rfl⟩
  | refused =>
    obtain rfl := List.mem_singleton.1 he
    exact Place.located_error hg _ _

end Environment

/-- What an error of a response is about: a null of the tree where its type excludes null, or
an incident at a position of the tree. -/
inductive Node.Raises (tree : Node) (xs : List Incident) : Node → ResponseError → Prop
  | null {m : Node} (hm : m ∈ tree.unreported) : Raises tree xs m m.nullError
  | incident {m : Node} {x : Incident} {e : ResponseError} (hx : x ∈ xs)
      (hplace : m.place.untyped = x.place.untyped) (he : e ∈ x.errors) : Raises tree xs m e

/-- The resolver of the field of a place answers with an error. -/
def Place.Returned (p : Place) (xs : List Incident) (e : ResolverError) : Prop :=
  ∃ x ∈ xs, p.untyped = x.place.untyped ∧ x.Returns e

namespace Environment

variable {env : Environment} {sub : SubSelection} {object : String}
  {children : List (String × Node)} {xs : List Incident}

/-- No null of the tree is the root. -/
theorem ne_nil_of_unreported {p : Place} {a : Address} {m : Node}
    (hm : m ∈ (Node.object p children).unreported)
    (ha : (Node.object p children).at? a = some m) : a ≠ [] := by
  rintro rfl
  obtain rfl := Option.some.inj ha
  have hnull := (List.mem_filter.1 hm).2
  simp [Node.isDead, Node.isNull] at hnull

/-- Each incident and each null of a tree that is told is located at its position. -/
theorem located_of_told (hlaid : env.LaidOut sub (.object sub.place children))
    (haccounts : env.Accounts sub xs)
    (htold : env.ToldFields sub object sub.groups children xs) {e : ResponseError}
    (he : e ∈ xs.flatMap Incident.errors ++
      (Node.object sub.place children).unreported.map Node.nullError) :
    ∃ a m g, (Node.object sub.place children).at? a = some m ∧ m.place.group? = some g ∧
      (Node.object sub.place children).Raises xs m e ∧
      e.LocatedAt m.place g (m.place.Returned xs) := by
  rcases List.mem_append.1 he with he | he
  · obtain ⟨x, hx, hex⟩ := List.mem_flatMap.1 he
    obtain ⟨m, hm, hplace, -⟩ := position_of_toldFields htold x hx
    obtain ⟨a, hne, ha⟩ := Node.mem_positionsOfChildren_iff.1 hm
    obtain ⟨g, hg⟩ := hlaid.exists_group hne ha
    obtain ⟨hpath, hgroup⟩ := Place.of_untyped_eq hplace
    have hlocated := (haccounts.occurs x hx).located (hgroup.symm.trans hg) hex
    exact ⟨a, m, g, ha, hg, .incident hx hplace hex,
      (hlocated.of_path hpath.symm).imp fun e' he' => ⟨x, hx, hplace, he'⟩⟩
  · obtain ⟨m, hm, rfl⟩ := List.mem_map.1 he
    obtain ⟨a, ha⟩ := Node.mem_positions_iff.1 (List.mem_filter.1 hm).1
    obtain ⟨g, hg⟩ := hlaid.exists_group (ne_nil_of_unreported hm ha) ha
    exact ⟨a, m, g, ha, hg, .null hm, Place.located_error hg _ _⟩

end Environment

/-- Paths and source positions are right. In the tree of any execution the place of each node
has the path that leads to it, and no two have the same. In a response with data each error
is about a position of the tree: its one location is that of the first selection of the field
there, and its path is that of the position, continued only where a resolver has returned the
error, by the path of that error. -/
theorem Request.placed_and_located :
    (∀ (env : Environment) (levels : Nat) (mode : Mode) (sub : SubSelection) (n : Nat)
        (es : List Event) (tree : Node), (FieldGroups.keys sub.groups).Nodup →
      (env.objectJob levels mode sub).run n = (es, .ok tree) → env.LaidOut sub tree) ∧
    ∀ (s : Schema) (r : Request) (v : Json) (errors : List ResponseError),
      (r.run s).result = .ok ⟨some v, errors⟩ →
      ∃ p tree xs, r.plan s = .ok p ∧ r.tree? s = some tree ∧
        (p.environment s r.data).LaidOut (p.subSelection s r.rootValue) tree ∧
        (p.environment s r.data).Accounts (p.subSelection s r.rootValue) xs ∧
        Recounts xs (Event.calls (r.run s).trace) (Event.errors (r.run s).trace) ∧
        ∀ e ∈ errors, ∃ a m g, tree.at? a = some m ∧ m.place.group? = some g ∧
          tree.Raises xs m e ∧ e.LocatedAt m.place g (m.place.Returned xs) := by
  refine ⟨fun env levels mode sub n es tree hkeys hrun =>
    Environment.laidOut_of_ends hkeys (Job.ends_of_run hrun), fun s r v errors h => ?_⟩
  obtain ⟨p, hp, -⟩ := runIn_eq_ok h
  obtain ⟨children, xs, v', nulls, htree, hgrown, htold, hxs, hdata, ha⟩ := told_of_run hp h
  obtain ⟨-, rfl⟩ := Response.mk.inj ha
  have hkeys := p.nodup_keys_subSelection s r.rootValue
  have hlaid : (p.environment s r.data).LaidOut (p.subSelection s r.rootValue) _ :=
    Environment.laidOut_of_grown hkeys hgrown
  have haccounts := Environment.accounts_of_told rfl rfl hkeys htold
  refine ⟨p, _, xs, hp, htree, hlaid, haccounts, hxs, fun e he => ?_⟩
  refine Environment.located_of_told hlaid haccounts htold ?_
  rw [(Node.renders_of_toData hdata).1] at he
  exact (hxs.errors.append_right _).mem_iff.1 he

/-- A list that is none, an error of a resolver and a missing name, each at its place. -/
theorem Request.placed_and_located_roster :
    ∃ v errors p tree xs, (rosterRequest.run rosterSchema).result = .ok ⟨some v, errors⟩ ∧
      errors.map (fun e => (e.path?.map Path.text, e.locations)) =
        [(some "/tags", [⟨1, 18⟩]), (some "/status", [⟨1, 23⟩]),
          (some "/users/1/name", [⟨1, 11⟩])] ∧
      rosterRequest.plan rosterSchema = .ok p ∧ rosterRequest.tree? rosterSchema = some tree ∧
      (p.environment rosterSchema rosterRequest.data).LaidOut
        (p.subSelection rosterSchema rosterRequest.rootValue) tree ∧
      ∀ e ∈ errors, ∃ a m g, tree.at? a = some m ∧ m.place.group? = some g ∧
        tree.Raises xs m e ∧ e.LocatedAt m.place g (m.place.Returned xs) := by
  have hresult : (rosterRequest.run rosterSchema).result.toOption.map (fun a =>
      (a.data?.isSome, a.errors.map fun e => (e.path?.map Path.text, e.locations))) =
        some (true, [(some "/tags", [⟨1, 18⟩]), (some "/status", [⟨1, 23⟩]),
          (some "/users/1/name", [⟨1, 11⟩])]) := by
    decide +kernel
  cases ha : (rosterRequest.run rosterSchema).result with
  | error f => simp [ha, Except.toOption] at hresult
  | ok a =>
    rw [ha] at hresult
    obtain ⟨hdata, herrors⟩ := Prod.mk.inj (Option.some.inj hresult)
    obtain ⟨data?, errors⟩ := a
    cases data? with
    | none => cases hdata
    | some v =>
      obtain ⟨p, tree, xs, hp, htree, hlaid, -, -, hlocated⟩ :=
        Request.placed_and_located.2 rosterSchema rosterRequest v errors ha
      exact ⟨v, errors, p, tree, xs, rfl, herrors, hp, htree, hlaid, hlocated⟩

end GraphQL
