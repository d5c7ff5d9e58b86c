/-
GraphQL.Proofs.TreeLookup — lookups in a normalized tree miss nothing and keep its order.

A lookup has a stack of trees that are still to be visited. In each round it takes the tree on
top, keeps its node if that matches, and puts the children in its place, the first of them on
top. `Lookup` is such a lookup in progress, round by round, with the top of the stack at the
end of a list; `NormalNode.search` is the same with the top at the front and a bound on the
rounds.

What carries the proof is `Lookup.answer`: the nodes that were found, and those that match in
the trees on the stack, the top one first. A round leaves it as it is and takes one node off
the stack (`Lookup.of_round`), so there are as many rounds as nodes, whatever the trees.

* `Lookup.ends` — every lookup ends, with its answer.
* `NormalTree.search_eq` — hence what searching a tree finds.
* `NormalNode.locatedFrom` — the nodes of a tree with their positions: the order of the
  traversal is that of the positions, so a node stands before those below it and what is below
  the first of two siblings before what is below the second (`NormalTree.Lists`).
* `NormalTree.fields_subset` — nodes list fields of the document, so there a number is a field.
-/
import GraphQL.Proofs.RepeatedSpreads

namespace GraphQL

namespace NormalNode

variable {p : NormalField → Bool}

/-! ## Sizes and orders of trees -/

@[simp] theorem size_eq (t : NormalNode) : t.size = sizes t.children + 1 := by
  cases t
  rw [size, children]

@[simp] theorem preorder_eq (t : NormalNode) : t.preorder = t :: preorders t.children := by
  cases t
  rw [preorder, children]

@[simp] theorem sizes_append (ts us : List NormalNode) :
    sizes (ts ++ us) = sizes ts + sizes us := by
  induction ts with
  | nil => simp [sizes]
  | cons t ts ih => simp [sizes, ih, Nat.add_assoc]

@[simp] theorem sizes_reverse (ts : List NormalNode) : sizes ts.reverse = sizes ts := by
  induction ts with
  | nil => rfl
  | cons t ts ih => simp [sizes, ih, Nat.add_comm]

@[simp] theorem preorders_append (ts us : List NormalNode) :
    preorders (ts ++ us) = preorders ts ++ preorders us := by
  induction ts with
  | nil => simp [preorders]
  | cons t ts ih => simp [preorders, ih]

/-! ## Lookups round by round -/

/-- A lookup in progress: the stack of the trees that are still to be visited, its top at the
end, and the nodes that were found. -/
structure Lookup where
  pending : List NormalNode
  found : List NormalNode

namespace Lookup

/-- A lookup in some trees. -/
def start (ts : List NormalNode) : Lookup := ⟨ts.reverse, []⟩

/-- One round: the lookup is over, or takes a tree off the stack and goes on with its children. -/
def round (p : NormalField → Bool) (x : Lookup) : List NormalNode ⊕ Lookup :=
  match x.pending.getLast? with
  | none => .inl x.found
  | some t => .inr
      { pending := x.pending.dropLast ++ t.children.reverse
        found := if p t.field then x.found ++ [t] else x.found }

/-- A lookup is over after some rounds, with the nodes that it has found. -/
inductive Ends (p : NormalField → Bool) : Lookup → Nat → List NormalNode → Prop
  | last {x : Lookup} {us : List NormalNode} (h : x.round p = .inl us) : Ends p x 0 us
  | more {x y : Lookup} {n : Nat} {us : List NormalNode} (h : x.round p = .inr y)
      (hy : Ends p y n us) : Ends p x (n + 1) us

/-- What a lookup comes to: what it has found, and what there is in the trees on the stack. -/
def answer (p : NormalField → Bool) (x : Lookup) : List NormalNode :=
  x.found ++ (preorders x.pending.reverse).filter fun u => p u.field

variable {x y : Lookup} {us : List NormalNode} {n : Nat}

theorem round_concat (rest : List NormalNode) (t : NormalNode) (found : List NormalNode) :
    round p ⟨rest ++ [t], found⟩ = .inr
      ⟨rest ++ t.children.reverse, if p t.field then found ++ [t] else found⟩ := by
  simp [round]

/-- A round takes one node off the stack and does not change what the lookup comes to. -/
theorem of_round (h : x.round p = .inr y) :
    sizes x.pending = sizes y.pending + 1 ∧ y.answer p = x.answer p := by
  obtain ⟨pending, found⟩ := x
  rcases List.eq_nil_or_concat pending with rfl | ⟨rest, t, rfl⟩
  · cases h
  · rw [List.concat_eq_append, round_concat] at h
    obtain rfl := Sum.inr.inj h
    constructor
    · simp [sizes]
      omega
    · simp only [answer, List.concat_eq_append, List.reverse_append, List.reverse_reverse,
        List.reverse_singleton, preorders, preorder_eq, preorders_append, List.cons_append,
        List.filter_cons, List.filter_append]
      split <;> simp

/-- A lookup that is over has found what it comes to. -/
theorem of_round_eq_inl (h : x.round p = .inl us) : x.pending = [] ∧ us = x.found := by
  obtain ⟨pending, found⟩ := x
  rcases List.eq_nil_or_concat pending with rfl | ⟨rest, t, rfl⟩
  · exact ⟨rfl, (Sum.inl.inj h).symm⟩
  · rw [List.concat_eq_append, round_concat] at h
    cases h

/-- Every lookup ends after as many rounds as there are nodes on the stack. -/
theorem ends (p : NormalField → Bool) (x : Lookup) :
    Ends p x (sizes x.pending) (x.answer p) := by
  cases h : x.round p with
  | inl us =>
    obtain ⟨hpending, rfl⟩ := of_round_eq_inl h
    simpa [answer, hpending, sizes, preorders] using Ends.last h
  | inr y =>
    obtain ⟨hsizes, hanswer⟩ := of_round h
    rw [hsizes, ← hanswer]
    exact .more h (ends p y)
termination_by sizes x.pending
decreasing_by omega

/-- A search whose bound is no less than the rounds finds what the lookup does. -/
theorem Ends.search_eq (h : Ends p x n us) {m : Nat} (hm : n ≤ m) :
    x.found ++ search p m x.pending.reverse = us := by
  induction h generalizing m with
  | last h =>
    obtain ⟨hpending, rfl⟩ := of_round_eq_inl h
    cases m <;> simp [hpending, search]
  | @more x y n us h _ ih =>
    obtain ⟨pending, found⟩ := x
    obtain ⟨m, rfl⟩ : ∃ k, m = k + 1 := ⟨m - 1, by omega⟩
    rcases List.eq_nil_or_concat pending with rfl | ⟨rest, t, rfl⟩
    · cases h
    · rw [List.concat_eq_append, round_concat] at h
      obtain rfl := Sum.inr.inj h
      have hrest := ih (Nat.le_of_succ_le_succ hm)
      rw [List.reverse_append, List.reverse_reverse] at hrest
      rw [List.concat_eq_append, List.reverse_append, List.reverse_singleton,
        List.singleton_append, search, ← hrest]
      dsimp only
      split <;> simp

end Lookup

/-- A search finds the nodes that match, in the order of the traversal, with any bound that is
no less than the number of nodes. -/
theorem search_eq (p : NormalField → Bool) (ts : List NormalNode) {m : Nat} (hm : sizes ts ≤ m) :
    search p m ts = (preorders ts).filter fun u => p u.field := by
  have h := (Lookup.ends p (.start ts)).search_eq (m := m) (by simpa [Lookup.start] using hm)
  simpa [Lookup.start, Lookup.answer] using h

/-! ## Positions -/

/-- The node that some steps down from a node lead to: each one says which child. -/
def descend? (t : NormalNode) : List Nat → Option NormalNode
  | [] => some t
  | i :: path => t.children[i]?.bind fun c => c.descend? path

/-- The node at a position of some trees: which of them, and then which child at each step. -/
def at? (ts : List NormalNode) : List Nat → Option NormalNode
  | [] => none
  | i :: path => ts[i]?.bind fun t => t.descend? path

mutual

/-- The nodes of a tree, each before its children, with their positions below the first. -/
def located : NormalNode → List (List Nat × NormalNode)
  | .node f cs => ([], .node f cs) :: locatedFrom 0 cs

/-- The nodes of some trees, one tree after the other, with their positions, the trees being
counted from `k`. -/
def locatedFrom (k : Nat) : List NormalNode → List (List Nat × NormalNode)
  | [] => []
  | t :: ts => (located t).map (fun x => (k :: x.1, x.2)) ++ locatedFrom (k + 1) ts

end

mutual

theorem map_snd_located : ∀ t : NormalNode, (located t).map Prod.snd = preorder t
  | .node f cs => by rw [located, preorder, List.map_cons, map_snd_locatedFrom]

/-- The nodes with their positions are those of the traversal. -/
theorem map_snd_locatedFrom : ∀ (ts : List NormalNode) (k : Nat),
    (locatedFrom k ts).map Prod.snd = preorders ts
  | [], _ => rfl
  | t :: ts, k => by
    rw [locatedFrom, preorders, List.map_append, map_snd_locatedFrom ts, ← map_snd_located t,
      List.map_map]
    rfl

end

/-- A position among some trees is one in one of them. -/
theorem mem_locatedFrom {ts : List NormalNode} {k : Nat} {path : List Nat} {u : NormalNode} :
    (path, u) ∈ locatedFrom k ts ↔
      ∃ i rest t, path = (k + i) :: rest ∧ ts[i]? = some t ∧ (rest, u) ∈ located t := by
  induction ts generalizing k with
  | nil => simp [locatedFrom]
  | cons t ts ih =>
    rw [locatedFrom, List.mem_append, List.mem_map, ih]
    constructor
    · rintro (⟨⟨rest, v⟩, hmem, heq⟩ | ⟨i, rest, c, rfl, hc, hmem⟩)
      · obtain ⟨rfl, rfl⟩ := Prod.mk.inj heq
        exact ⟨0, rest, t, rfl, rfl, hmem⟩
      · exact ⟨i + 1, rest, c, by rw [Nat.add_right_comm, Nat.add_assoc], hc, hmem⟩
    · rintro ⟨i, rest, c, rfl, hc, hmem⟩
      cases i with
      | zero =>
        obtain rfl : t = c := by simpa using hc
        exact .inl ⟨(rest, u), hmem, rfl⟩
      | succ i => exact .inr ⟨i, rest, c, by rw [Nat.add_right_comm, Nat.add_assoc], hc, hmem⟩

/-- The nodes of a tree are what the steps down from it lead to. -/
theorem mem_located {t : NormalNode} {path : List Nat} {u : NormalNode} :
    (path, u) ∈ located t ↔ t.descend? path = some u := by
  induction path generalizing t with
  | nil =>
    obtain ⟨f, cs⟩ := t
    simp [located, descend?, mem_locatedFrom, eq_comm]
  | cons i path ih =>
    obtain ⟨f, cs⟩ := t
    simp [located, descend?, children, mem_locatedFrom, ih, Option.bind_eq_some_iff]

theorem mem_locatedFrom_zero {ts : List NormalNode} {path : List Nat} {u : NormalNode} :
    (path, u) ∈ locatedFrom 0 ts ↔ at? ts path = some u := by
  cases path <;> simp [mem_locatedFrom, mem_located, at?, Option.bind_eq_some_iff]

mutual

theorem sorted_located : ∀ t : NormalNode, ((located t).map Prod.fst).Pairwise (· < ·)
  | .node f cs => by
    rw [located, List.map_cons, List.pairwise_cons]
    refine ⟨fun path hpath => ?_, sorted_locatedFrom cs 0⟩
    obtain ⟨⟨path, u⟩, hmem, rfl⟩ := List.mem_map.1 hpath
    obtain ⟨i, rest, t, rfl, -, -⟩ := mem_locatedFrom.1 hmem
    exact List.nil_lt_cons _ _

/-- The traversal is in the order of the positions. -/
theorem sorted_locatedFrom : ∀ (ts : List NormalNode) (k : Nat),
    ((locatedFrom k ts).map Prod.fst).Pairwise (· < ·)
  | [], _ => .nil
  | t :: ts, k => by
    rw [locatedFrom, List.map_append, List.pairwise_append, List.map_map]
    refine ⟨?_, sorted_locatedFrom ts (k + 1), fun path hpath path' hpath' => ?_⟩
    · have ht := sorted_located t
      rw [List.pairwise_map] at ht ⊢
      exact ht.imp fun hlt => List.cons_lt_cons_iff.2 (.inr ⟨rfl, hlt⟩)
    · -- the trees after this one are counted from one more
      obtain ⟨x, -, rfl⟩ := List.mem_map.1 hpath
      obtain ⟨⟨path', u⟩, hmem, rfl⟩ := List.mem_map.1 hpath'
      obtain ⟨i, rest, c, rfl, -, -⟩ := mem_locatedFrom.1 hmem
      exact List.cons_lt_cons_iff.2 (.inl (by omega))

end

end NormalNode

/-! ## Fields of the document -/

namespace NormalTree

open GraphQL.Normal

variable {s : Schema} {d : Document} {operation? : Option String} {vars : VariableValues}
  {t : NormalTree}

/-- The selection sets of a level are of the document, and so are the fields that its nodes list:
by induction on how far down the level is. -/
theorem Level.fields_subset {o : Operation} {root : String} {n : Nat}
    {sets : List SelectionSet} {objects : List String} {ts : List NormalNode}
    (ho : d.operation operation? = .ok o)
    (htop : trees (.ofDocument s d vars) n [o.selections] [root] 1 = .ok t.top)
    (h : Level s o root t sets objects ts) :
    (∀ set ∈ sets, set.fields ⊆ d.fields) ∧ ∀ u ∈ ts, u.field.fields ⊆ d.fields := by
  have hlisted : ∀ {sets objects ts}, Level s o root t sets objects ts →
      (∀ set ∈ sets, set.fields ⊆ d.fields) → ∀ u ∈ ts, u.field.fields ⊆ d.fields := by
    intro sets objects ts hlevel hsets u hu
    obtain ⟨m, level, htrees⟩ := hlevel.exists_trees htop
    have hperm := perm_of_levelNodes (fields_of_trees htrees)
    have hkept : listed (ts.map NormalNode.field) ⊆ d.fields :=
      List.Subset.trans hperm.subset (Document.kept_subset hsets)
    exact List.Subset.trans (fields_sublist_listed (List.mem_map_of_mem hu)).subset hkept
  induction h with
  | top =>
    have hsets : ∀ set ∈ [o.selections], set.fields ⊆ d.fields :=
      List.forall_mem_singleton.2 fun f hf =>
        List.mem_flatMap.2 ⟨.operation o, Document.mem_of_operation ho, hf⟩
    exact ⟨hsets, hlisted .top hsets⟩
  | @inside sets objects objects' ts u hlevel hu hobjects ih =>
    have hsets : ∀ set ∈ u.field.fields.map Field.selections, set.fields ⊆ d.fields :=
      List.forall_mem_map.2 fun f hf => Document.fields_selections_subset (ih.2 u hu hf)
    exact ⟨hsets, hlisted (.inside hlevel hu hobjects) hsets⟩

/-- Nodes list fields of the document that the tree is made of. -/
theorem fields_subset (h : ofDocument s d operation? vars = .ok t) {u : NormalNode}
    (hu : u ∈ NormalNode.preorders t.top) : u.field.fields ⊆ d.fields := by
  obtain ⟨o, root, ho, hroot, htop⟩ := trees_of_ofDocument h
  obtain ⟨sets, objects, ts, hlevel, hmem⟩ := exists_level htop hu
  exact (hlevel.fields_subset ho htop).2 u hmem

/-- In the tree of a document that has been read, a node lists a field of the document if it
lists one of that number. -/
theorem mem_fields_iff {text : String} (hd : Document.parse text = .ok d)
    (h : ofDocument s d operation? vars = .ok t) {u : NormalNode}
    (hu : u ∈ NormalNode.preorders t.top) {f : Field} (hf : f ∈ d.fields) :
    (∃ g ∈ u.field.fields, g.node.number = f.node.number) ↔ f ∈ u.field.fields := by
  refine ⟨fun ⟨g, hg, hnumber⟩ => ?_, fun hmem => ⟨f, hmem, rfl⟩⟩
  exact Document.identified_of_parse hd g (fields_subset h hu hg) f hf hnumber ▸ hg

/-! ## Lookups in a tree -/

/-- Some nodes are those of the tree that satisfy a condition, each once, in the order of their
positions: a position comes before those below it, and if it goes on to an earlier one of two
siblings, before all that go on to the later one. -/
def Lists (t : NormalTree) (P : NormalField → Prop) (us : List NormalNode) : Prop :=
  ∃ located : List (List Nat × NormalNode), (located.map Prod.fst).Pairwise (· < ·) ∧
    (∀ path u, (path, u) ∈ located ↔ NormalNode.at? t.top path = some u ∧ P u.field) ∧
    located.map Prod.snd = us

/-- Conditions that no node of the tree tells apart have the same nodes. -/
theorem Lists.congr {P Q : NormalField → Prop} {us : List NormalNode} (h : t.Lists P us)
    (hiff : ∀ u ∈ NormalNode.preorders t.top, P u.field ↔ Q u.field) : t.Lists Q us := by
  obtain ⟨located, hsorted, hmem, hus⟩ := h
  refine ⟨located, hsorted, fun path u => ?_, hus⟩
  rw [hmem]
  refine and_congr_right fun hat => hiff u ?_
  rw [← NormalNode.map_snd_locatedFrom t.top 0]
  exact List.mem_map_of_mem (NormalNode.mem_locatedFrom_zero.2 hat)

/-- The outcome of looking up the nodes of a tree that satisfy a condition: after as many rounds
as the tree has nodes the stack is empty, a bound that allows for them makes no difference, and
what was found are those nodes, in the order of the traversal, which is that of their positions. -/
structure LooksUp (t : NormalTree) (P : NormalField → Prop) [DecidablePred P]
    (us : List NormalNode) : Prop where
  ends : NormalNode.Lookup.Ends (fun n => decide (P n)) (.start t.top) (NormalNode.sizes t.top) us
  bound : ∀ m, NormalNode.sizes t.top ≤ m →
    NormalNode.search (fun n => decide (P n)) m t.top = us
  preorder : us = (NormalNode.preorders t.top).filter fun u => decide (P u.field)
  lists : t.Lists P us

theorem lists_filter (t : NormalTree) (P : NormalField → Prop) [DecidablePred P] :
    t.Lists P ((NormalNode.preorders t.top).filter fun u => decide (P u.field)) := by
  refine ⟨(NormalNode.locatedFrom 0 t.top).filter fun x => decide (P x.2.field), ?_,
    fun path u => ?_, ?_⟩
  · exact (NormalNode.sorted_locatedFrom t.top 0).sublist (List.filter_sublist.map _)
  · rw [List.mem_filter, NormalNode.mem_locatedFrom_zero, decide_eq_true_iff]
  · rw [← NormalNode.map_snd_locatedFrom t.top 0, List.filter_map]
    rfl

/-- Searching a tree looks up the nodes that pass the test. -/
theorem looksUp_search (t : NormalTree) {P : NormalField → Prop} [DecidablePred P]
    {p : NormalField → Bool} (hp : ∀ n, p n = true ↔ P n) : t.LooksUp P (t.search p) := by
  obtain rfl : p = fun n => decide (P n) :=
    funext fun n => Bool.eq_iff_iff.2 ((hp n).trans decide_eq_true_iff.symm)
  have hsearch : t.search (fun n => decide (P n)) =
      (NormalNode.preorders t.top).filter fun u => decide (P u.field) :=
    NormalNode.search_eq _ t.top (Nat.le_refl _)
  have hends := NormalNode.Lookup.ends (fun n => decide (P n)) (.start t.top)
  simp only [NormalNode.Lookup.start, NormalNode.sizes_reverse, NormalNode.Lookup.answer,
    List.reverse_reverse, List.nil_append] at hends
  rw [hsearch]
  exact ⟨hends, fun _ hm => NormalNode.search_eq _ _ hm, rfl, t.lists_filter P⟩

/-- Lookups in a normalized tree end and are complete and in order: by coordinates they give the
nodes that resolve the field on the object type, by a field those that list a field of its number.
For a field of a document that has been read these are the nodes that list the field. -/
theorem lookups_in_tree_order (t : NormalTree) :
    (∀ object name, t.LooksUp (fun n => n.name = name ∧ object ∈ n.objectTypes)
        (t.nodesAt object name)) ∧
      (∀ f : Field, t.LooksUp (fun n => ∃ g ∈ n.fields, g.node.number = f.node.number)
        (t.nodesOf f)) ∧
      ∀ text d s operation? vars, Document.parse text = .ok d →
        ofDocument s d operation? vars = .ok t →
          ∀ f ∈ d.fields, t.Lists (fun n => f ∈ n.fields) (t.nodesOf f) := by
  have hcoordinates : ∀ object name,
      t.LooksUp (fun n => n.name = name ∧ object ∈ n.objectTypes) (t.nodesAt object name) :=
    fun object name => t.looksUp_search fun n => by simp
  have hfield : ∀ f : Field,
      t.LooksUp (fun n => ∃ g ∈ n.fields, g.node.number = f.node.number) (t.nodesOf f) :=
    fun f => t.looksUp_search fun n => by simp
  refine ⟨hcoordinates, hfield, fun text d s operation? vars hd ht f hf => ?_⟩
  exact (hfield f).lists.congr fun u hu => mem_fields_iff hd ht hu hf

/-- The name of a friend's friend, and by a fragment those of the friend and of oneself. -/
def namesText : String :=
  "{ me { friend { friend { name } ...named } ...named } } fragment named on Person { name }"

theorem lookups_in_tree_order_names :
    ∃ d t f, Document.parse namesText = .ok d ∧ ofDocument friendsSchema d none [] = .ok t ∧
      f ∈ d.fields ∧
      (t.nodesAt "Person" "name").map (·.field.level) = [4, 3, 2] ∧
      (t.nodesOf f).map (·.field.level) = [3, 2] ∧
      t.LooksUp (fun n => n.name = "name" ∧ "Person" ∈ n.objectTypes)
        (t.nodesAt "Person" "name") ∧
      t.Lists (fun n => f ∈ n.fields) (t.nodesOf f) := by
  have hcheck : ((Document.parse namesText).toOption.any fun d =>
      (ofDocument friendsSchema d none []).toOption.any fun t =>
        (t.nodesAt "Person" "name").map (·.field.level) == [4, 3, 2] &&
          d.fields.any fun f => (t.nodesOf f).map (·.field.level) == [3, 2]) = true := by
    decide +kernel
  obtain ⟨d, hd, hcheck⟩ := Except.exists_of_any hcheck
  obtain ⟨t, ht, hcheck⟩ := Except.exists_of_any hcheck
  simp only [Bool.and_eq_true, beq_iff_eq, List.any_eq_true] at hcheck
  obtain ⟨hcoordinates, f, hf, hfield⟩ := hcheck
  obtain ⟨hat, -, hof⟩ := lookups_in_tree_order t
  exact ⟨d, t, f, hd, ht, hf, hcoordinates, hfield, hat _ _, hof _ d _ _ _ hd ht f hf⟩

end NormalTree

end GraphQL
