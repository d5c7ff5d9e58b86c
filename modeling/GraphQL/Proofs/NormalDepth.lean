/-
GraphQL.Proofs.NormalDepth — normalization ends.

The tree of an operation has a level for the fields of the operation, one for the fields
selected below them, and so on. Object types do not bound the levels, as they may refer to
each other in cycles, and neither do the fragments that a walk has entered, as each level
starts its walks anew. What gets smaller from level to level is how deep fields are nested in
the selection sets, spreads expanded (`SelectionSet.nesting`), and without cyclic fragments
that is a number (`Document.inlined`).

* `SelectionSet.Inlines.exists_of_walk` — below a field that a walk comes to, fields are
  nested less deep than in what is walked over.
* `Normal.trees_eq_of_le` — a bound on the levels that is not met makes no difference.
* `Normal.trees_ne_tooDeep`, `Normal.level_of_mem_down` — so a tree has at most as many levels
  as fields are nested, and its nodes have the level of their depth.
* `SelectionSet.Inlines.nesting_le` — fields are nested at most as deep as there are fields.
* `Normal.normalization_ends` — hence normalization ends on documents without cycles.
-/
import GraphQL.Proofs.CycleSearch
import GraphQL.Proofs.FragmentInlining
import GraphQL.Proofs.InputConformance
import GraphQL.Proofs.NormalTypes

namespace GraphQL

/-! ## Nested fields -/

namespace SelectionSet

/-- How deep fields are nested in a selection set, spreads not followed. -/
def nesting : SelectionSet → Nat
  | .nil => 0
  | .field _ sub rest => max (sub.nesting + 1) rest.nesting
  | .inline _ sub rest => max sub.nesting rest.nesting
  | .spread _ rest => rest.nesting

variable {fragments : Registry Fragment} {set set' : SelectionSet}

/-- Where a walk over a selection set stands at a field, the sub-selection of the field is
nested less deep than the set, fragments inlined in both. -/
theorem Inlines.exists_of_walk {τ : Type} {restrict : String → τ → Option τ} {t t' : τ}
    {node : FieldNode} {sub rest : SelectionSet} (h : Inlines fragments set set')
    (hwalk : Walk fragments restrict set t (.field node sub rest) t') :
    ∃ sub', Inlines fragments sub sub' ∧ sub'.nesting < set'.nesting := by
  generalize hat : SelectionSet.field node sub rest = stop at hwalk
  induction hwalk generalizing set' with
  | here =>
    subst hat
    cases h with
    | field _ hsub _ => exact ⟨_, hsub, Nat.lt_of_succ_le (Nat.le_max_left _ _)⟩
  | pastField _ ih =>
    cases h with
    | field _ _ hrest =>
      obtain ⟨sub', hsub, hlt⟩ := ih hrest hat
      exact ⟨sub', hsub, hlt.trans_le (Nat.le_max_right _ _)⟩
  | pastInline _ ih =>
    cases h with
    | inline _ hrest =>
      obtain ⟨sub', hsub, hlt⟩ := ih hrest hat
      exact ⟨sub', hsub, hlt.trans_le (Nat.le_max_right _ _)⟩
  | pastSpread _ ih =>
    cases h with
    | known _ _ hrest =>
      obtain ⟨sub', hsub, hlt⟩ := ih hrest hat
      exact ⟨sub', hsub, hlt.trans_le (Nat.le_max_right _ _)⟩
    | unknown _ hrest =>
      obtain ⟨sub', hsub, hlt⟩ := ih hrest hat
      exact ⟨sub', hsub, hlt⟩
  | into _ _ ih | intoOn _ _ _ ih =>
    cases h with
    | inline hinner _ =>
      obtain ⟨sub', hsub, hlt⟩ := ih hinner hat
      exact ⟨sub', hsub, hlt.trans_le (Nat.le_max_left _ _)⟩
  | intoFragment hf _ _ ih =>
    cases h with
    | known hf' hinner _ =>
      obtain rfl := Option.some.inj (hf.symm.trans hf')
      obtain ⟨sub', hsub, hlt⟩ := ih hinner hat
      -- the selections of the fragment stand in an inline fragment in another one
      refine ⟨sub', hsub, hlt.trans_le ?_⟩
      exact (Nat.le_max_left _ _).trans (Nat.le_max_left _ _)
    | unknown hf' _ => exact absurd (hf.symm.trans hf') nofun

/-- The selection set with its fragments inlined has fields nested to a depth at most. -/
def Shallow (fragments : Registry Fragment) (depth : Nat) (set : SelectionSet) : Prop :=
  ∃ set', Inlines fragments set set' ∧ set'.nesting ≤ depth

/-- Fields one inside the other, the outer ones first. They are fields of a selection set or of
fragments that are spread in it. -/
structure Nested (fragments : Registry Fragment) (set : SelectionSet) (nested : List Field) :
    Prop where
  below : ∀ f ∈ nested, Below fragments set f.selections
  mem : ∀ f ∈ nested, f ∈ set.fields ∨ ∃ g ∈ fragments.items, f ∈ g.selections.fields
  inside : nested.Pairwise fun outer inner => Below fragments outer.selections inner.selections

namespace Nested

variable {nested : List Field}

/-- What is nested in a part of a selection set is nested in the set. -/
theorem of_part (hfields : set.fields.Sublist set'.fields) (hspreads : set.spreads ⊆ set'.spreads)
    (h : Nested fragments set nested) : Nested fragments set' nested where
  below f hf := (h.below f hf).of_part hfields.length_le hspreads
  mem f hf := (h.mem f hf).imp_left fun hmem => hfields.subset hmem
  inside := h.inside

/-- What is nested in a fragment is nested where the fragment is spread. -/
theorem of_fragment {name : String} {f : Fragment} (hname : name ∈ set.spreads)
    (hf : fragments.get? name = some f) (h : Nested fragments f.selections nested) :
    Nested fragments set nested where
  below g hg := .of_fragment hname hf (h.below g hg)
  mem g hg := .inr ((h.mem g hg).elim (fun hmem => ⟨f, (Registry.mem_of_get? hf).1, hmem⟩) id)
  inside := h.inside

theorem cons {node : FieldNode} {sub rest : SelectionSet} (h : Nested fragments sub nested) :
    Nested fragments (.field node sub rest) (⟨node, sub⟩ :: nested) := by
  have hpart : Nested fragments (.field node sub rest) nested :=
    h.of_part ((List.sublist_append_left _ _).cons _) (List.subset_append_left _ _)
  have hself : Below fragments (.field node sub rest) sub := by
    refine .inside ?_ (List.subset_append_left _ _)
    rw [fields, List.length_cons, List.length_append]
    omega
  exact ⟨List.forall_mem_cons.2 ⟨hself, hpart.below⟩,
    List.forall_mem_cons.2 ⟨.inl List.mem_cons_self, hpart.mem⟩,
    List.pairwise_cons.2 ⟨h.below, h.inside⟩⟩

theorem pastSpread {sp : Spread} {rest : SelectionSet} (h : Nested fragments rest nested) :
    Nested fragments (.spread sp rest) nested := by
  have hfields : rest.fields.Sublist (SelectionSet.spread sp rest).fields := .refl _
  exact h.of_part hfields (List.subset_cons_self _ _)

end Nested

/-- Fields are nested as deep as the number says. -/
theorem Inlines.exists_nested (h : Inlines fragments set set') :
    ∃ nested, Nested fragments set nested ∧ nested.length = set'.nesting := by
  induction h with
  | nil => exact ⟨[], ⟨nofun, nofun, .nil⟩, rfl⟩
  | @field node sub sub' rest rest' _ _ _ ihs ih =>
    rw [nesting]
    rcases Nat.le_total (sub'.nesting + 1) rest'.nesting with hle | hle
    · obtain ⟨nested, hnested, hlength⟩ := ih
      refine ⟨nested, hnested.of_part ?_ (List.subset_append_right _ _), by omega⟩
      exact (List.sublist_append_right _ _).cons _
    · obtain ⟨nested, hnested, hlength⟩ := ihs
      refine ⟨_, hnested.cons, ?_⟩
      rw [List.length_cons]
      omega
  | @inline head sub sub' rest rest' _ _ ihs ih =>
    rw [nesting]
    rcases Nat.le_total sub'.nesting rest'.nesting with hle | hle
    · obtain ⟨nested, hnested, hlength⟩ := ih
      exact ⟨nested, hnested.of_part (List.sublist_append_right _ _)
        (List.subset_append_right _ _), by omega⟩
    · obtain ⟨nested, hnested, hlength⟩ := ihs
      exact ⟨nested, hnested.of_part (List.sublist_append_left _ _)
        (List.subset_append_left _ _), by omega⟩
  | @known sp f selections rest rest' hf _ _ ihs ih =>
    simp only [Spread.inline, nesting, Nat.max_zero]
    rcases Nat.le_total selections.nesting rest'.nesting with hle | hle
    · obtain ⟨nested, hnested, hlength⟩ := ih
      exact ⟨nested, hnested.pastSpread, by omega⟩
    · obtain ⟨nested, hnested, hlength⟩ := ihs
      exact ⟨nested, hnested.of_fragment List.mem_cons_self hf, by omega⟩
  | unknown _ _ ih =>
    obtain ⟨nested, hnested, hlength⟩ := ih
    exact ⟨nested, hnested.pastSpread, hlength⟩

/-- Without cyclic fragments the fields of a document are nested at most as deep as there are
fields: those one inside the other are different ones. -/
theorem Inlines.nesting_le {d : Document} (hcycle : ¬ d.FragmentsCycle)
    (h : Inlines d.fragments set set') (hset : set.fields ⊆ d.fields) :
    set'.nesting ≤ d.fields.length := by
  obtain ⟨nested, hnested, hlength⟩ := h.exists_nested
  have hsubset : nested ⊆ d.fields := fun f hf => (hnested.mem f hf).elim (hset ·)
    fun ⟨g, hg, hmem⟩ => Document.fields_subset_of_mem_fragments hg hmem
  have hne : ∀ {outer inner : Field},
      Below d.fragments outer.selections inner.selections → outer ≠ inner := by
    rintro outer _ hself rfl
    exact hcycle (Document.fragmentsCycle_of_below hself)
  have hnodup : nested.Nodup := hnested.inside.imp hne
  exact hlength ▸ (hnodup.subperm hsubset).length_le

end SelectionSet

/-! ## One level -/

namespace Normal

variable {sc : Scope} {level : Nat} {sets : List SelectionSet} {objects : List String}

/-- A node of a level, with selections. -/
structure On (level : Nat) (n : NormalField) : Prop where
  level : n.level = level
  fields : n.fields ≠ []

/-- The nodes that occurrences are put into are on the level. -/
theorem on_putOccurrence {buckets buckets' : Buckets} {o : Occurrence (List String)}
    (hb : ∀ k, ∀ n ∈ bucket buckets k, On level n)
    (h : putOccurrence sc level buckets o = .ok buckets') :
    ∀ k, ∀ n ∈ bucket buckets' k, On level n :=
  forall_putOccurrence (fun _ hn => ⟨hn.level, by simp [join]⟩)
    (fun _ _ _ => ⟨rfl, List.cons_ne_nil _ _⟩) hb h

/-- Sorted buckets with the nodes of a level. -/
structure SortedOn (s : Schema) (level : Nat) (os : List (Occurrence (List String)))
    (buckets : Buckets) : Prop where
  sorted : Sorted s os buckets
  on : ∀ k, ∀ n ∈ bucket buckets k, On level n

theorem sortedOn_putOccurrence {os : List (Occurrence (List String))} {buckets buckets' : Buckets}
    {o : Occurrence (List String)} (hb : SortedOn sc.schema level os buckets)
    (h : putOccurrence sc level buckets o = .ok buckets') :
    SortedOn sc.schema level (os ++ [o]) buckets' :=
  ⟨sorted_putOccurrence hb.sorted h, on_putOccurrence hb.on h⟩

/-- The nodes of a level are on it, and made of its occurrences. -/
theorem nodes_of_levelNodes {ns : List NormalField}
    (h : levelNodes sc level sets objects = .ok ns) :
    ∀ n ∈ ns, On level n ∧ Own sc.schema (levelOccurrences sc sets objects) n := by
  obtain ⟨buckets, rfl, hfold⟩ := levelNodes_eq_ok h
  have hempty : SortedOn sc.schema level [] [] :=
    ⟨sorted_nil, fun _ _ hn => by simp [bucket] at hn⟩
  obtain ⟨hsorted, hon⟩ := foldlM_putOccurrence (fun hb => sortedOn_putOccurrence hb) hempty hfold
  intro n hn
  obtain ⟨e, he, hn⟩ := List.mem_flatMap.1 hn
  have hbucket : n ∈ bucket buckets e.1 := hsorted.bucket_eq he ▸ hn
  exact ⟨hon _ n hbucket, hsorted.own _ n hbucket⟩

/-- The selections of the nodes of a level are nested less deep than those of the level, so
there are nodes only if fields are nested at all. -/
theorem shallow_of_levelNodes {depth : Nat}
    (hsets : ∀ set ∈ sets, set.Shallow sc.fragments depth) {ns : List NormalField}
    (h : levelNodes sc level sets objects = .ok ns) {n : NormalField} (hn : n ∈ ns) :
    ∃ below, depth = below + 1 ∧
      ∀ set ∈ n.fields.map Field.selections, set.Shallow sc.fragments below := by
  obtain ⟨⟨-, hfields⟩, hown⟩ := nodes_of_levelNodes h n hn
  have hshallow : ∀ f ∈ n.fields, ∃ set', SelectionSet.Inlines sc.fragments f.selections set' ∧
      set'.nesting < depth := by
    intro f hf
    obtain ⟨-, o, ho, rfl, -⟩ := hown.fields f hf
    obtain ⟨set, hset, ho⟩ := List.mem_flatMap.1 ho
    obtain ⟨set', hset', hdepth⟩ := hsets set hset
    obtain ⟨rest, hwalk⟩ := Walk.exists_of_mem_occurrences ho
    obtain ⟨sub', hsub, hlt⟩ := hset'.exists_of_walk hwalk
    exact ⟨sub', hsub, hlt.trans_le hdepth⟩
  obtain ⟨f, hf⟩ := List.exists_mem_of_ne_nil _ hfields
  obtain ⟨_, -, hlt⟩ := hshallow f hf
  refine ⟨depth - 1, by omega, fun set hset => ?_⟩
  obtain ⟨f, hf, rfl⟩ := List.mem_map.1 hset
  obtain ⟨set', hset', hlt⟩ := hshallow f hf
  exact ⟨set', hset', by omega⟩

/-- An occurrence is not put into a node only if its arguments do not fit. -/
theorem putOccurrence_ne_fault {buckets : Buckets} {o : Occurrence (List String)} {f : Fault} :
    putOccurrence sc level buckets o ≠ .error (.fault f) := by
  intro h
  unfold putOccurrence at h
  split at h
  · cases h
  · split at h
    · cases h
    · simp only at h
      split at h
      · cases h
      · split at h
        · next e he =>
          obtain rfl := Except.error.inj h
          unfold nodeArguments at he
          split at he
          · cases he
          · split at he <;> cases he
        · cases h

theorem foldlM_ne_error {α β ε : Type} {f : β → α → Except ε β} {e : ε}
    (hf : ∀ b x, f b x ≠ .error e) (xs : List α) (b : β) : xs.foldlM f b ≠ .error e := by
  induction xs generalizing b with
  | nil => exact nofun
  | cons x xs ih =>
    rw [List.foldlM_cons]
    cases hb : f b x with
    | error e' =>
      intro h
      obtain rfl := Except.error.inj h
      exact hf b x hb
    | ok b' => exact ih b'

/-- Nor do the nodes of a level meet the bound on the levels. -/
theorem levelNodes_ne_fault {f : Fault} : levelNodes sc level sets objects ≠ .error (.fault f) := by
  intro h
  unfold levelNodes at h
  simp only at h
  split at h
  · cases h
  · next e he =>
    obtain rfl := Except.error.inj h
    exact foldlM_ne_error (fun _ _ => putOccurrence_ne_fault) _ _ he

/-! ## The bound on the levels -/

theorem exists_of_mapM_eq_error {α β ε : Type} {f : α → Except ε β} {xs : List α} {e : ε}
    (h : xs.mapM f = .error e) : ∃ x ∈ xs, f x = .error e := by
  induction xs with
  | nil => cases h
  | cons x xs ih =>
    rw [List.mapM_cons] at h
    cases hx : f x with
    | error e' =>
      simp only [hx, bind, Except.bind] at h
      obtain rfl := Except.error.inj h
      exact ⟨x, List.mem_cons_self, hx⟩
    | ok y =>
      cases hxs : xs.mapM f with
      | error e' =>
        simp only [hx, hxs, bind, Except.bind] at h
        obtain ⟨x', hx', hf⟩ := ih (hxs.trans h)
        exact ⟨x', List.mem_cons_of_mem _ hx', hf⟩
      | ok ys => simp [hx, hxs, bind, Except.bind, pure, Except.pure] at h

/-- Functions that agree but for one error agree so item by item. -/
theorem mapM_eq_of_ne_error {α β ε : Type} {f g : α → Except ε β} {e : ε}
    (hfg : ∀ x, f x ≠ .error e → g x = f x) {xs : List α} (h : xs.mapM f ≠ .error e) :
    xs.mapM g = xs.mapM f := by
  induction xs with
  | nil => rfl
  | cons x xs ih =>
    rw [List.mapM_cons] at h
    have hx : g x = f x := hfg x fun hx => h (by rw [hx]; rfl)
    rw [List.mapM_cons, List.mapM_cons, hx]
    cases hy : f x with
    | error e' => rfl
    | ok y =>
      have hxs : xs.mapM f ≠ .error e := fun hxs => h (by rw [hy, hxs]; rfl)
      rw [ih hxs]

/-- What the nodes of a level become. -/
def grow (sc : Scope) (n level : Nat) (f : NormalField) : Except Failure NormalNode :=
  match childObjects? sc.schema f with
  | none => .ok (.node f [])
  | some objects =>
    match trees sc n (f.fields.map Field.selections) objects (level + 1) with
    | .ok cs => .ok (.node f cs)
    | .error e => .error e

theorem trees_succ {n : Nat} {ns : List NormalField}
    (h : levelNodes sc level sets objects = .ok ns) :
    trees sc (n + 1) sets objects level = ns.mapM (grow sc n level) := by
  rw [trees, h]
  rfl

/-- A bound on the levels that is not met makes no difference: neither does the next one. -/
theorem trees_eq_of_ne {n : Nat} (h : trees sc n sets objects level ≠ .error (.fault .tooDeep)) :
    trees sc (n + 1) sets objects level = trees sc n sets objects level := by
  induction n generalizing sets objects level with
  | zero => exact absurd rfl h
  | succ n ih =>
    cases hns : levelNodes sc level sets objects with
    | error e => rw [trees, trees, hns]
    | ok ns =>
      rw [trees_succ hns] at h
      rw [trees_succ hns, trees_succ hns]
      refine mapM_eq_of_ne_error (fun f hf => ?_) h
      unfold grow at hf ⊢
      cases hobjects : childObjects? sc.schema f with
      | none => rfl
      | some below =>
        have hbelow : trees sc n (f.fields.map Field.selections) below (level + 1) ≠
            .error (.fault .tooDeep) := fun hdeep => hf (by simp only [hobjects, hdeep])
        simp only [ih hbelow]

theorem trees_eq_of_le {n m : Nat} (h : trees sc n sets objects level ≠ .error (.fault .tooDeep))
    (hle : n ≤ m) : trees sc m sets objects level = trees sc n sets objects level := by
  induction m, hle using Nat.le_induction with
  | base => rfl
  | succ m _ ih => exact (trees_eq_of_ne (ih ▸ h)).trans ih

/-- Selection sets whose fields are nested less deep than the bound on the levels do not meet
the bound: by induction on the bound, each level goes into a field. -/
theorem trees_ne_tooDeep {n depth : Nat} (hsets : ∀ set ∈ sets, set.Shallow sc.fragments depth)
    (hn : depth < n) : trees sc n sets objects level ≠ .error (.fault .tooDeep) := by
  induction n generalizing sets objects level depth with
  | zero => exact absurd hn (Nat.not_lt_zero _)
  | succ n ih =>
    cases hns : levelNodes sc level sets objects with
    | error e =>
      rw [trees, hns]
      exact fun h => levelNodes_ne_fault (hns.trans (congrArg _ (Except.error.inj h)))
    | ok ns =>
      rw [trees_succ hns]
      intro h
      obtain ⟨f, hf, hgrow⟩ := exists_of_mapM_eq_error h
      obtain ⟨below, rfl, hbelow⟩ := shallow_of_levelNodes hsets hns hf
      unfold grow at hgrow
      split at hgrow
      · cases hgrow
      · split at hgrow
        · cases hgrow
        · next e he =>
          obtain rfl := Except.error.inj hgrow
          exact ih hbelow (Nat.lt_of_succ_lt_succ hn) he

/-- Without composite types there is one level only. -/
theorem trees_ne_tooDeep_of_leaves (hleaves : ∀ f, childObjects? sc.schema f = none) (n : Nat) :
    trees sc (n + 1) sets objects level ≠ .error (.fault .tooDeep) := by
  cases hns : levelNodes sc level sets objects with
  | error e =>
    rw [trees, hns]
    exact fun h => levelNodes_ne_fault (hns.trans (congrArg _ (Except.error.inj h)))
  | ok ns =>
    rw [trees_succ hns]
    intro h
    obtain ⟨f, -, hgrow⟩ := exists_of_mapM_eq_error h
    simp [grow, hleaves f] at hgrow

end Normal

/-! ## Depths of nodes -/

namespace NormalNode

/-- The nodes that are a number of levels below the top of some trees. -/
def down : Nat → List NormalNode → List NormalNode
  | 0, ts => ts
  | k + 1, ts => ts.flatMap fun t => down k t.children

theorem down_cons (k : Nat) (t : NormalNode) (ts : List NormalNode) :
    down k (t :: ts) = down k [t] ++ down k ts := by
  cases k with
  | zero => rfl
  | succ k => simp [down]

mutual

theorem exists_down_of_mem_preorder : ∀ (t : NormalNode), ∀ u ∈ preorder t, ∃ k, u ∈ down k [t]
  | .node f cs => by
    intro u hu
    rw [preorder] at hu
    rcases List.mem_cons.1 hu with rfl | hu
    · exact ⟨0, List.mem_cons_self⟩
    · obtain ⟨k, hk⟩ := exists_down_of_mem_preorders cs u hu
      exact ⟨k + 1, List.mem_flatMap.2 ⟨.node f cs, List.mem_singleton_self _, hk⟩⟩

/-- Every node of some trees is a number of levels below their top. -/
theorem exists_down_of_mem_preorders :
    ∀ (ts : List NormalNode), ∀ u ∈ preorders ts, ∃ k, u ∈ down k ts
  | [] => by simp [preorders]
  | t :: ts => by
    intro u hu
    rw [preorders] at hu
    rcases List.mem_append.1 hu with hu | hu
    · obtain ⟨k, hk⟩ := exists_down_of_mem_preorder t u hu
      exact ⟨k, down_cons k t ts ▸ List.mem_append_left _ hk⟩
    · obtain ⟨k, hk⟩ := exists_down_of_mem_preorders ts u hu
      exact ⟨k, down_cons k t ts ▸ List.mem_append_right _ hk⟩

end

end NormalNode

namespace Normal

variable {sc : Scope} {level n depth : Nat} {sets : List SelectionSet} {objects : List String}
  {ts : List NormalNode}

/-- The children of a node of a composite type are the trees of the next level with its
selections; other nodes have none. -/
theorem children_of_trees (h : trees sc n sets objects level = .ok ts) {t : NormalNode}
    (ht : t ∈ ts) : (childObjects? sc.schema t.field = none ∧ t.children = []) ∨
      ∃ m objects', childObjects? sc.schema t.field = some objects' ∧
        trees sc m (t.field.fields.map Field.selections) objects' (level + 1) = .ok t.children := by
  cases n with
  | zero => cases h
  | succ n =>
    rw [trees_succ (fields_of_trees h)] at h
    obtain ⟨f, -, hgrow⟩ := exists_source_of_mapM h t ht
    unfold grow at hgrow
    split at hgrow
    · next hleaf =>
      obtain rfl := Except.ok.inj hgrow
      exact .inl ⟨hleaf, rfl⟩
    · split at hgrow
      · next objects' hobjects _ cs hcs =>
        obtain rfl := Except.ok.inj hgrow
        exact .inr ⟨n, objects', hobjects, hcs⟩
      · cases hgrow

end Normal

/-! ## Levels of a tree -/

namespace NormalTree

open GraphQL.Normal

variable {sc : Scope} {o : Operation} {root : String} {t : NormalTree} {sets : List SelectionSet}
  {objects : List String} {ts : List NormalNode} {n : Nat}

/-- The nodes of a level of a tree, with the selection sets and the object types that they are
made of: those of the operation, and for a node of a composite type those of its selections. -/
inductive Level (s : Schema) (o : Operation) (root : String) (t : NormalTree) :
    List SelectionSet → List String → List NormalNode → Prop
  | top : Level s o root t [o.selections] [root] t.top
  | inside {sets : List SelectionSet} {objects objects' : List String} {ts : List NormalNode}
      {u : NormalNode} (h : Level s o root t sets objects ts) (hu : u ∈ ts)
      (hobjects : childObjects? s u.field = some objects') :
      Level s o root t (u.field.fields.map Field.selections) objects' u.children

theorem trees_of_ofDocument {s : Schema} {d : Document} {operation? : Option String}
    {vars : VariableValues} (h : ofDocument s d operation? vars = .ok t) :
    ∃ o root, d.operation operation? = .ok o ∧ o.rootTypeName s = .ok root ∧
      trees (.ofDocument s d vars) (levelsFor s d) [o.selections] [root] 1 = .ok t.top := by
  unfold ofDocument at h
  split at h
  · cases h
  · next o ho =>
    split at h
    · cases h
    · next root hroot =>
      simp only at h
      split at h
      · next top htop =>
        obtain rfl := Except.ok.inj h
        exact ⟨o, root, ho, hroot, htop⟩
      · cases h

/-- Each level of a tree has been grown as one. -/
theorem Level.exists_trees (htop : trees sc n [o.selections] [root] 1 = .ok t.top)
    (h : Level sc.schema o root t sets objects ts) :
    ∃ m level, trees sc m sets objects level = .ok ts := by
  induction h with
  | top => exact ⟨n, 1, htop⟩
  | inside _ hu hobjects ih =>
    obtain ⟨m, level, htrees⟩ := ih
    rcases children_of_trees htrees hu with ⟨hnone, -⟩ | ⟨m', objects', hobjects', hchildren⟩
    · exact absurd (hnone.symm.trans hobjects) nofun
    · obtain rfl := Option.some.inj (hobjects.symm.trans hobjects')
      exact ⟨m', level + 1, hchildren⟩

/-- Every node of a tree is on one of its levels. -/
theorem exists_level (htop : trees sc n [o.selections] [root] 1 = .ok t.top) {u : NormalNode}
    (hu : u ∈ NormalNode.preorders t.top) :
    ∃ sets objects ts, Level sc.schema o root t sets objects ts ∧ u ∈ ts := by
  -- by induction on how far below a level the node is
  have hdown : ∀ k {sets objects ts}, Level sc.schema o root t sets objects ts →
      u ∈ NormalNode.down k ts →
        ∃ sets objects ts, Level sc.schema o root t sets objects ts ∧ u ∈ ts := by
    intro k
    induction k with
    | zero => exact fun hlevel hu => ⟨_, _, _, hlevel, hu⟩
    | succ k ih =>
      intro sets objects ts hlevel hu
      obtain ⟨v, hv, hu⟩ := List.mem_flatMap.1 hu
      obtain ⟨m, level, htrees⟩ := hlevel.exists_trees htop
      rcases children_of_trees htrees hv with ⟨-, hnone⟩ | ⟨_, objects', hobjects, -⟩
      · rw [hnone] at hu
        cases k <;> simp [NormalNode.down] at hu
      · exact ih (.inside hlevel hv hobjects) hu
  obtain ⟨k, hk⟩ := NormalNode.exists_down_of_mem_preorders _ u hu
  exact hdown k .top hk

end NormalTree

namespace Normal

variable {sc : Scope} {level n depth : Nat} {sets : List SelectionSet} {objects : List String}
  {ts : List NormalNode}

/-- Nodes have the level of their depth, and are no deeper than fields are nested: by induction
on the depth. -/
theorem level_of_mem_down (hsets : ∀ set ∈ sets, set.Shallow sc.fragments depth)
    (h : trees sc n sets objects level = .ok ts) {k : Nat} {t : NormalNode}
    (ht : t ∈ NormalNode.down k ts) : t.field.level = level + k ∧ k < depth := by
  have hlevel := fields_of_trees h
  induction k generalizing sets objects level n ts depth with
  | zero =>
    have hmem : t.field ∈ ts.map NormalNode.field := List.mem_map_of_mem ht
    obtain ⟨below, rfl, -⟩ := shallow_of_levelNodes hsets hlevel hmem
    exact ⟨(nodes_of_levelNodes hlevel _ hmem).1.level, Nat.succ_pos _⟩
  | succ k ih =>
    obtain ⟨u, hu, ht⟩ := List.mem_flatMap.1 ht
    obtain ⟨below, rfl, hbelow⟩ := shallow_of_levelNodes hsets hlevel (List.mem_map_of_mem hu)
    rcases children_of_trees h hu with ⟨-, hnone⟩ | ⟨m, objects', -, hchildren⟩
    · rw [hnone] at ht
      cases k <;> simp [NormalNode.down] at ht
    · obtain ⟨htlevel, hk⟩ := ih hbelow hchildren ht (fields_of_trees hchildren)
      exact ⟨by omega, Nat.succ_lt_succ hk⟩

/-! ## Documents without cycles -/

/-- How the normalization of an operation ends, with fields nested to a depth. -/
structure Ends (sc : Scope) (o : Operation) (root : String) (result : Except Failure NormalTree)
    (depth : Nat) : Prop where
  /-- A walk over selections enters no more fragments inside each other than there are. -/
  walks : ∀ n, sc.fragments.items.length ≤ n → ∀ set objects,
    SelectionSet.occurrences sc (restrict sc)
        (sc.enterFragment (restrict sc) n sc.fragments.items) set objects =
      sc.occurrences (restrict sc) set objects
  /-- No more levels than fields are nested are needed, and more make no difference. -/
  bound : ∀ n, depth < n → (trees sc n [o.selections] [root] 1).map NormalTree.mk = result
  /-- It is not given up for want of levels. -/
  finished : result ≠ .error (.fault .tooDeep)
  /-- The level of a node is its depth in the tree. -/
  level : ∀ tree, result = .ok tree → ∀ t ∈ NormalNode.preorders tree.top, ∀ k,
    t ∈ NormalNode.down k tree.top ↔ t.field.level = k + 1
  /-- No node is deeper than fields are nested. -/
  level_le : ∀ tree, result = .ok tree → ∀ t ∈ NormalNode.preorders tree.top,
    t.field.level ≤ depth

theorem ends_of_shallow {o : Operation} {root : String} {N : Nat}
    (hset : o.selections.Shallow sc.fragments depth)
    (hN : trees sc N [o.selections] [root] 1 ≠ .error (.fault .tooDeep)) :
    Ends sc o root ((trees sc N [o.selections] [root] 1).map NormalTree.mk) depth := by
  have hsets : ∀ set ∈ [o.selections], set.Shallow sc.fragments depth :=
    List.forall_mem_singleton.2 hset
  have hdown : ∀ tree, (trees sc N [o.selections] [root] 1).map NormalTree.mk = .ok tree →
      ∀ k, ∀ t ∈ NormalNode.down k tree.top, t.field.level = 1 + k ∧ k < depth := by
    intro tree htree k t ht
    obtain ⟨ts, hts, rfl⟩ := Except.map_eq_ok htree
    exact level_of_mem_down hsets hts ht
  refine ⟨fun m hm set objects => ?_, fun m hm => ?_, fun h => hN (Except.map_eq_error h),
    fun tree htree t ht k => ⟨fun hk => ?_, fun hk => ?_⟩, fun tree htree t ht => ?_⟩
  · rw [sc.enterFragment_eq hm (Nat.le_refl _)]
    rfl
  · -- both bounds give what the larger one gives
    have hm' : trees sc m [o.selections] [root] 1 ≠ .error (.fault .tooDeep) :=
      trees_ne_tooDeep hsets hm
    rw [← trees_eq_of_le hm' (Nat.le_max_left m N), ← trees_eq_of_le hN (Nat.le_max_right m N)]
  · exact (hdown tree htree k t hk).1.trans (Nat.add_comm _ _)
  · obtain ⟨k', hk'⟩ := NormalNode.exists_down_of_mem_preorders _ t ht
    obtain rfl : k' = k := by have hlevel := (hdown tree htree k' t hk').1; omega
    exact hk'
  · obtain ⟨k, hk⟩ := NormalNode.exists_down_of_mem_preorders _ t ht
    have hlevel := hdown tree htree k t hk
    omega

/-- The levels that normalization has are enough for fields nested at most as deep as a
document has fields. -/
theorem trees_levelsFor_ne_tooDeep {s : Schema} {d : Document} {vars : VariableValues}
    (hdepth : depth ≤ d.fields.length)
    (hsets : ∀ set ∈ sets, set.Shallow d.fragments depth) :
    trees (.ofDocument s d vars) (levelsFor s d) sets objects level ≠
      .error (.fault .tooDeep) := by
  cases htypes : s.types.items with
  | nil =>
    refine trees_ne_tooDeep_of_leaves (fun f => ?_) _
    simp [childObjects?, Scope.ofDocument, Schema.type?, Registry.get?, htypes]
  | cons t types =>
    refine trees_ne_tooDeep hsets ?_
    have hle : d.fields.length ≤ d.fields.length * s.types.items.length :=
      Nat.le_mul_of_pos_right _ (by simp [htypes])
    unfold levelsFor
    omega

theorem ofDocument_eq {s : Schema} {d : Document} {operation? : Option String}
    {vars : VariableValues} {o : Operation} {root : String} (ho : d.operation operation? = .ok o)
    (hroot : o.rootTypeName s = .ok root) : NormalTree.ofDocument s d operation? vars =
      (trees (.ofDocument s d vars) (levelsFor s d) [o.selections] [root] 1).map NormalTree.mk := by
  simp only [NormalTree.ofDocument, ho, hroot]
  cases trees (.ofDocument s d vars) (levelsFor s d) [o.selections] [root] 1 <;> rfl

/-- Normalization ends on documents without cycles, on all schemas. If no cycle is found in a
document, either there is no operation to normalize or no type for it, or normalizing the
operation ends with as many levels as fields are nested in it with its fragments inlined. -/
theorem normalization_ends {s : Schema} {d : Document}
    (h : ∀ x ∈ Validation.findings s d, x.isCycle = false) (operation? : Option String)
    (vars : VariableValues) :
    (∃ e, NormalTree.ofDocument s d operation? vars = .error (.ofRequestError e) ∧
      (d.operation operation? = .error e ∨
        ∃ o, d.operation operation? = .ok o ∧ o.rootTypeName s = .error e)) ∨
    ∃ o o' root, d.operation operation? = .ok o ∧ d.inlined.operation operation? = .ok o' ∧
      Operation.Inlines d.fragments o o' ∧ o.rootTypeName s = .ok root ∧
      o'.selections.nesting ≤ d.fields.length ∧
      Ends (.ofDocument s d vars) o root (NormalTree.ofDocument s d operation? vars)
        o'.selections.nesting := by
  have hcycle := Validation.acyclic_of_findings h
  rcases (Document.inlines_inlined hcycle).operation operation? with
    ⟨e, he, -⟩ | ⟨o, o', ho, ho', set, rfl, hset⟩
  · exact .inl ⟨e, by rw [NormalTree.ofDocument, he], .inl he⟩
  · cases hroot : o.rootTypeName s with
    | error e =>
      refine .inl ⟨e, ?_, .inr ⟨o, ho, hroot⟩⟩
      simp only [NormalTree.ofDocument, ho, hroot]
    | ok root =>
      have hfields : o.selections.fields ⊆ d.fields := fun f hf =>
        List.mem_flatMap.2 ⟨.operation o, Document.mem_of_operation ho, hf⟩
      have hdepth := hset.nesting_le hcycle hfields
      have hshallow : o.selections.Shallow d.fragments set.nesting := ⟨set, hset, Nat.le_refl _⟩
      refine .inr ⟨o, _, root, ho, ho', ⟨set, rfl, hset⟩, hroot, hdepth,
        ofDocument_eq ho hroot ▸ ?_⟩
      exact ends_of_shallow hshallow
        (trees_levelsFor_ne_tooDeep hdepth (List.forall_mem_singleton.2 hshallow))

/-- People who have people as friends, without end. -/
def friendsSchema : Schema :=
  let field (name : String) (type : TypeExpr) : FieldDefinition := ⟨name, .empty, type, none⟩
  ((Schema.ofQueryType "Query").register
    (.object ⟨"Person", .ofList [field "name" (.named "String"), field "friend" (.named "Person")],
      []⟩)).register
    (.object ⟨"Query", .ofList [field "me" (.named "Person")], []⟩)

/-- The names of a friend and of the friend's friend, by two fragments. -/
def friends : Document :=
  let field (name : String) (sub : SelectionSet) : SelectionSet → SelectionSet :=
    .field { (default : FieldNode) with name } sub
  let onPerson (name : String) (selections : SelectionSet) : Definition :=
    .fragment { name, position := default, condition := "Person", directives := [], selections }
  ⟨[.operation { (default : Operation) with
      kind := .query, selections := field "me" (Validation.spreading ["outer"]) .nil },
    onPerson "outer" (field "friend" (Validation.spreading ["inner"]) .nil),
    onPerson "inner" (field "friend" (field "name" .nil .nil) (field "name" .nil .nil))]⟩

theorem normalization_ends_friends : ∃ o root tree, friends.operation none = .ok o ∧
    (NormalNode.preorders tree.top).map (fun t => (t.field.name, t.field.level)) =
      [("me", 1), ("friend", 2), ("friend", 3), ("name", 4), ("name", 3)] ∧
    Ends (.ofDocument friendsSchema friends []) o root (.ok tree) 4 := by
  have hcycle : ∀ x ∈ Validation.findings friendsSchema friends, x.isCycle = false := by
    decide +kernel
  have hdepth : (friends.inlined.operation none).toOption.map (·.selections.nesting) = some 4 := by
    decide +kernel
  have hlevels : (NormalTree.ofDocument friendsSchema friends none []).toOption.map
      (fun tree => (NormalNode.preorders tree.top).map fun t => (t.field.name, t.field.level)) =
        some [("me", 1), ("friend", 2), ("friend", 3), ("name", 4), ("name", 3)] := by
    decide +kernel
  obtain ⟨tree, htree, hlevels⟩ := Option.map_eq_some_iff.1 hlevels
  replace htree := Except.toOption_eq_some htree
  rcases normalization_ends hcycle none [] with ⟨e, he, -⟩ | ⟨o, o', root, ho, ho', -, -, -, hends⟩
  · rw [htree] at he
    cases he
  · rw [ho'] at hdepth
    rw [htree, show o'.selections.nesting = 4 from Option.some.inj hdepth] at hends
    exact ⟨o, root, tree, ho, hlevels, hends⟩

end Normal

end GraphQL
