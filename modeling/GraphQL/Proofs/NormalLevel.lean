/-
GraphQL.Proofs.NormalLevel — one level of the normalized tree.

The occurrences of fields on one level are put into nodes one after the other. A node
only grows (`NormalField.Le`): it gets selections and object types, while its response
key, its name and its type stay. So a node that has taken an occurrence keeps it.

* `Normal.put_of_putOccurrence` — what one step does.
* `Normal.filled_putOccurrence` — what one step keeps: nodes stand under their key, and
  every occurrence so far has a node.
* `Normal.exists_node_of_trees` — hence every occurrence of a level that its first object
  type declares has a node there, with the level of its selections below it.
-/
import GraphQL.Normal
import GraphQL.Proofs.Steps

namespace GraphQL

/-! ## Growing nodes -/

/-- The second node is the first one with more selections and object types. -/
structure NormalField.Le (n n' : NormalField) : Prop where
  alias? : n'.alias? = n.alias?
  name : n'.name = n.name
  type : n'.type = n.type
  fields : n.fields ⊆ n'.fields
  objectTypes : n.objectTypes ⊆ n'.objectTypes

namespace NormalField.Le

theorem refl (n : NormalField) : n.Le n := ⟨rfl, rfl, rfl, fun _ h => h, fun _ h => h⟩

theorem key {n n' : NormalField} (h : n.Le n') : n'.key = n.key := by
  rw [NormalField.key, NormalField.key, h.alias?, h.name]

end NormalField.Le

namespace Normal

theorem subset_addTypes (types new : List String) :
    types ⊆ addTypes types new ∧ new ⊆ addTypes types new := by
  unfold addTypes
  induction new generalizing types with
  | nil => exact ⟨fun _ h => h, by simp⟩
  | cons t new ih =>
    have hstep : types ⊆ (if types.contains t then types else types ++ [t]) ∧
        t ∈ (if types.contains t then types else types ++ [t]) := by
      split
      · next hcontains => exact ⟨fun _ h => h, List.contains_iff_mem.1 hcontains⟩
      · exact ⟨fun _ h => List.mem_append_left _ h, List.mem_append_right _ List.mem_cons_self⟩
    obtain ⟨htypes, hnew⟩ := ih (if types.contains t then types else types ++ [t])
    refine ⟨fun x hx => htypes (hstep.1 hx), fun x hx => ?_⟩
    rcases List.mem_cons.1 hx with rfl | hx
    · exact htypes hstep.2
    · exact hnew hx

/-- A selection of an occurrence has gone into a node, as one of the declared type. -/
structure Home (n : NormalField) (o : Occurrence (List String)) (type : TypeExpr) : Prop where
  name : n.name = o.field.node.name
  type : n.type = type
  field : o.field ∈ n.fields
  objects : o.target ⊆ n.objectTypes

/-- A node that has taken an occurrence keeps it. -/
theorem Home.mono {n n' : NormalField} {o : Occurrence (List String)} {type : TypeExpr}
    (h : Home n o type) (hle : n.Le n') : Home n' o type where
  name := hle.name.trans h.name
  type := hle.type.trans h.type
  field := hle.fields h.field
  objects := fun _ ht => hle.objectTypes (h.objects ht)

/-- The nodes of the second list are those of the first, some of them grown, and perhaps
new ones with the key. -/
structure Grown (key : String) (ns ns' : List NormalField) : Prop where
  kept : ∀ n ∈ ns, ∃ n' ∈ ns', n.Le n'
  origin : ∀ n' ∈ ns', n'.key = key ∨ ∃ n ∈ ns, n.Le n'

/-! ## Buckets -/

/-- The nodes of a response key. -/
def bucket (buckets : Buckets) (key : String) : List NormalField := (buckets.lookup key).getD []

theorem bucket_insert (key : String) (ns : List NormalField) (buckets : Buckets) (k : String) :
    bucket (Entries.insert key ns buckets) k = if k = key then ns else bucket buckets k := by
  rw [bucket, Entries.lookup_insert]
  split <;> rfl

theorem mem_flatMap_of_mem_bucket {buckets : Buckets} {key : String} {n : NormalField}
    (h : n ∈ bucket buckets key) : n ∈ buckets.flatMap Prod.snd := by
  cases hlookup : buckets.lookup key with
  | none => simp [bucket, hlookup] at h
  | some ns =>
    rw [bucket, hlookup, Option.getD_some] at h
    obtain ⟨_, _, rfl, -⟩ := List.lookup_eq_some_iff.1 hlookup
    exact List.mem_flatMap.2 ⟨(key, ns), by simp, h⟩

/-- The declared type of an occurrence, looked up on its first object type. -/
def declaredType? (s : Schema) (o : Occurrence (List String)) : Option TypeExpr :=
  match o.target with
  | [] => none
  | first :: _ => (declaration? s first o.field.node.name).map Prod.fst

/-! ## One step -/

/-- The node that takes an occurrence. -/
def join (n : NormalField) (o : Occurrence (List String)) : NormalField :=
  { n with
    objectTypes := addTypes n.objectTypes o.target
    fields := n.fields ++ [o.field] }

/-- The node that an occurrence starts. -/
def start (o : Occurrence (List String)) (type : TypeExpr) (level : Nat)
    (arguments : List (String × Json)) : NormalField where
  alias? := o.field.node.alias?
  name := o.field.node.name
  objectTypes := o.target
  arguments
  written := o.field.node.arguments
  type
  level
  fields := [o.field]

/-- What can become of buckets when an occurrence is put into them. -/
inductive Put (s : Schema) (level : Nat) (buckets : Buckets) (o : Occurrence (List String)) :
    Buckets → Prop
  /-- An occurrence without a declared type is left out. -/
  | skipped (hnone : declaredType? s o = none) : Put s level buckets o buckets
  /-- The first node of the key that matches takes the occurrence. -/
  | joined {type : TypeExpr} {before after : List NormalField} {n : NormalField}
      (htype : declaredType? s o = some type)
      (hns : bucket buckets o.field.node.responseKey = before ++ n :: after)
      (hmatch : matchesNode o.field.node type n = true)
      (hbefore : ∀ m ∈ before, matchesNode o.field.node type m = false) :
      Put s level buckets o
        (Entries.insert o.field.node.responseKey (before ++ join n o :: after) buckets)
  /-- No node of the key matches, and a new one starts. -/
  | started {type : TypeExpr} (arguments : List (String × Json))
      (htype : declaredType? s o = some type)
      (hnone : ∀ m ∈ bucket buckets o.field.node.responseKey,
        matchesNode o.field.node type m = false) :
      Put s level buckets o (Entries.insert o.field.node.responseKey
        (bucket buckets o.field.node.responseKey ++ [start o type level arguments]) buckets)

section

variable {o : Occurrence (List String)} {type : TypeExpr} {ns ns' : List NormalField}

/-- The first node that matches takes the occurrence. -/
theorem exists_of_joinFirst? (h : joinFirst? o.field type o.target ns = some ns') :
    ∃ before n after, ns = before ++ n :: after ∧ ns' = before ++ join n o :: after ∧
      matchesNode o.field.node type n = true ∧
      ∀ m ∈ before, matchesNode o.field.node type m = false := by
  induction ns generalizing ns' with
  | nil => simp [joinFirst?] at h
  | cons n ns ih =>
    rw [joinFirst?] at h
    split at h
    · next hmatch =>
      obtain rfl := Option.some.inj h
      exact ⟨[], n, ns, rfl, rfl, hmatch, by simp⟩
    · next hmatch =>
      obtain ⟨ms, hms, rfl⟩ := Option.map_eq_some_iff.1 h
      obtain ⟨before, m, after, rfl, rfl, hm, hbefore⟩ := ih hms
      exact ⟨n :: before, m, after, rfl, rfl, hm,
        List.forall_mem_cons.2 ⟨by simpa using hmatch, hbefore⟩⟩

theorem joinFirst?_eq_none (h : joinFirst? o.field type o.target ns = none) :
    ∀ m ∈ ns, matchesNode o.field.node type m = false := by
  induction ns with
  | nil => simp
  | cons n ns ih =>
    rw [joinFirst?] at h
    split at h
    · cases h
    · next hmatch =>
      exact List.forall_mem_cons.2 ⟨by simpa using hmatch, ih (Option.map_eq_none_iff.1 h)⟩

theorem type_of_matchesNode {f : FieldNode} {n : NormalField} (h : matchesNode f type n = true) :
    n.name = f.name ∧ n.type = type := by
  simp only [matchesNode, Bool.and_eq_true, beq_iff_eq] at h
  exact h.1

end

theorem put_of_putOccurrence {sc : Scope} {level : Nat} {buckets buckets' : Buckets}
    {o : Occurrence (List String)} (h : putOccurrence sc level buckets o = .ok buckets') :
    Put sc.schema level buckets o buckets' := by
  unfold putOccurrence at h
  split at h
  · next htarget =>
    obtain rfl := Except.ok.inj h
    exact .skipped (by simp [declaredType?, htarget])
  · next first _ htarget =>
    split at h
    · next hdeclaration =>
      obtain rfl := Except.ok.inj h
      exact .skipped (by simp [declaredType?, htarget, hdeclaration])
    · next type declared? hdeclaration =>
      have htype : declaredType? sc.schema o = some type := by
        simp [declaredType?, htarget, hdeclaration]
      simp only at h
      split at h
      · next ns hjoin =>
        obtain rfl := Except.ok.inj h
        obtain ⟨before, n, after, hns, rfl, hmatch, hbefore⟩ := exists_of_joinFirst? hjoin
        exact .joined htype hns hmatch hbefore
      · next hnone =>
        split at h
        · cases h
        · next arguments _ =>
          obtain rfl := Except.ok.inj h
          exact .started arguments htype (joinFirst?_eq_none hnone)

/-- What nodes have when an occurrence starts them, and keep when they take one, all nodes have
after an occurrence has been put. -/
theorem forall_putOccurrence {sc : Scope} {level : Nat} {buckets buckets' : Buckets}
    {o : Occurrence (List String)} {P : NormalField → Prop} (hjoin : ∀ n, P n → P (join n o))
    (hstart : ∀ type arguments, declaredType? sc.schema o = some type →
      P (start o type level arguments))
    (hb : ∀ k, ∀ n ∈ bucket buckets k, P n) (h : putOccurrence sc level buckets o = .ok buckets') :
    ∀ k, ∀ n ∈ bucket buckets' k, P n := by
  have hinsert : ∀ ns : List NormalField, (∀ n ∈ ns, P n) →
      ∀ k, ∀ n ∈ bucket (Entries.insert o.field.node.responseKey ns buckets) k, P n := by
    intro ns hns k n hn
    rw [bucket_insert] at hn
    split at hn
    · exact hns n hn
    · exact hb k n hn
  cases put_of_putOccurrence h with
  | skipped => exact hb
  | @joined _ before after n _ hns =>
    have hold : ∀ m ∈ before ++ n :: after, P m := fun m hm => hb _ m (hns ▸ hm)
    refine hinsert _ fun m hm => ?_
    rcases List.mem_append.1 hm with hm | hm
    · exact hold m (List.mem_append_left _ hm)
    · rcases List.mem_cons.1 hm with rfl | hm
      · exact hjoin n (hold n (by simp))
      · exact hold m (List.mem_append_right _ (List.mem_cons_of_mem _ hm))
  | started arguments htype =>
    refine hinsert _ fun m hm => ?_
    rcases List.mem_append.1 hm with hm | hm
    · exact hb _ m hm
    · obtain rfl := List.mem_singleton.1 hm
      exact hstart _ arguments htype

/-! ## Filled buckets -/

/-- Buckets after some occurrences: the nodes stand under their keys, and each occurrence
with a declared type has one. -/
structure Filled (s : Schema) (os : List (Occurrence (List String))) (buckets : Buckets) :
    Prop where
  key : ∀ k, ∀ n ∈ bucket buckets k, n.key = k
  home : ∀ o ∈ os, ∀ type, declaredType? s o = some type →
    ∃ n ∈ bucket buckets o.field.node.responseKey, Home n o type

variable {s : Schema} {os : List (Occurrence (List String))} {buckets : Buckets}
  {o : Occurrence (List String)}

/-- Buckets stay filled if the one of the next occurrence grows and has a home for it. -/
theorem Filled.insert (h : Filled s os buckets) {ns : List NormalField}
    (hgrown : Grown o.field.node.responseKey (bucket buckets o.field.node.responseKey) ns)
    (hhome : ∀ type, declaredType? s o = some type → ∃ n ∈ ns, Home n o type) :
    Filled s (os ++ [o]) (Entries.insert o.field.node.responseKey ns buckets) where
  key := by
    intro k n hn
    rw [bucket_insert] at hn
    split at hn
    · next hk =>
      subst hk
      rcases hgrown.origin n hn with hkey | ⟨m, hm, hle⟩
      · exact hkey
      · exact hle.key.trans (h.key _ m hm)
    · exact h.key k n hn
  home := by
    intro o' ho' type htype
    rw [bucket_insert]
    rcases List.mem_append.1 ho' with ho' | ho'
    · obtain ⟨n, hn, hhome'⟩ := h.home o' ho' type htype
      split
      · next hk =>
        obtain ⟨n', hn', hle⟩ := hgrown.kept n (hk ▸ hn)
        exact ⟨n', hn', hhome'.mono hle⟩
      · exact ⟨n, hn, hhome'⟩
    · obtain rfl := List.mem_singleton.1 ho'
      rw [if_pos rfl]
      exact hhome type htype

/-- A node that takes an occurrence grows, and is its home. -/
theorem grown_join {before after : List NormalField} {n : NormalField} {key : String}
    {type : TypeExpr} (hmatch : matchesNode o.field.node type n = true) :
    Grown key (before ++ n :: after) (before ++ join n o :: after) ∧ Home (join n o) o type := by
  obtain ⟨hname, htype⟩ := type_of_matchesNode hmatch
  obtain ⟨htypes, hobjects⟩ := subset_addTypes n.objectTypes o.target
  have hle : n.Le (join n o) := ⟨rfl, rfl, rfl, fun _ hf => List.mem_append_left _ hf, htypes⟩
  refine ⟨⟨fun m hm => ?_, fun m hm => ?_⟩, hname, htype,
    List.mem_append_right _ List.mem_cons_self, hobjects⟩
  · rcases List.mem_append.1 hm with hm | hm
    · exact ⟨m, List.mem_append_left _ hm, .refl m⟩
    · rcases List.mem_cons.1 hm with rfl | hm
      · exact ⟨_, List.mem_append_right _ List.mem_cons_self, hle⟩
      · exact ⟨m, List.mem_append_right _ (List.mem_cons_of_mem _ hm), .refl m⟩
  · rcases List.mem_append.1 hm with hm | hm
    · exact .inr ⟨m, List.mem_append_left _ hm, .refl m⟩
    · rcases List.mem_cons.1 hm with rfl | hm
      · exact .inr ⟨n, List.mem_append_right _ List.mem_cons_self, hle⟩
      · exact .inr ⟨m, List.mem_append_right _ (List.mem_cons_of_mem _ hm), .refl m⟩

/-- Putting an occurrence into buckets keeps them filled. -/
theorem filled_putOccurrence {sc : Scope} {level : Nat} {buckets' : Buckets}
    (hb : Filled sc.schema os buckets) (h : putOccurrence sc level buckets o = .ok buckets') :
    Filled sc.schema (os ++ [o]) buckets' := by
  cases put_of_putOccurrence h with
  | skipped hnone =>
    refine ⟨hb.key, fun o' ho' type htype => ?_⟩
    rcases List.mem_append.1 ho' with ho' | ho'
    · exact hb.home o' ho' type htype
    · obtain rfl := List.mem_singleton.1 ho'
      simp [hnone] at htype
  | joined htype hns hmatch _ =>
    obtain ⟨hgrown, hhome⟩ := grown_join hmatch
    refine hb.insert (hns ▸ hgrown) fun type' htype' => ?_
    obtain rfl := Option.some.inj (htype.symm.trans htype')
    exact ⟨_, List.mem_append_right _ List.mem_cons_self, hhome⟩
  | started arguments htype _ =>
    refine hb.insert ⟨fun n hn => ⟨n, List.mem_append_left _ hn, .refl n⟩, fun n' hn' => ?_⟩
      fun type' htype' => ⟨_, List.mem_append_right _ List.mem_cons_self, rfl,
        Option.some.inj (htype.symm.trans htype'), List.mem_cons_self, fun _ ht => ht⟩
    rcases List.mem_append.1 hn' with hn' | hn'
    · exact .inr ⟨n', hn', .refl n'⟩
    · obtain rfl := List.mem_singleton.1 hn'
      exact .inl rfl

/-- What putting one occurrence into buckets keeps, all occurrences keep. -/
theorem foldlM_putOccurrence {sc : Scope} {level : Nat}
    {I : List (Occurrence (List String)) → Buckets → Prop}
    (hstep : ∀ {os buckets o buckets'}, I os buckets →
      putOccurrence sc level buckets o = .ok buckets' → I (os ++ [o]) buckets')
    {os' : List (Occurrence (List String))} {buckets' : Buckets} (hb : I os buckets)
    (h : os'.foldlM (putOccurrence sc level) buckets = .ok buckets') : I (os ++ os') buckets' := by
  induction os' generalizing os buckets with
  | nil =>
    obtain rfl := Except.ok.inj h
    rwa [List.append_nil]
  | cons o os' ih =>
    rw [List.foldlM_cons] at h
    cases hput : putOccurrence sc level buckets o with
    | error e => simp [hput, bind, Except.bind] at h
    | ok next =>
      simp only [hput, bind, Except.bind] at h
      rw [List.append_cons]
      exact ih (hstep hb hput) h

theorem filled_nil : Filled s [] [] := ⟨fun _ _ hn => by simp [bucket] at hn, by simp⟩

theorem filled_foldlM {sc : Scope} {level : Nat} {os' : List (Occurrence (List String))}
    {buckets' : Buckets} (hb : Filled sc.schema os buckets)
    (h : os'.foldlM (putOccurrence sc level) buckets = .ok buckets') :
    Filled sc.schema (os ++ os') buckets' :=
  foldlM_putOccurrence (fun hb => filled_putOccurrence hb) hb h

/-! ## Levels -/

/-- The nodes of a level are those of the buckets that its occurrences are put into. -/
theorem levelNodes_eq_ok {sc : Scope} {level : Nat} {sets : List SelectionSet}
    {objects : List String} {ns : List NormalField}
    (h : levelNodes sc level sets objects = .ok ns) :
    ∃ buckets : Buckets, ns = buckets.flatMap Prod.snd ∧
      (sets.flatMap fun set => sc.occurrences (restrict sc) set objects).foldlM
        (putOccurrence sc level) [] = .ok buckets := by
  unfold levelNodes at h
  simp only at h
  split at h
  · next buckets hfold => exact ⟨buckets, (Except.ok.inj h).symm, hfold⟩
  · cases h

/-- Every occurrence of a level with a declared type has a node of its key there. -/
theorem exists_home_of_levelNodes {sc : Scope} {level : Nat} {sets : List SelectionSet}
    {objects : List String} {ns : List NormalField}
    (h : levelNodes sc level sets objects = .ok ns) {set : SelectionSet} (hset : set ∈ sets)
    (ho : o ∈ sc.occurrences (restrict sc) set objects) {type : TypeExpr}
    (htype : declaredType? sc.schema o = some type) :
    ∃ n ∈ ns, n.key = o.field.node.responseKey ∧ Home n o type := by
  obtain ⟨buckets, rfl, hfold⟩ := levelNodes_eq_ok h
  have hfilled := filled_foldlM filled_nil hfold
  obtain ⟨n, hn, hhome⟩ := hfilled.home o (List.mem_flatMap.2 ⟨set, hset, ho⟩) type htype
  exact ⟨n, mem_flatMap_of_mem_bucket hn, hfilled.key _ n hn, hhome⟩

theorem exists_of_mapM_eq_ok {α β ε : Type} {f : α → Except ε β} {xs : List α} {ys : List β}
    (h : xs.mapM f = .ok ys) {x : α} (hx : x ∈ xs) : ∃ y ∈ ys, f x = .ok y := by
  induction xs generalizing ys with
  | nil => simp at hx
  | cons x' xs ih =>
    obtain ⟨y, ys', hy, hys, rfl⟩ := Except.mapM_cons_eq_ok h
    rcases List.mem_cons.1 hx with rfl | hx
    · exact ⟨y, List.mem_cons_self, hy⟩
    · obtain ⟨y', hy', hfx⟩ := ih hys hx
      exact ⟨y', List.mem_cons_of_mem _ hy', hfx⟩

/-- Every occurrence of a level with a declared type has a node among the trees of the
level. If the type is composite, the children of the node are the trees of a level with the
selections of the occurrence. -/
theorem exists_node_of_trees {sc : Scope} {n : Nat} {sets : List SelectionSet}
    {objects : List String} {level : Nat} {ts : List NormalNode}
    (h : trees sc n sets objects level = .ok ts) {set : SelectionSet} (hset : set ∈ sets)
    (ho : o ∈ sc.occurrences (restrict sc) set objects) {type : TypeExpr}
    (htype : declaredType? sc.schema o = some type) :
    ∃ f cs, .node f cs ∈ ts ∧ f.key = o.field.node.responseKey ∧ Home f o type ∧
      ∀ below, childObjects? sc.schema f = some below →
        ∃ m sets', trees sc m sets' below (level + 1) = .ok cs ∧ o.field.selections ∈ sets' := by
  cases n with
  | zero => simp [trees] at h
  | succ n =>
    rw [trees] at h
    split at h
    · simp at h
    · next ns hns =>
      obtain ⟨f, hf, hkey, hhome⟩ := exists_home_of_levelNodes hns hset ho htype
      obtain ⟨t, ht, htree⟩ := exists_of_mapM_eq_ok h hf
      have hselections : o.field.selections ∈ f.fields.map Field.selections :=
        List.mem_map.2 ⟨o.field, hhome.field, rfl⟩
      split at htree
      · next hleaf =>
        obtain rfl := Except.ok.inj htree
        exact ⟨f, [], ht, hkey, hhome, fun below hbelow => by simp [hleaf] at hbelow⟩
      · next below hbelow =>
        split at htree
        · next cs hcs =>
          obtain rfl := Except.ok.inj htree
          refine ⟨f, cs, ht, hkey, hhome, fun below' hbelow' => ?_⟩
          obtain rfl := Option.some.inj (hbelow.symm.trans hbelow')
          exact ⟨n, _, hcs, hselections⟩
        · simp at htree

end Normal

end GraphQL
