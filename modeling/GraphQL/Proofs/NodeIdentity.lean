/-
GraphQL.Proofs.NodeIdentity — which selections become one node.

A node stands for a field under a response key, with a declared type and with arguments as
they are written (`Normal.Identity`). Two argument lists are the same if one is a reordering
of the other, literals being equal as written. An occurrence goes to the first node whose
arguments match its own (`Normal.goes`), and matching is decided from one side only: the lists
have one length, and each argument of the node is found among those of the selection.

Arguments match their reorderings, so what stands for the same goes to one node and no two nodes
stand for the same. The other direction takes more. Only as long as no argument is written twice
is matching the same as being a reordering (`argumentsMatch_iff`), hence an equivalence; then
nothing else goes to the node, and it does not matter which node is the first.

* `Normal.classified_putOccurrence` — what one step keeps.
* `Normal.classifies_of_foldlM` — hence how the occurrences of a level go to its nodes.
* `Normal.Classifies.rearranged` — without repeated arguments no order of the occurrences gives
  other classes.
* `NormalTree.nodes_by_identity` — so it is on all levels of every normalized tree.
* `NormalTree.unlike_selections_joined` — a document that writes an argument twice.
-/
import GraphQL.Proofs.NormalDepth

namespace GraphQL

/-! ## Identities -/

namespace Normal

/-- What a node stands for: a field under a response key, with a declared type and with
arguments as written. -/
structure Identity where
  key : String
  name : String
  type : TypeExpr
  arguments : List (String × Literal)

/-- The same up to the order of the arguments. -/
structure Identity.Same (i j : Identity) : Prop where
  key : i.key = j.key
  name : i.name = j.name
  type : i.type = j.type
  arguments : SameArguments i.arguments j.arguments

namespace Identity.Same

variable {i j k : Identity}

theorem refl (i : Identity) : i.Same i := ⟨rfl, rfl, rfl, .refl _⟩

theorem symm (h : i.Same j) : j.Same i :=
  ⟨h.key.symm, h.name.symm, h.type.symm, h.arguments.symm⟩

theorem trans (h : i.Same j) (h' : j.Same k) : i.Same k :=
  ⟨h.key.trans h'.key, h.name.trans h'.name, h.type.trans h'.type,
    h.arguments.trans h'.arguments⟩

end Identity.Same

/-- What an occurrence stands for, with the type that its first object type declares. One
without object types, or without such a type, is left out. -/
def identity? (s : Schema) (o : Occurrence (List String)) : Option Identity :=
  (declaredType? s o).map fun type =>
    ⟨o.field.node.responseKey, o.field.node.name, type, o.field.node.arguments⟩

end Normal

namespace NormalField

/-- What a node stands for. -/
def identity (n : NormalField) : Normal.Identity := ⟨n.key, n.name, n.type, n.written⟩

/-- Whether an occurrence is one for the node: it has the response key of the node, and its
field, its declared type and its arguments match. -/
def takes (s : Schema) (n : NormalField) (o : Occurrence (List String)) : Bool :=
  n.key == o.field.node.responseKey &&
    (Normal.declaredType? s o).any fun type => Normal.matchesNode o.field.node type n

end NormalField

namespace Normal

variable {s : Schema} {o o' : Occurrence (List String)} {n n' : NormalField} {i i' : Identity}

theorem identity?_eq_some (h : identity? s o = some i) :
    declaredType? s o = some i.type ∧ o.field.node.responseKey = i.key ∧
      o.field.node.arguments = i.arguments := by
  obtain ⟨type, htype, rfl⟩ := Option.map_eq_some_iff.1 h
  exact ⟨htype, rfl, rfl⟩

theorem identity?_of_declared {type : TypeExpr} (h : declaredType? s o = some type) :
    identity? s o =
      some ⟨o.field.node.responseKey, o.field.node.name, type, o.field.node.arguments⟩ := by
  rw [identity?, h]
  rfl

theorem identity_join (n : NormalField) (o : Occurrence (List String)) :
    (join n o).identity = n.identity := rfl

/-- What a node takes depends on what it stands for only. -/
theorem takes_of_identity_eq (h : n.identity = n'.identity) : n.takes s = n'.takes s := by
  obtain ⟨hkey, hname, htype, hwritten⟩ := Identity.mk.inj h
  funext o
  simp only [NormalField.takes, matchesNode, hkey, hname, htype, hwritten]

theorem takes_iff_match (hi : identity? s o = some i) :
    n.takes s o = true ↔ n.key = i.key ∧ n.name = i.name ∧ n.type = i.type ∧
      argumentsMatch n.written i.arguments = true := by
  obtain ⟨type, htype, rfl⟩ := Option.map_eq_some_iff.1 hi
  simp only [NormalField.takes, htype, Option.any_some, matchesNode, Bool.and_eq_true,
    beq_iff_eq, and_assoc]

theorem takes_of_dropped (h : identity? s o = none) : n.takes s o = false := by
  simp [NormalField.takes, Option.map_eq_none_iff.1 h]

theorem takes_of_key_ne (h : n.key ≠ o.field.node.responseKey) : n.takes s o = false := by
  simp [NormalField.takes, h]

theorem takes_of_declared {type : TypeExpr} (hkey : n.key = o.field.node.responseKey)
    (htype : declaredType? s o = some type) :
    n.takes s o = matchesNode o.field.node type n := by
  simp [NormalField.takes, hkey, htype]

theorem takes_of_same (hi : identity? s o = some i) (h : n.identity.Same i) :
    n.takes s o = true :=
  (takes_iff_match hi).2 ⟨h.key, h.name, h.type, argumentsMatch_of_same h.arguments⟩

/-- A node takes both or none of two occurrences that stand for the same. -/
theorem takes_congr (hi : identity? s o = some i) (hi' : identity? s o' = some i')
    (h : i.Same i') : n.takes s o = n.takes s o' := by
  have hmono : ∀ {o o' i i'}, identity? s o = some i → identity? s o' = some i' → i.Same i' →
      n.takes s o = true → n.takes s o' = true := by
    intro o o' i i' hi hi' h htakes
    obtain ⟨hkey, hname, htype, hmatch⟩ := (takes_iff_match hi).1 htakes
    exact (takes_iff_match hi').2 ⟨hkey.trans h.key, hname.trans h.name, htype.trans h.type,
      argumentsMatch_trans hmatch h.arguments⟩
  exact Bool.eq_iff_iff.2 ⟨hmono hi hi' h, hmono hi' hi h.symm⟩

/-- A node that writes no argument twice takes only occurrences that stand for the same. -/
theorem takes_iff (hn : WrittenOnce n.written) (hi : identity? s o = some i) :
    n.takes s o = true ↔ n.identity.Same i := by
  refine ⟨fun h => ?_, takes_of_same hi⟩
  obtain ⟨hkey, hname, htype, hmatch⟩ := (takes_iff_match hi).1 h
  exact ⟨hkey, hname, htype, (argumentsMatch_iff hn).1 hmatch⟩

/-! ## Buckets by identity -/

/-- Whether an occurrence goes to a node that comes after others: to the first that takes it. -/
def goes (s : Schema) (before : List NormalField) (n : NormalField)
    (o : Occurrence (List String)) : Bool :=
  n.takes s o && before.all fun m => !m.takes s o

theorem goes_iff {before : List NormalField} :
    goes s before n o = true ↔ n.takes s o = true ∧ ∀ m ∈ before, m.takes s o = false := by
  simp [goes]

theorem goes_of_takes_eq_false {before : List NormalField} (h : n.takes s o = false) :
    goes s before n o = false := by
  simp [goes, h]

/-- Buckets after some occurrences: no two nodes of a key stand for the same, each for what
some occurrence does, a node has the selections of the occurrences that go there, in their
order, and every occurrence that is not left out is taken. -/
structure Classified (s : Schema) (os : List (Occurrence (List String))) (buckets : Buckets) :
    Prop where
  key : ∀ k, ∀ n ∈ bucket buckets k, n.key = k
  apart : ∀ k, (bucket buckets k).Pairwise fun n n' => ¬ n.identity.Same n'.identity
  origin : ∀ k, ∀ n ∈ bucket buckets k, ∃ o ∈ os, identity? s o = some n.identity
  fields : ∀ k before n after, bucket buckets k = before ++ n :: after →
    n.fields = (os.filter (goes s before n)).map Occurrence.field
  home : ∀ o ∈ os, ∀ i, identity? s o = some i → ∃ n ∈ bucket buckets i.key, n.takes s o = true

variable {os : List (Occurrence (List String))} {buckets : Buckets}

/-- One more occurrence that goes to a node adds its selection. -/
theorem fields_concat_of_goes {before : List NormalField} (h : goes s before n o = true) :
    ((os ++ [o]).filter (goes s before n)).map Occurrence.field =
      (os.filter (goes s before n)).map Occurrence.field ++ [o.field] := by
  simp [List.filter_append, h]

/-- One that does not go there changes nothing. -/
theorem fields_concat_of_not_goes {before : List NormalField} (h : goes s before n o = false) :
    ((os ++ [o]).filter (goes s before n)).map Occurrence.field =
      (os.filter (goes s before n)).map Occurrence.field := by
  simp [List.filter_append, h]

/-- A place in a list is before, at or after another. -/
theorem append_cons_cases {α : Type} {before after before' after' : List α} {x x' : α}
    (h : before ++ x :: after = before' ++ x' :: after') :
    (∃ between, before = before' ++ x' :: between) ∨ (before = before' ∧ x = x') ∨
      ∃ between, before' = before ++ x :: between ∧ after = between ++ x' :: after' := by
  rcases List.append_eq_append_iff.1 h with ⟨between, rfl, hrest⟩ | ⟨between, rfl, hrest⟩
  · cases between with
    | nil => exact .inr (.inl ⟨by simp, (List.cons.inj hrest).1⟩)
    | cons y between =>
      obtain ⟨rfl, rfl⟩ := List.cons.inj hrest
      exact .inr (.inr ⟨between, rfl, rfl⟩)
  · cases between with
    | nil => exact .inr (.inl ⟨by simp, (List.cons.inj hrest).1.symm⟩)
    | cons y between =>
      obtain ⟨rfl, rfl⟩ := List.cons.inj hrest
      exact .inl ⟨between, rfl⟩

/-- Buckets stay classified if the nodes of the key of the next occurrence are. -/
theorem Classified.insert (h : Classified s os buckets) {ns : List NormalField}
    (hkey : ∀ n ∈ ns, n.key = o.field.node.responseKey)
    (hapart : ns.Pairwise fun n n' => ¬ n.identity.Same n'.identity)
    (horigin : ∀ n ∈ ns, ∃ o' ∈ os ++ [o], identity? s o' = some n.identity)
    (hfields : ∀ before n after, ns = before ++ n :: after →
      n.fields = ((os ++ [o]).filter (goes s before n)).map Occurrence.field)
    (hkept : ∀ n ∈ bucket buckets o.field.node.responseKey, ∃ n' ∈ ns, n'.identity = n.identity)
    (hnew : ∃ n ∈ ns, n.takes s o = true) :
    Classified s (os ++ [o]) (Entries.insert o.field.node.responseKey ns buckets) where
  key k n hn := by
    rw [bucket_insert] at hn
    split at hn
    · next hk => exact hk ▸ hkey n hn
    · exact h.key k n hn
  apart k := by
    rw [bucket_insert]
    split
    · exact hapart
    · exact h.apart k
  origin k n hn := by
    rw [bucket_insert] at hn
    split at hn
    · exact horigin n hn
    · obtain ⟨o', ho', hi⟩ := h.origin k n hn
      exact ⟨o', List.mem_append_left _ ho', hi⟩
  fields k before n after hns := by
    rw [bucket_insert] at hns
    split at hns
    · exact hfields before n after hns
    · next hk =>
      have hn : n ∈ bucket buckets k := hns ▸ List.mem_append_right _ List.mem_cons_self
      have hskip : n.takes s o = false := takes_of_key_ne (h.key k n hn ▸ hk)
      rw [fields_concat_of_not_goes (goes_of_takes_eq_false hskip)]
      exact h.fields k before n after hns
  home o' ho' i hi := by
    rw [bucket_insert]
    rcases List.mem_append.1 ho' with ho' | ho'
    · obtain ⟨n, hn, htakes⟩ := h.home o' ho' i hi
      split
      · next hk =>
        obtain ⟨n', hn', hidentity⟩ := hkept n (hk ▸ hn)
        exact ⟨n', hn', takes_of_identity_eq hidentity ▸ htakes⟩
      · exact ⟨n, hn, htakes⟩
    · obtain rfl := List.mem_singleton.1 ho'
      rw [if_pos (identity?_eq_some hi).2.1.symm]
      exact hnew

/-- The first node that matches takes the occurrence. -/
theorem Classified.join (h : Classified s os buckets) {type : TypeExpr}
    (htype : declaredType? s o = some type) {before after : List NormalField}
    (hns : bucket buckets o.field.node.responseKey = before ++ n :: after)
    (hmatch : matchesNode o.field.node type n = true)
    (hbefore : ∀ m ∈ before, matchesNode o.field.node type m = false) :
    Classified s (os ++ [o])
      (Entries.insert o.field.node.responseKey (before ++ Normal.join n o :: after) buckets) := by
  have hkey := h.key o.field.node.responseKey
  have hapart := h.apart o.field.node.responseKey
  have horigin := h.origin o.field.node.responseKey
  have hfields := h.fields o.field.node.responseKey
  rw [hns] at hkey hapart horigin hfields
  have hn : n ∈ before ++ n :: after := List.mem_append_right _ List.mem_cons_self
  have htakes : n.takes s o = true := (takes_of_declared (hkey n hn) htype).trans hmatch
  have hskip : ∀ m ∈ before, m.takes s o = false := fun m hm =>
    (takes_of_declared (hkey m (List.mem_append_left _ hm)) htype).trans (hbefore m hm)
  have hidentities : (before ++ Normal.join n o :: after).map NormalField.identity =
      (before ++ n :: after).map NormalField.identity := by
    simp [identity_join]
  -- nodes stand for what nodes stood for
  have hold : ∀ m ∈ before ++ Normal.join n o :: after,
      ∃ m' ∈ before ++ n :: after, m'.identity = m.identity := fun m hm =>
    List.mem_map.1 (hidentities ▸ List.mem_map_of_mem hm)
  refine h.insert (fun m hm => ?_) ?_ (fun m hm => ?_) (fun before' m after' hm => ?_)
    (fun m hm => ?_) ⟨Normal.join n o, List.mem_append_right _ List.mem_cons_self, htakes⟩
  · obtain ⟨m', hm', hidentity⟩ := hold m hm
    exact (congrArg Identity.key hidentity).symm.trans (hkey m' hm')
  · rw [← List.pairwise_map (R := fun i j => ¬ Identity.Same i j)] at hapart ⊢
    rwa [hidentities]
  · obtain ⟨m', hm', hidentity⟩ := hold m hm
    obtain ⟨o', ho', hi⟩ := horigin m' hm'
    exact ⟨o', List.mem_append_left _ ho', hidentity ▸ hi⟩
  · rcases append_cons_cases hm with ⟨between, rfl⟩ | ⟨rfl, rfl⟩ | ⟨between, rfl, rfl⟩
    · have hm' : m ∈ before' ++ m :: between := List.mem_append_right _ List.mem_cons_self
      rw [fields_concat_of_not_goes (goes_of_takes_eq_false (hskip m hm'))]
      exact hfields before' m (between ++ n :: after) (by simp)
    · have hgoes : goes s before (Normal.join n o) = goes s before n := rfl
      rw [hgoes, fields_concat_of_goes (goes_iff.2 ⟨htakes, hskip⟩), ← hfields before n after rfl]
      rfl
    · have hgoes : goes s (before ++ Normal.join n o :: between) m =
          goes s (before ++ n :: between) m := by
        funext o'
        simp only [goes, List.all_append, List.all_cons]
        rfl
      have hnot : goes s (before ++ n :: between) m o = false := by simp [goes, htakes]
      rw [hgoes, fields_concat_of_not_goes hnot]
      exact hfields (before ++ n :: between) m after' (by simp)
  · rw [hns] at hm
    obtain ⟨m', hm', hidentity⟩ := List.mem_map.1 (hidentities ▸ List.mem_map_of_mem hm)
    exact ⟨m', hm', hidentity⟩

/-- No node of the key takes the occurrence: a new one starts with it, and it stands for
something else than they do. -/
theorem Classified.start (h : Classified s os buckets) {type : TypeExpr}
    (htype : declaredType? s o = some type)
    (hnone : ∀ m ∈ bucket buckets o.field.node.responseKey,
      matchesNode o.field.node type m = false) (level : Nat) (arguments : List (String × Json)) :
    Classified s (os ++ [o]) (Entries.insert o.field.node.responseKey
      (bucket buckets o.field.node.responseKey ++ [Normal.start o type level arguments])
      buckets) := by
  have ho : o ∈ os ++ [o] := List.mem_append_right _ List.mem_cons_self
  have hkey := h.key o.field.node.responseKey
  have hi : identity? s o = some (Normal.start o type level arguments).identity :=
    identity?_of_declared htype
  have htakes : (Normal.start o type level arguments).takes s o = true :=
    takes_of_same hi (.refl _)
  have hskip : ∀ m ∈ bucket buckets o.field.node.responseKey, m.takes s o = false :=
    fun m hm => (takes_of_declared (hkey m hm) htype).trans (hnone m hm)
  -- an earlier occurrence is taken by an earlier node
  have hearlier : ∀ o' ∈ os, goes s (bucket buckets o.field.node.responseKey)
      (Normal.start o type level arguments) o' = false := by
    intro o' ho'
    refine Bool.eq_false_iff.2 fun hgoes => ?_
    obtain ⟨htakes', hnot⟩ := goes_iff.1 hgoes
    cases hi' : identity? s o' with
    | none =>
      rw [takes_of_dropped hi'] at htakes'
      cases htakes'
    | some i' =>
      have hkey' : o.field.node.responseKey = i'.key := ((takes_iff_match hi').1 htakes').1
      obtain ⟨m, hm, hm'⟩ := h.home o' ho' i' hi'
      rw [hnot m (hkey' ▸ hm)] at hm'
      cases hm'
  refine h.insert (fun m hm => ?_) ?_ (fun m hm => ?_) (fun before m after hm => ?_)
    (fun m hm => ⟨m, List.mem_append_left _ hm, rfl⟩)
    ⟨_, List.mem_append_right _ List.mem_cons_self, htakes⟩
  · rcases List.mem_append.1 hm with hm | hm
    · exact hkey m hm
    · obtain rfl := List.mem_singleton.1 hm
      rfl
  · refine List.pairwise_append.2
      ⟨h.apart _, List.pairwise_singleton _ _, fun m hm m' hm' hsame => ?_⟩
    obtain rfl := List.mem_singleton.1 hm'
    have hm' := takes_of_same hi hsame
    rw [hskip m hm] at hm'
    cases hm'
  · rcases List.mem_append.1 hm with hm | hm
    · obtain ⟨o', ho', hi'⟩ := h.origin _ m hm
      exact ⟨o', List.mem_append_left _ ho', hi'⟩
    · obtain rfl := List.mem_singleton.1 hm
      exact ⟨o, ho, hi⟩
  · rcases append_cons_cases hm with ⟨between, hbucket⟩ | ⟨rfl, rfl⟩ | ⟨_, _, hnil⟩
    · have hm' : m ∈ bucket buckets o.field.node.responseKey :=
        hbucket ▸ List.mem_append_right _ List.mem_cons_self
      rw [fields_concat_of_not_goes (goes_of_takes_eq_false (hskip m hm'))]
      exact h.fields _ before m between hbucket
    · rw [fields_concat_of_goes (goes_iff.2 ⟨htakes, hskip⟩),
        List.filter_eq_nil_iff.2 fun o' ho' => by simp [hearlier o' ho']]
      rfl
    · simp at hnil

/-- Putting an occurrence into buckets keeps them classified. -/
theorem classified_putOccurrence {sc : Scope} {level : Nat} {buckets' : Buckets}
    (hb : Classified sc.schema os buckets) (h : putOccurrence sc level buckets o = .ok buckets') :
    Classified sc.schema (os ++ [o]) buckets' := by
  cases put_of_putOccurrence h with
  | joined htype hns hmatch hbefore => exact hb.join htype hns hmatch hbefore
  | started arguments htype hnone => exact hb.start htype hnone level arguments
  | skipped hnone =>
    have hdropped : identity? sc.schema o = none := Option.map_eq_none_iff.2 hnone
    refine ⟨hb.key, hb.apart, fun k n hn => ?_, fun k before n after hns => ?_,
      fun o' ho' i hi => ?_⟩
    · obtain ⟨o', ho', hi⟩ := hb.origin k n hn
      exact ⟨o', List.mem_append_left _ ho', hi⟩
    · rw [fields_concat_of_not_goes (goes_of_takes_eq_false (takes_of_dropped hdropped))]
      exact hb.fields k before n after hns
    · rcases List.mem_append.1 ho' with ho' | ho'
      · exact hb.home o' ho' i hi
      · obtain rfl := List.mem_singleton.1 ho'
        exact absurd (hdropped.symm.trans hi) nofun

theorem classified_nil (s : Schema) : Classified s [] [] where
  key _ _ hn := by simp [bucket] at hn
  apart _ := .nil
  origin _ _ hn := by simp [bucket] at hn
  fields _ _ _ _ hns := by simp [bucket] at hns
  home _ ho := by simp at ho

/-! ## The nodes of a level -/

/-- How the occurrences of a level go to its nodes. -/
structure Classifies (s : Schema) (os : List (Occurrence (List String)))
    (ns : List NormalField) : Prop where
  /-- A node has the selections of the occurrences that go there, in their order. -/
  fields : ∀ before n after, ns = before ++ n :: after →
    n.fields = (os.filter (goes s before n)).map Occurrence.field
  /-- It stands for what some occurrence does. -/
  origin : ∀ n ∈ ns, ∃ o ∈ os, identity? s o = some n.identity
  /-- Every occurrence that is not left out goes to a node. -/
  home : ∀ o ∈ os, identity? s o ≠ none →
    ∃ before n after, ns = before ++ n :: after ∧ goes s before n o = true
  dropped : ∀ o ∈ os, identity? s o = none → ∀ n ∈ ns, n.takes s o = false
  /-- Occurrences that stand for the same go to the same node. -/
  together : ∀ o ∈ os, ∀ o' ∈ os, ∀ i i', identity? s o = some i → identity? s o' = some i' →
    i.Same i' → ∀ before n after, ns = before ++ n :: after → goes s before n o = goes s before n o'
  /-- No two nodes stand for the same. -/
  siblings : ns.Pairwise fun n n' => ¬ n.identity.Same n'.identity

variable {ns ns' : List NormalField}

/-- The first node that takes an occurrence. -/
theorem exists_goes (h : ∃ n ∈ ns, n.takes s o = true) :
    ∃ before n after, ns = before ++ n :: after ∧ goes s before n o = true := by
  obtain ⟨n, hfind⟩ := Option.isSome_iff_exists.1 (List.find?_isSome.2 h)
  obtain ⟨htakes, before, after, hns, hbefore⟩ := List.find?_eq_some_iff_append.1 hfind
  exact ⟨before, n, after, hns, goes_iff.2 ⟨htakes, fun m hm => by simpa using hbefore m hm⟩⟩

/-- A place in the lists of some entries is a place in the list of one of them. -/
theorem exists_of_flatMap_snd {α β : Type} {es : List (α × List β)} {before after : List β}
    {x : β} (h : es.flatMap Prod.snd = before ++ x :: after) :
    ∃ es₀ e es₁ inner rest, es = es₀ ++ e :: es₁ ∧ e.2 = inner ++ x :: rest ∧
      before = es₀.flatMap Prod.snd ++ inner := by
  induction es generalizing before with
  | nil => simp at h
  | cons e es ih =>
    have hlater : ∀ between, es.flatMap Prod.snd = between ++ x :: after →
        ∃ es₀ e' es₁ inner rest, e :: es = es₀ ++ e' :: es₁ ∧ e'.2 = inner ++ x :: rest ∧
          e.2 ++ between = es₀.flatMap Prod.snd ++ inner := by
      intro between h
      obtain ⟨es₀, e', es₁, inner, rest, rfl, he', rfl⟩ := ih h
      exact ⟨e :: es₀, e', es₁, inner, rest, rfl, he', by simp⟩
    rw [List.flatMap_cons] at h
    rcases List.append_eq_append_iff.1 h with ⟨between, rfl, hrest⟩ | ⟨between, he, hrest⟩
    · exact hlater _ hrest
    · cases between with
      | nil =>
        rw [List.append_nil] at he
        subst he
        have hlast := hlater [] hrest.symm
        rwa [List.append_nil] at hlast
      | cons y between =>
        obtain ⟨rfl, -⟩ := List.cons.inj hrest
        exact ⟨[], e, es, before, between, rfl, he, rfl⟩

/-- Nodes of other keys do not keep an occurrence from a node. -/
theorem goes_append {others before : List NormalField} (h : ∀ m ∈ others, m.key ≠ n.key) :
    goes s (others ++ before) n = goes s before n := by
  funext o
  by_cases hkey : n.key = o.field.node.responseKey
  · have hskip : others.all (fun m => !m.takes s o) = true := by
      refine List.all_eq_true.2 fun m hm => ?_
      rw [takes_of_key_ne (hkey ▸ h m hm)]
      rfl
    rw [goes, goes, List.all_append, hskip, Bool.true_and]
  · have hskip : n.takes s o = false := takes_of_key_ne hkey
    rw [goes_of_takes_eq_false hskip, goes_of_takes_eq_false hskip]

/-- The occurrences of a level go to the nodes that they are put into one by one. -/
theorem classifies_of_foldlM {sc : Scope} {level : Nat}
    (h : os.foldlM (putOccurrence sc level) [] = .ok buckets) :
    Classifies sc.schema os (buckets.flatMap Prod.snd) := by
  have hsorted : Sorted sc.schema ([] ++ os) buckets :=
    foldlM_putOccurrence (fun hb => sorted_putOccurrence hb) sorted_nil h
  have hclassified : Classified sc.schema ([] ++ os) buckets :=
    foldlM_putOccurrence (fun hb => classified_putOccurrence hb) (classified_nil _) h
  rw [List.nil_append] at hclassified
  have hbucket : ∀ e ∈ buckets, bucket buckets e.1 = e.2 := fun _ he => hsorted.bucket_eq he
  have hkey : ∀ e ∈ buckets, ∀ n ∈ e.2, n.key = e.1 := fun e he n hn =>
    hclassified.key e.1 n (hbucket e he ▸ hn)
  refine ⟨fun before n after hns => ?_, fun n hn => ?_, fun o ho hsome => ?_,
    fun o _ hnone n _ => takes_of_dropped hnone, fun o _ o' _ i i' hi hi' hsame before n _ _ => ?_,
    ?_⟩
  · obtain ⟨es₀, e, es₁, inner, rest, rfl, he, rfl⟩ := exists_of_flatMap_snd hns
    have hmem : e ∈ es₀ ++ e :: es₁ := List.mem_append_right _ List.mem_cons_self
    have hn : n ∈ e.2 := he ▸ List.mem_append_right _ List.mem_cons_self
    have hothers : ∀ m ∈ es₀.flatMap Prod.snd, m.key ≠ n.key := by
      intro m hm
      obtain ⟨e₀, he₀, hm⟩ := List.mem_flatMap.1 hm
      rw [hkey e₀ (List.mem_append_left _ he₀) m hm, hkey e hmem n hn]
      have hkeys := hsorted.keys
      rw [Entries.keys, List.map_append, List.nodup_append] at hkeys
      exact hkeys.2.2 _ (List.mem_map_of_mem he₀) _ (List.mem_map_of_mem List.mem_cons_self)
    rw [goes_append hothers]
    exact hclassified.fields e.1 inner n rest ((hbucket e hmem).trans he)
  · obtain ⟨e, he, hn⟩ := List.mem_flatMap.1 hn
    exact hclassified.origin e.1 n (hbucket e he ▸ hn)
  · obtain ⟨i, hi⟩ := Option.ne_none_iff_exists'.1 hsome
    obtain ⟨n, hn, htakes⟩ := hclassified.home o ho i hi
    exact exists_goes ⟨n, mem_flatMap_of_mem_bucket hn, htakes⟩
  · have htakes : ∀ m : NormalField, m.takes sc.schema o = m.takes sc.schema o' :=
      fun m => takes_congr hi hi' hsame
    simp only [goes, htakes]
  · refine List.pairwise_flatMap.2 ⟨fun e he => hbucket e he ▸ hclassified.apart e.1, ?_⟩
    -- nodes of different keys differ in their keys
    have hkeys : buckets.Pairwise fun e e' => e.1 ≠ e'.1 := List.pairwise_map.1 hsorted.keys
    refine hkeys.imp_of_mem fun {e e'} he he' hne n hn n' hn' hsame => hne ?_
    rw [← hkey e he n hn, ← hkey e' he' n' hn']
    exact hsame.key

/-! ## Levels without repeated arguments -/

/-- Two nodes are one class: they stand for the same, take the same occurrences, and have the
same selections, perhaps in another order. -/
structure SameClass (s : Schema) (os : List (Occurrence (List String)))
    (n n' : NormalField) : Prop where
  identity : n.identity.Same n'.identity
  takes : ∀ o ∈ os, n.takes s o = n'.takes s o
  fields : n.fields.Perm n'.fields

/-- The nodes of a level are the classes of its occurrences by what they stand for. -/
structure ByIdentity (sc : Scope) (os : List (Occurrence (List String)))
    (ns : List NormalField) : Prop where
  /-- Occurrences go to one node exactly if they stand for the same. -/
  together : ∀ o ∈ os, ∀ o' ∈ os, ∀ i i',
    identity? sc.schema o = some i → identity? sc.schema o' = some i' →
      ((∃ before n after, ns = before ++ n :: after ∧
        goes sc.schema before n o = true ∧ goes sc.schema before n o' = true) ↔ i.Same i')
  /-- In whatever order the occurrences are put into nodes, the nodes are of the same classes. -/
  anyOrder : ∀ os', os.Perm os' → ∀ level buckets,
    os'.foldlM (putOccurrence sc level) [] = .ok buckets →
      ∃ ms, ms.Perm (buckets.flatMap Prod.snd) ∧ List.Forall₂ (SameClass sc.schema os) ns ms

namespace Classifies

variable {os' : List (Occurrence (List String))}

theorem writtenOnce (h : Classifies s os ns)
    (hos : ∀ o ∈ os, WrittenOnce o.field.node.arguments) {n : NormalField} (hn : n ∈ ns) :
    WrittenOnce n.written := by
  obtain ⟨o, ho, hi⟩ := h.origin n hn
  have harguments : o.field.node.arguments = n.written := (identity?_eq_some hi).2.2
  exact harguments ▸ hos o ho

theorem takes_iff_same (h : Classifies s os ns)
    (hos : ∀ o ∈ os, WrittenOnce o.field.node.arguments) (hn : n ∈ ns)
    (hi : identity? s o = some i) : n.takes s o = true ↔ n.identity.Same i :=
  takes_iff (h.writtenOnce hos hn) hi

theorem same_iff_together (h : Classifies s os ns)
    (hos : ∀ o ∈ os, WrittenOnce o.field.node.arguments) (ho : o ∈ os) (ho' : o' ∈ os)
    (hi : identity? s o = some i) (hi' : identity? s o' = some i') :
    (∃ before n after, ns = before ++ n :: after ∧
      goes s before n o = true ∧ goes s before n o' = true) ↔ i.Same i' := by
  refine ⟨?_, fun hsame => ?_⟩
  · rintro ⟨before, n, after, rfl, hgoes, hgoes'⟩
    have hn : n ∈ before ++ n :: after := List.mem_append_right _ List.mem_cons_self
    have hsame := (h.takes_iff_same hos hn hi).1 (goes_iff.1 hgoes).1
    exact hsame.symm.trans ((h.takes_iff_same hos hn hi').1 (goes_iff.1 hgoes').1)
  · obtain ⟨before, n, after, hns, hgoes⟩ := h.home o ho (by simp [hi])
    have hboth := h.together o ho o' ho' i i' hi hi' hsame before n after hns
    exact ⟨before, n, after, hns, hgoes, hboth ▸ hgoes⟩

/-- No earlier node keeps an occurrence from a node that takes it. -/
theorem goes_eq_takes (h : Classifies s os ns)
    (hos : ∀ o ∈ os, WrittenOnce o.field.node.arguments) {before after : List NormalField}
    (hns : ns = before ++ n :: after) : goes s before n o = n.takes s o := by
  cases hi : identity? s o with
  | none => rw [takes_of_dropped hi, goes_of_takes_eq_false (takes_of_dropped hi)]
  | some i =>
    refine Bool.eq_iff_iff.2 ⟨fun hgoes => (goes_iff.1 hgoes).1, fun htakes => ?_⟩
    refine goes_iff.2 ⟨htakes, fun m hm => Bool.eq_false_iff.2 fun hm' => ?_⟩
    subst hns
    have hsame := (h.takes_iff_same hos (by simp) hi).1 htakes
    have hsame' := (h.takes_iff_same hos (List.mem_append_left _ hm) hi).1 hm'
    exact (List.pairwise_append.1 h.siblings).2.2 m hm n List.mem_cons_self
      (hsame'.trans hsame.symm)

/-- A node has the selections of all occurrences that it takes. -/
theorem fields_eq (h : Classifies s os ns)
    (hos : ∀ o ∈ os, WrittenOnce o.field.node.arguments) {n : NormalField} (hn : n ∈ ns) :
    n.fields = (os.filter (n.takes s)).map Occurrence.field := by
  obtain ⟨before, after, hns⟩ := List.append_of_mem hn
  have hgoes : goes s before n = n.takes s := funext fun _ => h.goes_eq_takes hos hns
  rw [h.fields before n after hns, hgoes]

/-- Each node has one of the same class among those of another order, all of them different. -/
theorem exists_classes (h : Classifies s os ns) (h' : Classifies s os' ns')
    (hos : ∀ o ∈ os, WrittenOnce o.field.node.arguments) (hperm : os.Perm os') :
    ∃ ms ⊆ ns', ms.Nodup ∧ List.Forall₂ (SameClass s os) ns ms := by
  have hos' : ∀ o ∈ os', WrittenOnce o.field.node.arguments :=
    fun o ho => hos o (hperm.mem_iff.2 ho)
  have hclass : ∀ n ∈ ns, ∀ n' ∈ ns', n.identity.Same n'.identity → SameClass s os n n' := by
    intro n hn n' hn' hsame
    have htakes : ∀ o ∈ os, n.takes s o = n'.takes s o := by
      intro o ho
      cases hi : identity? s o with
      | none => rw [takes_of_dropped hi, takes_of_dropped hi]
      | some i =>
        rw [Bool.eq_iff_iff, h.takes_iff_same hos hn hi, h'.takes_iff_same hos' hn' hi]
        exact ⟨hsame.symm.trans, hsame.trans⟩
    refine ⟨hsame, htakes, ?_⟩
    rw [h.fields_eq hos hn, h'.fields_eq hos' hn', List.filter_congr htakes]
    exact (hperm.filter _).map _
  have hpartner : ∀ n ∈ ns, ∃ n' ∈ ns', SameClass s os n n' := by
    intro n hn
    obtain ⟨o, ho, hi⟩ := h.origin n hn
    obtain ⟨before, n', after, hns', hgoes⟩ := h'.home o (hperm.mem_iff.1 ho) (by simp [hi])
    have hn' : n' ∈ ns' := hns' ▸ List.mem_append_right _ List.mem_cons_self
    have hsame := (h'.takes_iff_same hos' hn' hi).1 (goes_iff.1 hgoes).1
    exact ⟨n', hn', hclass n hn n' hn' hsame.symm⟩
  obtain ⟨ms, hsub, hforall⟩ := exists_partners hpartner
  refine ⟨ms, hsub, List.pairwise_iff_getElem.2 fun i j hi hj hij heq => ?_, hforall⟩
  -- two that are one node would be of the class of two nodes that stand for different things
  have hi' : i < ns.length := hforall.length_eq ▸ hi
  have hj' : j < ns.length := hforall.length_eq ▸ hj
  have hsame : ns[i].identity.Same ms[i].identity := (hforall.get hi' hi).identity
  have hsame' : ns[j].identity.Same ms[j].identity := (hforall.get hj' hj).identity
  rw [heq] at hsame
  exact List.pairwise_iff_getElem.1 h.siblings i j hi' hj' hij (hsame.trans hsame'.symm)

/-- The partition does not depend on the order of the occurrences. -/
theorem rearranged (h : Classifies s os ns) (h' : Classifies s os' ns')
    (hos : ∀ o ∈ os, WrittenOnce o.field.node.arguments) (hperm : os.Perm os') :
    ∃ ms, ms.Perm ns' ∧ List.Forall₂ (SameClass s os) ns ms := by
  obtain ⟨ms, hsub, hnodup, hforall⟩ := h.exists_classes h' hos hperm
  have hos' : ∀ o ∈ os', WrittenOnce o.field.node.arguments :=
    fun o ho => hos o (hperm.mem_iff.2 ho)
  obtain ⟨ms', hsub', hnodup', hforall'⟩ := h'.exists_classes h hos' hperm.symm
  refine ⟨ms, (hnodup.subperm hsub).perm_of_length_le ?_, hforall⟩
  rw [hforall'.length_eq, ← hforall.length_eq]
  exact (hnodup'.subperm hsub').length_le

end Classifies

/-- The nodes of a level classify its occurrences, and they do by identity if no selection
writes an argument twice. -/
theorem classifies_of_levelNodes {sc : Scope} {sets : List SelectionSet} {objects : List String}
    {level : Nat} (h : levelNodes sc level sets objects = .ok ns) :
    Classifies sc.schema (levelOccurrences sc sets objects) ns ∧
      ((∀ o ∈ levelOccurrences sc sets objects, WrittenOnce o.field.node.arguments) →
        ByIdentity sc (levelOccurrences sc sets objects) ns) := by
  obtain ⟨buckets, rfl, hfold⟩ := levelNodes_eq_ok h
  have hclasses := classifies_of_foldlM hfold
  refine ⟨hclasses, fun hos => ⟨fun o ho o' ho' i i' hi hi' => ?_, fun os' hperm _ _ hfold' => ?_⟩⟩
  · exact hclasses.same_iff_together hos ho ho' hi hi'
  · exact hclasses.rearranged (classifies_of_foldlM hfold') hos hperm

end Normal

/-! ## All levels of a tree -/

namespace NormalTree

open GraphQL.Normal

/-- In every normalized tree each node is on a level, and on each level the occurrences go to the
first nodes that take them: those that stand for the same to one node, and no two nodes stand for
the same. If no selection of the level writes an argument twice, only those that stand for the
same go to one node, and no order of them gives other classes. -/
theorem nodes_by_identity {s : Schema} {d : Document} {operation? : Option String}
    {vars : VariableValues} {t : NormalTree} (h : ofDocument s d operation? vars = .ok t) :
    ∃ o root, d.operation operation? = .ok o ∧ o.rootTypeName s = .ok root ∧
      (∀ u ∈ NormalNode.preorders t.top,
        ∃ sets objects ts, Level s o root t sets objects ts ∧ u ∈ ts) ∧
      ∀ sets objects ts, Level s o root t sets objects ts →
        let sc := Scope.ofDocument s d vars
        let os := levelOccurrences sc sets objects
        Classifies s os (ts.map NormalNode.field) ∧
          ((∀ x ∈ os, WrittenOnce x.field.node.arguments) →
            ByIdentity sc os (ts.map NormalNode.field)) := by
  obtain ⟨o, root, ho, hroot, htop⟩ := trees_of_ofDocument h
  refine ⟨o, root, ho, hroot, fun u hu => exists_level htop hu, fun sets objects ts hlevel => ?_⟩
  obtain ⟨m, level, htrees⟩ := hlevel.exists_trees htop
  exact classifies_of_levelNodes (fields_of_trees htrees)

/-- A schema of one field with two arguments. -/
def pairSchema : Schema :=
  let a : InputValue := ⟨"a", .named "Int", none⟩
  let b : InputValue := ⟨"b", .named "Int", none⟩
  (Schema.ofQueryType "Query").register
    (.object ⟨"Query", .ofList [⟨"f", .ofList [a, b], .named "String", none⟩], []⟩)

/-- The occurrences of the top level. -/
def pairOccurrences (d : Document) (o : Operation) : List (Occurrence (List String)) :=
  levelOccurrences (.ofDocument pairSchema d []) [o.selections] ["Query"]

/-- The same arguments in another order, by a fragment, and others. -/
def reorderedText : String :=
  "{ f(a: 1, b: 2) f(a: 3) ...again } fragment again on Query { f(b: 2, a: 1) f(b: 3) }"

theorem nodes_by_identity_reordered :
    ∃ d o t, Document.parse reorderedText = .ok d ∧ d.operation none = .ok o ∧
      ofDocument pairSchema d none [] = .ok t ∧
      t.top.map (fun u => (u.field.key, u.field.fields.length)) = [("f", 2), ("f", 1), ("f", 1)] ∧
      Classifies pairSchema (pairOccurrences d o) (t.top.map NormalNode.field) ∧
      ByIdentity (.ofDocument pairSchema d []) (pairOccurrences d o)
        (t.top.map NormalNode.field) := by
  have hcheck : ((Document.parse reorderedText).toOption.any fun d =>
      (d.operation none).toOption.any fun o =>
        (ofDocument pairSchema d none []).toOption.any fun t =>
          t.top.map (fun u => (u.field.key, u.field.fields.length)) ==
              [("f", 2), ("f", 1), ("f", 1)] &&
            (o.rootTypeName pairSchema).toOption == some "Query" &&
            (pairOccurrences d o).all fun x => decide (WrittenOnce x.field.node.arguments)) =
      true := by
    decide +kernel
  obtain ⟨d, hd, hcheck⟩ := Except.exists_of_any hcheck
  obtain ⟨o, ho, hcheck⟩ := Except.exists_of_any hcheck
  obtain ⟨t, ht, hcheck⟩ := Except.exists_of_any hcheck
  simp only [Bool.and_eq_true, beq_iff_eq, List.all_eq_true, decide_eq_true_eq] at hcheck
  obtain ⟨⟨hfields, hquery⟩, honce⟩ := hcheck
  obtain ⟨o', root, ho', hroot, -, hlevels⟩ := nodes_by_identity ht
  obtain rfl := Except.ok.inj (ho.symm.trans ho')
  obtain rfl := Except.ok.inj (hroot.symm.trans (Except.toOption_eq_some hquery))
  obtain ⟨hclasses, hidentity⟩ := hlevels _ _ _ .top
  exact ⟨d, o, t, hd, ho, ht, hfields, hclasses, hidentity honce⟩

/-- Two selections of `f` with different arguments. -/
def repeatedText : String := "{ f(a: 1, a: 1) f(a: 1, b: 2) }"

/-- A selection that writes an argument twice is joined by one with other arguments, but not if
the other one comes first. -/
theorem unlike_selections_joined :
    ∃ d o t x y i j n, Document.parse repeatedText = .ok d ∧ d.operation none = .ok o ∧
      ofDocument pairSchema d none [] = .ok t ∧ pairOccurrences d o = [x, y] ∧
      identity? pairSchema x = some i ∧ identity? pairSchema y = some j ∧ i.key = j.key ∧
      ¬ i.Same j ∧ t.top.map NormalNode.field = [n] ∧
      goes pairSchema [] n x = true ∧ goes pairSchema [] n y = true ∧
      ∃ buckets, [y, x].foldlM (putOccurrence (.ofDocument pairSchema d []) 1) [] = .ok buckets ∧
        (buckets.flatMap Prod.snd).length = 2 := by
  have hcheck : ((Document.parse repeatedText).toOption.any fun d =>
      (d.operation none).toOption.any fun o =>
        (ofDocument pairSchema d none []).toOption.any fun t =>
          (pairOccurrences d o).length == 2 && (t.top.map NormalNode.field).length == 1 &&
          (pairOccurrences d o).head?.any fun x => (pairOccurrences d o).getLast?.any fun y =>
            (identity? pairSchema x).any (fun i => (identity? pairSchema y).any fun j =>
              i.key == j.key && !argumentsMatch j.arguments i.arguments) &&
            (t.top.map NormalNode.field).all (fun n =>
              goes pairSchema [] n x && goes pairSchema [] n y) &&
            ([y, x].foldlM (putOccurrence (.ofDocument pairSchema d []) 1) []).toOption.any
              fun buckets => (buckets.flatMap Prod.snd).length == 2) = true := by
    decide +kernel
  obtain ⟨d, hd, hcheck⟩ := Except.exists_of_any hcheck
  obtain ⟨o, ho, hcheck⟩ := Except.exists_of_any hcheck
  obtain ⟨t, ht, hcheck⟩ := Except.exists_of_any hcheck
  obtain ⟨hlengths, hcheck⟩ := Bool.and_eq_true_iff.1 hcheck
  simp only [Bool.and_eq_true, beq_iff_eq] at hlengths
  obtain ⟨x, y, hxy⟩ := List.length_eq_two.1 hlengths.1
  obtain ⟨n, hn⟩ := List.length_eq_one_iff.1 hlengths.2
  simp only [hxy, hn, List.head?_cons, List.getLast?_cons_cons, List.getLast?_singleton,
    Option.any_some, List.all_cons, List.all_nil, Bool.and_true, Bool.and_eq_true,
    Option.any_eq_true, Bool.not_eq_true', beq_iff_eq] at hcheck
  obtain ⟨⟨⟨i, hi, j, hj, hkey, hmatch⟩, hx, hy⟩, buckets, hfold, hlength⟩ := hcheck
  refine ⟨d, o, t, x, y, i, j, n, hd, ho, ht, hxy, hi, hj, hkey, fun hsame => ?_, hn, hx, hy,
    buckets, Except.toOption_eq_some hfold, hlength⟩
  -- the other way round the arguments would match
  rw [argumentsMatch_of_same hsame.arguments.symm] at hmatch
  cases hmatch

end NormalTree

end GraphQL
