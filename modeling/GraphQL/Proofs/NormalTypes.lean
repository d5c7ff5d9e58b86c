/-
GraphQL.Proofs.NormalTypes — the object types of normalized nodes.

One walk narrows a list of object types at each type condition and goes on with what is
left, be it nothing; the other looks at one object type and stops where a condition excludes
it. Both meet the same fields for an object type, in the same order
(`Normal.fieldsFor_occurrences`).

The occurrences of a level go into nodes, each into the first that matches. Since a node keeps
its name, its type and its arguments, the first match of a selection stays the first: no later
node of its key has the selection (`Normal.Apart`). So a selection of one declared type is in
one node, whatever object types it was met on, and that node has collected all of them.

* `Normal.sorted_putOccurrence` — what one step keeps.
* `Normal.objectTypes_exact` — a node has exactly the object types that one of its selections
  is collected for.
-/
import GraphQL.Proofs.NormalLevel
import GraphQL.Proofs.Traversal
import GraphQL.Proofs.WrittenArguments

namespace GraphQL

/-! ## The walk for one object type -/

namespace Normal

/-- The fields that are met on an object type, whatever others they are met on as well. -/
def fieldsFor (object : String) (os : List (Occurrence (List String))) : List Field :=
  os.filterMap fun o => if object ∈ o.target then some o.field else none

theorem fieldsFor_append (object : String) (os os' : List (Occurrence (List String))) :
    fieldsFor object (os ++ os') = fieldsFor object os ++ fieldsFor object os' :=
  List.filterMap_append

theorem mem_fieldsFor {object : String} {os : List (Occurrence (List String))} {f : Field} :
    f ∈ fieldsFor object os ↔ ∃ o ∈ os, object ∈ o.target ∧ o.field = f := by
  simp [fieldsFor]

/-- A walk over lists of object types meets for one of them what the walk on it alone meets,
and nothing if it is not in the list. -/
def Projects (object : String) (body : List String → List (Occurrence (List String)))
    (alone : List (Occurrence String)) : Prop :=
  ∀ objects, fieldsFor object (body objects) =
    if object ∈ objects then alone.map Occurrence.field else []

variable {sc : Scope} {object : String}

namespace Projects

theorem nil : Projects object (fun _ => []) [] := fun objects => by simp [fieldsFor]

theorem append {body body' : List String → List (Occurrence (List String))}
    {alone alone' : List (Occurrence String)} (h : Projects object body alone)
    (h' : Projects object body' alone') :
    Projects object (fun objects => body objects ++ body' objects) (alone ++ alone') := by
  intro objects
  rw [fieldsFor_append, h, h']
  split <;> simp

theorem single (f : Field) :
    Projects object (fun objects => [⟨f, objects⟩]) [⟨f, object⟩] := by
  intro objects
  by_cases h : object ∈ objects <;> simp [fieldsFor, h]

/-- A type condition leaves an object type in the list exactly if it lets it pass alone. -/
theorem mem_restricted {condition : String} {objects : List String} :
    object ∈ (restrict sc condition objects).getD [] ↔
      object ∈ objects ∧ sc.schema.covers condition object = true := by
  rw [restrict, Option.getD_some, List.mem_filter]
  rfl

theorem under {body : List String → List (Occurrence (List String))}
    {alone : String → List (Occurrence String)} (h : Projects object body (alone object))
    (condition? : Option String) (directives : List Directive) :
    Projects object (occurrencesUnder sc (restrict sc) condition? directives body)
      (occurrencesUnder sc sc.restrictObject condition? directives alone object) := by
  intro objects
  unfold occurrencesUnder
  by_cases hincludes : sc.includes directives = true
  · rw [if_pos hincludes, if_pos hincludes]
    cases condition? with
    | none => exact h objects
    | some c =>
      have hbody := h ((restrict sc c objects).getD [])
      simp only [mem_restricted] at hbody
      cases hcovers : sc.schema.covers c object with
      | false =>
        simpa only [Scope.restrictObject, hcovers, restrict, Option.getD_some, Bool.false_eq_true,
          and_false, if_false, List.map_nil, ite_self] using hbody
      | true =>
        simpa only [Scope.restrictObject, hcovers, restrict, Option.getD_some, and_true, if_true]
          using hbody
  · rw [if_neg hincludes, if_neg hincludes]
    exact nil objects

theorem occurrences {enter : String → List String → List (Occurrence (List String))}
    {alone : String → String → List (Occurrence String)}
    (henter : ∀ name, Projects object (enter name) (alone name object)) (set : SelectionSet) :
    Projects object (set.occurrences sc (restrict sc) enter)
      (set.occurrences sc sc.restrictObject alone object) := by
  induction set with
  | nil => exact nil
  | field node sub rest _ ih =>
    refine append ?_ ih
    by_cases hincludes : sc.includes node.directives = true
    · simp only [hincludes, if_true]
      exact single _
    · simp only [hincludes]
      exact nil
  | inline head sub rest ihs ih => exact append (ihs.under _ _) ih
  | spread spread rest ih =>
    refine append ?_ ih
    by_cases hincludes : sc.includes spread.directives = true
    · simp only [hincludes, if_true]
      exact henter _
    · simp only [hincludes]
      exact nil

/-- By induction on how many fragments may still be entered inside each other: both walks
have the same fragments left. -/
theorem enterFragment (n : Nat) (available : List Fragment) (name : String) :
    Projects object (sc.enterFragment (restrict sc) n available name)
      (sc.enterFragment sc.restrictObject n available name object) := by
  induction n generalizing available name with
  | zero => exact nil
  | succ n ih =>
    cases hf : available.find? fun f => f.name == name with
    | none =>
      intro objects
      simp only [Scope.enterFragment, hf]
      exact nil objects
    | some f =>
      have hbody : Projects object (f.selections.occurrences sc (restrict sc) _)
          (f.selections.occurrences sc sc.restrictObject _ object) :=
        occurrences (fun inner => ih (available.filter fun g => g.name != name) inner) f.selections
      intro objects
      simp only [Scope.enterFragment, hf]
      exact hbody.under (some f.condition) f.directives objects

end Projects

/-- The occurrences of a level of the normalized tree. -/
def levelOccurrences (sc : Scope) (sets : List SelectionSet) (objects : List String) :
    List (Occurrence (List String)) :=
  sets.flatMap fun set => sc.occurrences (restrict sc) set objects

/-- Normalization meets for each of its object types the fields that are collected for it, and
for no other object type any. -/
theorem fieldsFor_levelOccurrences (sc : Scope) (object : String) (sets : List SelectionSet)
    (objects : List String) :
    fieldsFor object (levelOccurrences sc sets objects) =
      if object ∈ objects then sc.fieldsOn object sets else [] := by
  unfold levelOccurrences Scope.fieldsOn
  induction sets with
  | nil => simp [fieldsFor]
  | cons set sets ih =>
    have hset : Projects object (sc.occurrences (restrict sc) set)
        (sc.occurrences sc.restrictObject set object) :=
      .occurrences (fun name => .enterFragment _ _ name) set
    rw [List.flatMap_cons, fieldsFor_append, ih, hset objects, List.flatMap_cons]
    split <;> simp

/-- A field is collected for an object type exactly if it is met on it. -/
theorem mem_fieldsOn_iff {sets : List SelectionSet} {objects : List String} {f : Field} :
    object ∈ objects ∧ f ∈ sc.fieldsOn object sets ↔
      ∃ o ∈ levelOccurrences sc sets objects, object ∈ o.target ∧ o.field = f := by
  rw [← mem_fieldsFor, fieldsFor_levelOccurrences]
  by_cases h : object ∈ objects <;> simp [h]

end Normal

namespace Normal

/-! ## Nodes apart -/

/-- A node would not have taken a selection of a later one. -/
def Apart (n n' : NormalField) : Prop := ∀ f ∈ n'.fields, matchesNode f.node n'.type n = false

/-- A node and the occurrences that have gone into it: each of its selections matches it and
was met, as one of its type, and each of its object types was met with one of them. -/
structure Own (s : Schema) (os : List (Occurrence (List String))) (n : NormalField) : Prop where
  fields : ∀ f ∈ n.fields, matchesNode f.node n.type n = true ∧
    ∃ o ∈ os, o.field = f ∧ declaredType? s o = some n.type
  objectTypes : ∀ object ∈ n.objectTypes, ∃ o ∈ os, object ∈ o.target ∧ o.field ∈ n.fields

/-- Buckets after some occurrences: no two of a key, the nodes of each apart, and every node
made of occurrences. -/
structure Sorted (s : Schema) (os : List (Occurrence (List String))) (buckets : Buckets) :
    Prop where
  keys : (Entries.keys buckets).Nodup
  apart : ∀ k, (bucket buckets k).Pairwise Apart
  own : ∀ k, ∀ n ∈ bucket buckets k, Own s os n
  responseKey : ∀ k, ∀ n ∈ bucket buckets k, ∀ f ∈ n.fields, f.node.responseKey = k

variable {s : Schema} {os : List (Occurrence (List String))} {o : Occurrence (List String)}
  {n : NormalField} {ns ns' : List NormalField} {type : TypeExpr}

theorem Own.mono (h : Own s os n) {os' : List (Occurrence (List String))} (hsub : os ⊆ os') :
    Own s os' n where
  fields f hf := by
    obtain ⟨hmatch, o, ho, hrest⟩ := h.fields f hf
    exact ⟨hmatch, o, hsub ho, hrest⟩
  objectTypes object hobject := by
    obtain ⟨o, ho, hrest⟩ := h.objectTypes object hobject
    exact ⟨o, hsub ho, hrest⟩

theorem mem_addTypes {types new : List String} {t : String} (h : t ∈ addTypes types new) :
    t ∈ types ∨ t ∈ new := by
  unfold addTypes at h
  induction new generalizing types with
  | nil => exact .inl h
  | cons u new ih =>
    rw [List.foldl_cons] at h
    rcases ih h with h | h
    · split at h
      · exact .inl h
      · rcases List.mem_append.1 h with h | h
        · exact .inl h
        · exact .inr (List.mem_singleton.1 h ▸ List.mem_cons_self)
    · exact .inr (List.mem_cons_of_mem _ h)

/-- The nodes of a key stay apart when the first that matches takes an occurrence: no earlier
node matches it, and what later ones are apart from has not changed. -/
theorem apart_join {before after : List NormalField}
    (h : (before ++ n :: after).Pairwise Apart) (hmatch : matchesNode o.field.node type n = true)
    (hbefore : ∀ m ∈ before, matchesNode o.field.node type m = false) :
    (before ++ join n o :: after).Pairwise Apart := by
  rw [List.pairwise_append, List.pairwise_cons] at h ⊢
  obtain ⟨hb, ⟨hn, hafter⟩, hacross⟩ := h
  refine ⟨hb, ⟨hn, hafter⟩, fun m hm m' hm' => ?_⟩
  rcases List.mem_cons.1 hm' with rfl | hm'
  · intro f hf
    rcases List.mem_append.1 hf with hf | hf
    · exact hacross m hm n List.mem_cons_self f hf
    · obtain rfl := List.mem_singleton.1 hf
      rw [join, (type_of_matchesNode hmatch).2]
      exact hbefore m hm
  · exact hacross m hm m' (List.mem_cons_of_mem _ hm')

theorem Own.join (h : Own s os n) (hmatch : matchesNode o.field.node type n = true)
    (htype : declaredType? s o = some type) : Own s (os ++ [o]) (join n o) where
  fields f hf := by
    obtain rfl := (type_of_matchesNode hmatch).2
    rcases List.mem_append.1 hf with hf | hf
    · exact (h.mono (List.subset_append_left _ _)).fields f hf
    · obtain rfl := List.mem_singleton.1 hf
      exact ⟨hmatch, o, List.mem_append_right _ List.mem_cons_self, rfl, htype⟩
  objectTypes object hobject := by
    rcases mem_addTypes hobject with hobject | hobject
    · obtain ⟨o', ho', htarget, hfield⟩ := h.objectTypes object hobject
      exact ⟨o', List.mem_append_left _ ho', htarget, List.mem_append_left _ hfield⟩
    · exact ⟨o, List.mem_append_right _ List.mem_cons_self, hobject,
        List.mem_append_right _ List.mem_cons_self⟩

/-- Buckets stay sorted if the nodes of the key of the next occurrence are. -/
theorem Sorted.insert {buckets : Buckets} (h : Sorted s os buckets)
    (hapart : ns'.Pairwise Apart) (hown : ∀ n ∈ ns', Own s (os ++ [o]) n)
    (hkey : ∀ n ∈ ns', ∀ f ∈ n.fields, f.node.responseKey = o.field.node.responseKey) :
    Sorted s (os ++ [o]) (Entries.insert o.field.node.responseKey ns' buckets) where
  keys := by
    rw [Entries.keys_insert]
    split
    · exact h.keys
    · next hnew =>
      refine List.nodup_append.2 ⟨h.keys, List.nodup_singleton _, fun k hk k' hk' hsame => ?_⟩
      obtain rfl := List.mem_singleton.1 hk'
      exact hnew (hsame ▸ hk)
  apart k := by
    rw [bucket_insert]
    split
    · exact hapart
    · exact h.apart k
  own k n hn := by
    rw [bucket_insert] at hn
    split at hn
    · exact hown n hn
    · exact (h.own k n hn).mono (List.subset_append_left _ _)
  responseKey k n hn := by
    rw [bucket_insert] at hn
    split at hn
    · next hk => exact hk ▸ hkey n hn
    · exact h.responseKey k n hn

/-- The first node of the key that matches takes the occurrence. -/
theorem Sorted.join {buckets : Buckets} {before after : List NormalField}
    (h : Sorted s os buckets)
    (hns : bucket buckets o.field.node.responseKey = before ++ n :: after)
    (hmatch : matchesNode o.field.node type n = true)
    (hbefore : ∀ m ∈ before, matchesNode o.field.node type m = false)
    (htype : declaredType? s o = some type) :
    Sorted s (os ++ [o])
      (Entries.insert o.field.node.responseKey (before ++ Normal.join n o :: after) buckets) := by
  have hapart := h.apart o.field.node.responseKey
  have hown := h.own o.field.node.responseKey
  have hkey := h.responseKey o.field.node.responseKey
  rw [hns] at hapart hown hkey
  have hn : n ∈ before ++ n :: after := List.mem_append_right _ List.mem_cons_self
  -- a node of the key is the one that takes the occurrence, or it is as it was
  have hcases : ∀ m ∈ before ++ Normal.join n o :: after, m = Normal.join n o ∨
      m ∈ before ++ n :: after := by
    intro m hm
    rcases List.mem_append.1 hm with hm | hm
    · exact .inr (List.mem_append_left _ hm)
    · exact (List.mem_cons.1 hm).imp_right fun hm =>
        List.mem_append_right _ (List.mem_cons_of_mem _ hm)
  refine h.insert (apart_join hapart hmatch hbefore) (fun m hm => ?_) fun m hm f hf => ?_
  · rcases hcases m hm with rfl | hm
    · exact (hown n hn).join hmatch htype
    · exact (hown m hm).mono (List.subset_append_left _ _)
  · rcases hcases m hm with rfl | hm
    · rcases List.mem_append.1 hf with hf | hf
      · exact hkey n hn f hf
      · rw [List.mem_singleton.1 hf]
    · exact hkey m hm f hf

/-- No node of the key matches: a new one starts with the occurrence. -/
theorem Sorted.create {buckets : Buckets} (h : Sorted s os buckets)
    (hnone : ∀ m ∈ bucket buckets o.field.node.responseKey,
      matchesNode o.field.node n.type m = false)
    (hmatch : matchesNode o.field.node n.type n = true)
    (htype : declaredType? s o = some n.type) (hfields : n.fields = [o.field])
    (hobjects : n.objectTypes = o.target) :
    Sorted s (os ++ [o]) (Entries.insert o.field.node.responseKey
      (bucket buckets o.field.node.responseKey ++ [n]) buckets) := by
  have ho : o ∈ os ++ [o] := List.mem_append_right _ List.mem_cons_self
  refine h.insert ?_ (fun m hm => ?_) fun m hm f hf => ?_
  · refine List.pairwise_append.2
      ⟨h.apart _, List.pairwise_singleton _ _, fun m hm m' hm' f hf => ?_⟩
    obtain rfl := List.mem_singleton.1 hm'
    rw [hfields, List.mem_singleton] at hf
    exact hf ▸ hnone m hm
  · rcases List.mem_append.1 hm with hm | hm
    · exact (h.own _ m hm).mono (List.subset_append_left _ _)
    · obtain rfl := List.mem_singleton.1 hm
      refine ⟨fun f hf => ?_, fun object hobject => ?_⟩
      · rw [hfields, List.mem_singleton] at hf
        exact hf ▸ ⟨hmatch, o, ho, rfl, htype⟩
      · exact ⟨o, ho, hobjects ▸ hobject, hfields ▸ List.mem_cons_self⟩
  · rcases List.mem_append.1 hm with hm | hm
    · exact h.responseKey _ m hm f hf
    · obtain rfl := List.mem_singleton.1 hm
      rw [hfields, List.mem_singleton] at hf
      rw [hf]

/-- Putting an occurrence into buckets keeps them sorted. -/
theorem sorted_putOccurrence {sc : Scope} {level : Nat} {buckets buckets' : Buckets}
    (hb : Sorted sc.schema os buckets) (h : putOccurrence sc level buckets o = .ok buckets') :
    Sorted sc.schema (os ++ [o]) buckets' := by
  cases put_of_putOccurrence h with
  | skipped =>
    exact ⟨hb.keys, hb.apart, fun k n hn => (hb.own k n hn).mono (List.subset_append_left _ _),
      hb.responseKey⟩
  | joined htype hns hmatch hbefore => exact hb.join hns hmatch hbefore htype
  | started arguments htype hnone =>
    exact hb.create hnone (by simp [start, matchesNode, argumentsMatch_self]) htype rfl rfl

theorem sorted_nil : Sorted s [] [] where
  keys := List.nodup_nil
  apart _ := .nil
  own _ _ hn := by simp [bucket] at hn
  responseKey _ _ hn := by simp [bucket] at hn

/-- Sorted buckets have no other nodes than those of their keys. -/
theorem Sorted.bucket_eq {buckets : Buckets} (h : Sorted s os buckets)
    {e : String × List NormalField} (he : e ∈ buckets) : bucket buckets e.1 = e.2 := by
  rw [bucket, Entries.lookup_of_mem h.keys he]
  rfl

/-! ## Levels -/

section

variable {sc : Scope} {sets : List SelectionSet} {objects : List String} {level : Nat}

/-- The nodes of a level are those of some buckets that hold its occurrences. -/
theorem exists_buckets_of_levelNodes (h : levelNodes sc level sets objects = .ok ns) :
    ∃ buckets : Buckets, ns = buckets.flatMap Prod.snd ∧
      Filled sc.schema (levelOccurrences sc sets objects) buckets ∧
      Sorted sc.schema (levelOccurrences sc sets objects) buckets := by
  obtain ⟨buckets, rfl, hfold⟩ := levelNodes_eq_ok h
  exact ⟨buckets, rfl, filled_foldlM filled_nil hfold,
    foldlM_putOccurrence (fun hb => sorted_putOccurrence hb) sorted_nil hfold⟩

/-- A field is collected for an object type from selection sets. -/
def Collects (sc : Scope) (sets : List SelectionSet) (object : String) (f : Field) : Prop :=
  ∃ g ∈ sc.groupsOn object sets, f ∈ g.fields

/-- The field is `__typename`, or the object types that it is collected for declare it, with
one type. -/
def Agreed (sc : Scope) (sets : List SelectionSet) (objects : List String) (f : Field) : Prop :=
  f.node.name = "__typename" ∨ ∃ type, ∀ object ∈ objects, Collects sc sets object f →
    ∃ d, sc.schema.field? object f.node.name = some d ∧ d.type = type

theorem collects_iff (hid : Field.Identified (sc.fieldsWithin sets)) {object : String}
    {f : Field} : Collects sc sets object f ↔ f ∈ sc.fieldsOn object sets :=
  (FieldGroups.gathers_ofFields (hid.subset (sc.fieldsOn_subset object sets))).mem f

/-- An occurrence on some object type has the declared type of its field. -/
theorem declaredType?_of_agreed (hid : Field.Identified (sc.fieldsWithin sets)) {f : Field}
    (h : Agreed sc sets objects f) : ∃ type, ∀ o ∈ levelOccurrences sc sets objects,
      o.field = f → o.target ≠ [] → declaredType? sc.schema o = some type := by
  have hdeclared : ∃ type, ∀ object ∈ objects, f ∈ sc.fieldsOn object sets →
      (declaration? sc.schema object f.node.name).map Prod.fst = some type := by
    rcases h with hname | ⟨type, htype⟩
    · exact ⟨.required "String", fun object _ _ => by rw [declaration?, if_pos hname]; rfl⟩
    · by_cases hname : f.node.name = "__typename"
      · exact ⟨.required "String", fun object _ _ => by rw [declaration?, if_pos hname]; rfl⟩
      · refine ⟨type, fun object hobject hf => ?_⟩
        obtain ⟨d, hd, rfl⟩ := htype object hobject ((collects_iff hid).2 hf)
        rw [declaration?, if_neg hname, hd]
        rfl
  obtain ⟨type, htype⟩ := hdeclared
  refine ⟨type, fun o ho hfield hne => ?_⟩
  unfold declaredType?
  cases htarget : o.target with
  | nil => exact absurd htarget hne
  | cons first _ =>
    have hmet := mem_fieldsOn_iff.2 ⟨o, ho, htarget ▸ List.mem_cons_self, hfield⟩
    rw [hfield]
    exact htype first hmet.1 hmet.2

/-- The nodes of a level share no selection if every selection has one declared type. -/
theorem pairwise_disjoint {buckets : Buckets} {os : List (Occurrence (List String))}
    (h : Sorted sc.schema os buckets)
    (htype : ∀ f, ∃ type, ∀ o ∈ os, o.field = f → ∀ type',
      declaredType? sc.schema o = some type' → type' = type) :
    (buckets.flatMap Prod.snd).Pairwise fun n n' => ∀ f ∈ n.fields, f ∉ n'.fields := by
  have hbucket : ∀ e ∈ buckets, bucket buckets e.1 = e.2 := fun _ he => h.bucket_eq he
  refine List.pairwise_flatMap.2 ⟨fun e he => ?_, ?_⟩
  · rw [← hbucket e he]
    refine (h.apart e.1).imp_of_mem fun {n n'} hn hn' hapart f hf hf' => ?_
    obtain ⟨hmatch, o, ho, hfield, hdeclared⟩ := (h.own e.1 n hn).fields f hf
    obtain ⟨-, o', ho', hfield', hdeclared'⟩ := (h.own e.1 n' hn').fields f hf'
    obtain ⟨type, htype⟩ := htype f
    rw [htype o ho hfield _ hdeclared] at hmatch
    have hnomatch := hapart f hf'
    rw [htype o' ho' hfield' _ hdeclared', hmatch] at hnomatch
    cases hnomatch
  · have hkeys : buckets.Pairwise fun e e' => e.1 ≠ e'.1 := List.pairwise_map.1 h.keys
    refine hkeys.imp_of_mem fun {e e'} he he' hne n hn n' hn' f hf hf' => hne ?_
    rw [← hbucket e he] at hn
    rw [← hbucket e' he'] at hn'
    exact (h.responseKey _ n hn f hf).symm.trans (h.responseKey _ n' hn' f hf')

/-- The nodes of a level have the object types that their selections are collected for. -/
structure Exact (sc : Scope) (sets : List SelectionSet) (objects : List String)
    (ns : List NormalField) : Prop where
  /-- No selection is in two nodes. -/
  disjoint : ns.Pairwise fun n n' => ∀ f ∈ n.fields, f ∉ n'.fields
  sound : ∀ n ∈ ns, ∀ object ∈ objects, object ∈ n.objectTypes →
    ∃ f ∈ n.fields, Collects sc sets object f
  complete : ∀ object ∈ objects, ∀ f, Collects sc sets object f →
    ∃ n ∈ ns, f ∈ n.fields ∧ n.key = f.node.responseKey ∧ object ∈ n.objectTypes

theorem exact_of_levelNodes (hid : Field.Identified (sc.fieldsWithin sets))
    (hagreed : ∀ f, Agreed sc sets objects f) (h : levelNodes sc level sets objects = .ok ns) :
    Exact sc sets objects ns := by
  obtain ⟨buckets, rfl, hfilled, hsorted⟩ := exists_buckets_of_levelNodes h
  have htypes : ∀ f, ∃ type, ∀ o ∈ levelOccurrences sc sets objects, o.field = f →
      ∀ type', declaredType? sc.schema o = some type' → type' = type := by
    intro f
    obtain ⟨type, htype⟩ := declaredType?_of_agreed hid (hagreed f)
    refine ⟨type, fun o ho hfield type' hdeclared => ?_⟩
    have hne : o.target ≠ [] := fun hnil => by simp [declaredType?, hnil] at hdeclared
    exact Option.some.inj (hdeclared.symm.trans (htype o ho hfield hne))
  refine ⟨pairwise_disjoint hsorted htypes, fun n hn object _ hobject => ?_,
    fun object hobject f hf => ?_⟩
  · obtain ⟨e, he, hn⟩ := List.mem_flatMap.1 hn
    have hbucket : n ∈ bucket buckets e.1 := hsorted.bucket_eq he ▸ hn
    obtain ⟨o, ho, htarget, hfield⟩ := (hsorted.own e.1 n hbucket).objectTypes object hobject
    exact ⟨o.field, hfield, (collects_iff hid).2 (mem_fieldsOn_iff.2 ⟨o, ho, htarget, rfl⟩).2⟩
  · obtain ⟨o, ho, htarget, rfl⟩ := mem_fieldsOn_iff.1 ⟨hobject, (collects_iff hid).1 hf⟩
    obtain ⟨type, htype⟩ := declaredType?_of_agreed hid (hagreed o.field)
    obtain ⟨n, hn, hhome⟩ :=
      hfilled.home o ho type (htype o ho rfl (List.ne_nil_of_mem htarget))
    exact ⟨n, mem_flatMap_of_mem_bucket hn, hhome.field, hfilled.key _ n hn, hhome.objects htarget⟩

theorem map_of_mapM_eq_ok {α β ε : Type} {f : α → Except ε β} {g : β → α}
    (hg : ∀ x y, f x = .ok y → g y = x) {xs : List α} {ys : List β} (h : xs.mapM f = .ok ys) :
    ys.map g = xs := by
  induction xs generalizing ys with
  | nil =>
    obtain rfl := Except.ok.inj h
    rfl
  | cons x xs ih =>
    obtain ⟨y, ys', hy, hys, rfl⟩ := Except.mapM_cons_eq_ok h
    rw [List.map_cons, hg x y hy, ih hys]

/-- The trees of a level have the nodes of the level at the top. -/
theorem fields_of_trees {depth : Nat} {ts : List NormalNode}
    (h : trees sc depth sets objects level = .ok ts) :
    levelNodes sc level sets objects = .ok (ts.map NormalNode.field) := by
  cases depth with
  | zero => simp [trees] at h
  | succ depth =>
    rw [trees] at h
    split at h
    · simp at h
    · next ns hns =>
      rw [hns, map_of_mapM_eq_ok (fun n t ht => ?_) h]
      split at ht
      · obtain rfl := Except.ok.inj ht
        rfl
      · split at ht
        · obtain rfl := Except.ok.inj ht
          rfl
        · simp at ht

end

/-- The object types of normalized nodes are exact. If the object types that a field is
collected for declare it, with one type, an object type is one of a node exactly if some
selection of the node is collected for it; and each selection that is collected for it is in
exactly one node, under its response key, with the object type. -/
theorem objectTypes_exact {sc : Scope} {depth : Nat} {sets : List SelectionSet}
    {objects : List String} {level : Nat} {ts : List NormalNode}
    (h : trees sc depth sets objects level = .ok ts)
    (hid : Field.Identified (sc.fieldsWithin sets)) (hagreed : ∀ f, Agreed sc sets objects f) :
    ∀ object ∈ objects,
      (∀ t ∈ ts, object ∈ t.field.objectTypes ↔
        ∃ f ∈ t.field.fields, Collects sc sets object f) ∧
      ∀ f, Collects sc sets object f → ∃ before t after, ts = before ++ t :: after ∧
        f ∈ t.field.fields ∧ t.field.key = f.node.responseKey ∧ object ∈ t.field.objectTypes ∧
        ∀ t' ∈ before ++ after, f ∉ t'.field.fields := by
  intro object hobject
  have hexact := exact_of_levelNodes hid hagreed (fields_of_trees h)
  have hdisjoint : ts.Pairwise fun t t' => ∀ f ∈ t.field.fields, f ∉ t'.field.fields :=
    List.pairwise_map.1 hexact.disjoint
  -- the node of a selection that is collected, and no other
  have hone : ∀ f, Collects sc sets object f → ∃ before t after, ts = before ++ t :: after ∧
      f ∈ t.field.fields ∧ t.field.key = f.node.responseKey ∧ object ∈ t.field.objectTypes ∧
      ∀ t' ∈ before ++ after, f ∉ t'.field.fields := by
    intro f hf
    obtain ⟨n, hn, hfield, hkey, htype⟩ := hexact.complete object hobject f hf
    obtain ⟨t, ht, rfl⟩ := List.mem_map.1 hn
    obtain ⟨before, after, rfl⟩ := List.append_of_mem ht
    refine ⟨before, t, after, rfl, hfield, hkey, htype, fun t' ht' hfield' => ?_⟩
    rw [List.pairwise_append, List.pairwise_cons] at hdisjoint
    rcases List.mem_append.1 ht' with ht' | ht'
    · exact hdisjoint.2.2 t' ht' t List.mem_cons_self f hfield' hfield
    · exact hdisjoint.2.1.1 t' ht' f hfield hfield'
  refine ⟨fun t ht => ⟨hexact.sound _ (List.mem_map_of_mem ht) object hobject, ?_⟩, hone⟩
  rintro ⟨f, hf, hcollects⟩
  obtain ⟨before, t', after, rfl, -, -, htype, hothers⟩ := hone f hcollects
  have hsame : t = t' := by
    by_contra hne
    have hother : t ∈ before ++ after := by
      rcases List.mem_append.1 ht with ht | ht
      · exact List.mem_append_left _ ht
      · exact List.mem_append_right _ ((List.mem_cons.1 ht).resolve_left hne)
    exact hothers t hother hf
  exact hsame ▸ htype

/-- The things of the crew, in two fragments that spread each other: an `id` of its own is met
on sailors only, the one at the top on ships as well. -/
theorem objectTypes_exact_crew :
    ∃ d f ts, Document.parse Scope.cyclicText = .ok d ∧ f ∈ d.fields ∧
      trees (.ofDocument demoSchema d []) 2 [f.selections] ["Sailor", "Ship"] 2 = .ok ts ∧
      ts.map (fun t => (t.field.key, t.field.objectTypes, t.field.fields.length)) =
        [("name", ["Sailor", "Ship"], 2), ("rank", ["Sailor"], 1),
          ("id", ["Sailor", "Ship"], 2)] ∧
      ∀ object ∈ ["Sailor", "Ship"],
        (∀ t ∈ ts, object ∈ t.field.objectTypes ↔ ∃ f' ∈ t.field.fields,
          Collects (.ofDocument demoSchema d []) [f.selections] object f') ∧
        ∀ f', Collects (.ofDocument demoSchema d []) [f.selections] object f' →
          ∃ before t after, ts = before ++ t :: after ∧ f' ∈ t.field.fields ∧
            t.field.key = f'.node.responseKey ∧ object ∈ t.field.objectTypes ∧
            ∀ t' ∈ before ++ after, f' ∉ t'.field.fields := by
  -- the one type with which the fields are declared
  let type (name : String) : TypeExpr :=
    if name = "id" then .required "ID" else if name = "name" then .named "String" else .named "Rank"
  have hcheck : ((Document.parse Scope.cyclicText).toOption.any fun d =>
      d.fields.any fun f =>
        let sc := Scope.ofDocument demoSchema d []
        decide ((sc.fieldsWithin [f.selections]).map (·.node.number)).Nodup &&
          (["Sailor", "Ship"].all fun object => (sc.fieldsOn object [f.selections]).all fun f' =>
            (demoSchema.field? object f'.node.name).map FieldDefinition.type ==
              some (type f'.node.name)) &&
          (trees sc 2 [f.selections] ["Sailor", "Ship"] 2).toOption.any fun ts =>
            ts.map (fun t => (t.field.key, t.field.objectTypes, t.field.fields.length)) ==
              [("name", ["Sailor", "Ship"], 2), ("rank", ["Sailor"], 1),
                ("id", ["Sailor", "Ship"], 2)]) = true := by
    decide +kernel
  cases hd : Document.parse Scope.cyclicText with
  | error e => simp [hd, Except.toOption] at hcheck
  | ok d =>
    simp only [hd, Except.toOption, Option.any_some, List.any_eq_true, Bool.and_eq_true,
      decide_eq_true_eq, List.all_eq_true, beq_iff_eq] at hcheck
    obtain ⟨f, hf, ⟨hnumbers, htypes⟩, htrees⟩ := hcheck
    have hid := Field.identified_of_nodup hnumbers
    have hagreed : ∀ f',
        Agreed (.ofDocument demoSchema d []) [f.selections] ["Sailor", "Ship"] f' := by
      refine fun f' => .inr ⟨type f'.node.name, fun object hobject hf' => ?_⟩
      exact Option.map_eq_some_iff.1 (htypes object hobject f' ((collects_iff hid).1 hf'))
    cases hts : trees (.ofDocument demoSchema d []) 2 [f.selections] ["Sailor", "Ship"] 2 with
    | error e => simp [hts] at htrees
    | ok ts =>
      simp only [hts, Option.any_some, beq_iff_eq] at htrees
      exact ⟨d, f, ts, rfl, hf, hts, htrees, objectTypes_exact hts hid hagreed⟩

end Normal

end GraphQL
