/-
GraphQL.Proofs.SerialExecution — the fields of a mutation run one after the other.

In serial mode a field of the operation is resolved, everything below it included,
before the next one starts. A run is therefore cut into stretches, one for each response
key in the order of collection: `Job.exists_stretches` gives the cut, and
`Environment.always_under_fieldJob` says that the resolvers which are called or resumed
in the stretch of a key stand at or below that key.

`Run.Serial` puts together what follows for a whole run:

* `Run.Serial.ordered` — whatever happens at or below a key is over before anything at
  or below a later key begins, however often resolvers suspend or defer.
* `Run.Serial.executed` — only a fault keeps a later key from being executed; failures
  and collapses do not.
* `Run.Serial.keys` — the data has the keys in the order of collection.

`Plan.serial_runIn` shows it of every run of a plan with its fields in order.
-/
import GraphQL.Proofs.Emissions

namespace GraphQL

/-! ## Jobs in order -/

namespace Job

variable {α ε : Type}

/-- Jobs run in order: the events are those of the jobs of an initial part of the list,
one stretch after the other, and the part is the whole list unless a job has failed. -/
theorem exists_stretches (js : List (Job (Except ε α))) (n : Nat) :
    ∃ done rest stretches, js = done ++ rest ∧ ((inOrder js).run n).1 = stretches.flatten ∧
      List.Forall₂ (fun j es => ∃ m, es = (j.run m).1) done stretches ∧
      (rest ≠ [] → ∃ e, ((inOrder js).run n).2 = .error e) := by
  induction js generalizing n with
  | nil => exact ⟨[], [], [], rfl, rfl, .nil, by simp⟩
  | cons j js ih =>
    rw [inOrder, run_bind]
    cases hj : (j.run n).2 with
    | error e =>
      refine ⟨[j], js, [(j.run n).1], rfl, by simp [run], .cons ⟨n, rfl⟩ .nil, fun _ => ⟨e, rfl⟩⟩
    | ok a =>
      obtain ⟨done, rest, stretches, rfl, hevents, hdone, hrest⟩ := ih (n + logSize (j.run n).1)
      refine ⟨j :: done, rest, (j.run n).1 :: stretches, rfl, ?_, .cons ⟨n, rfl⟩ hdone, ?_⟩
      · simp [hevents]
      · intro h
        obtain ⟨e, he⟩ := hrest h
        exact ⟨e, by simp [he, Except.map]⟩

end Job

/-! ## Stretches of a key -/

/-- The event is about a resolver at or below a path. -/
def Event.Under (a : Path) (e : Event) : Prop := ∃ b, e.path? = some (a ++ b)

/-- A resolver stands below one response key of the operation only. -/
theorem Event.Under.key_eq {k k' : String} {e : Event} (h : e.Under [.key k])
    (h' : e.Under [.key k']) : k = k' := by
  obtain ⟨b, hb⟩ := h
  obtain ⟨b', hb'⟩ := h'
  rw [hb] at hb'
  simp only [List.cons_append, List.nil_append, Option.some.injEq, List.cons.injEq,
    PathPart.key.injEq] at hb'
  exact hb'.1

namespace Environment

variable {env : Environment}

/-- What is left to do stands below a path, and so do the resolvers that do it. -/
theorem keeps_under (env : Environment) (a : Path) : env.Keeps
    (fun e => ∀ path, e.path? = some path → a <+: path)
    (fun sub => ∀ g ∈ sub.groups, a <+: sub.place.path ++ [.key g.key]) where
  raised _ _ h := by simp [Event.path?] at h
  logged _ _ h := by simp [Event.path?] at h
  invoked := by
    intro sub object g d arguments hI hg _ path hpath
    obtain rfl := Option.some.inj hpath
    exact hI g hg.group
  resumed := by
    intro sub object g d hI hg path hpath
    obtain rfl := Option.some.inj hpath
    exact hI g hg.group
  below := by
    intro sub object g d hI hg q hq _ o _ v g' _
    exact ((hI g hg.group).trans hq).trans (List.prefix_append _ _)

/-- The resolvers of a field stand at or below its key. -/
theorem always_under_fieldJob (levels : Nat) (source : Json) (parent : Place) (g : FieldGroup) :
    (env.fieldJob (env.objectJob levels .parallel) source parent g).Always
      fun e => ∀ path, e.path? = some path → parent.path ++ [.key g.key] <+: path := by
  have hkeeps := env.keeps_under (parent.path ++ [.key g.key])
  -- the other fields of the object do not matter
  let sub : SubSelection := ⟨source, parent, [g]⟩
  have hI : ∀ g' ∈ sub.groups, parent.path ++ [.key g.key] <+: sub.place.path ++ [.key g'.key] := by
    intro g' hg'
    obtain rfl := List.mem_singleton.1 hg'
    exact List.prefix_refl _
  exact hkeeps.always_fieldJob (fun _ h => always_objectJob hkeeps levels .parallel h) hI
    (List.mem_singleton_self g)

/-- The job of a declared field whose arguments are coerced begins with the call of its
resolver. -/
theorem invoked_mem_fieldJob (env : Environment) {descend : SubSelection → NodeJob}
    {source : Json} {parent : Place} {g : FieldGroup} {object : String} {d : FieldDefinition}
    {arguments : List (String × Json)}
    (ho : parent.concreteType? = some object) (hn : g.name ≠ "__typename")
    (hd : env.schema.field? object g.name = some d)
    (ha : coerceArgumentValues env.schema env.scope.vars d.arguments.items g.arguments =
      .ok arguments) (n : Nat) :
    .invoked (env.call source arguments (parent.field g.key g object d.type)) ∈
      ((env.fieldJob descend source parent g).run n).1 := by
  have hgroup : (parent.field g.key g object d.type).group? = some g := rfl
  simp only [fieldJob, ho, hn, if_false, hd, fetchField, hgroup, ha, Job.bind, Job.run]
  exact List.mem_cons_self

end Environment

/-! ## Serial runs -/

namespace Plan

/-- The groups of the operation's fields in the order of collection. -/
def rootGroups (p : Plan) (s : Schema) : FieldGroups :=
  (p.scope s).groups p.root p.operation.selections

end Plan

/-- A run that does the fields of an operation one after the other. -/
structure Run.Serial (r : Run) (p : Plan) (s : Schema) (source : Json) (data : RequestData) :
    Prop where
  /-- All resolvers stand at or below a key of the operation. -/
  within : ∀ e ∈ r.trace, ∀ path, e.path? = some path →
    ∃ k ∈ (p.rootGroups s).keys, e.Under [.key k]
  /-- Calls and resumptions at or below a key come before those of any later key. -/
  ordered : ∀ {k k' : String}, [k, k'].Sublist (p.rootGroups s).keys →
    ∀ {i j : Nat} {e e' : Event}, r.trace[i]? = some e → r.trace[j]? = some e' →
      e.Under [.key k] → e'.Under [.key k'] → i < j
  /-- Keys are executed up to the first fault, all of them if there is none: the resolver
  of a declared field is called if its arguments are coerced. -/
  executed : ∃ done rest, p.rootGroups s = done ++ rest ∧
    (rest ≠ [] → ∃ f, r.result = .error f) ∧
    ∀ g ∈ done, g.name ≠ "__typename" → ∀ d, s.field? p.root g.name = some d →
      ∀ arguments, coerceArgumentValues s p.vars d.arguments.items g.arguments = .ok arguments →
        .invoked ((p.environment s data).call source arguments
          ((Place.root p.root).field g.key g p.root d.type)) ∈ r.trace
  /-- The data is null or an object with the keys that the root type answers, in order. -/
  keys : ∀ a, r.result = .ok a → ∃ v, a.data? = some v ∧ (v = .null ∨ ∃ fields,
    v = .obj fields ∧ Entries.keys fields =
      FieldGroups.keys ((p.rootGroups s).filter ((p.scope s).answers p.root)))

namespace Plan

variable {p : Plan} {s : Schema} {source : Json} {data : RequestData}

/-- The job of a field of the operation. -/
def fieldJob (p : Plan) (s : Schema) (source : Json) (data : RequestData) (g : FieldGroup) :
    Job (Except Fault (Option Node)) :=
  let env := p.environment s data
  env.fieldJob (env.objectJob (p.document.fields.length + Environment.extraLevels) .parallel)
    source (.root p.root) g

theorem jobIn_serial : p.jobIn .serial s source data =
    (Job.inOrder ((p.rootGroups s).map (p.fieldJob s source data))).map fun r =>
      r.map fun ns => .object (.root p.root) (Environment.children (p.rootGroups s) ns) := by
  have hlevels : Environment.levelsFor p.document =
      p.document.fields.length + Environment.extraLevels + 1 := by
    unfold Environment.levelsFor
    omega
  rw [jobIn, hlevels]
  rfl

/-- The stretches of a serial run, one for each executed key. -/
theorem exists_stretches_of_runIn (p : Plan) (s : Schema) (source : Json) (data : RequestData) :
    ∃ done rest stretches, p.rootGroups s = done ++ rest ∧
    (p.runIn .serial s source data).trace = stretches.flatten ∧
    List.Forall₂ (fun g es => ∃ m, es = ((p.fieldJob s source data g).run m).1) done stretches ∧
    (rest ≠ [] → ∃ f, (p.runIn .serial s source data).result = .error f) := by
  obtain ⟨done, rest, stretches, hjs, hevents, hdone, hrest⟩ :=
    Job.exists_stretches ((p.rootGroups s).map (p.fieldJob s source data)) 0
  obtain ⟨groups, others, hgroups, rfl, rfl⟩ := List.map_eq_append_iff.1 hjs
  have hrun : ((p.jobIn .serial s source data).run 0).1 = stretches.flatten := by
    rw [jobIn_serial, Job.run_map]
    exact hevents
  refine ⟨groups, others, stretches, hgroups, hrun, List.forall₂_map_left_iff.1 hdone, ?_⟩
  intro h
  obtain ⟨f, hf⟩ := hrest (by simpa using h)
  refine ⟨f, ?_⟩
  rw [runIn, Run.result_ofJob rfl, jobIn_serial, Job.run_map]
  simp only [hf, Except.map, Except.bind]

/-- The resolvers of a stretch stand at or below its key. -/
theorem under_of_mem_stretch {g : FieldGroup} {m : Nat} {e : Event}
    (he : e ∈ ((p.fieldJob s source data g).run m).1) {path : Path} (hpath : e.path? = some path) :
    e.Under [.key g.key] := by
  have hprefix := (Environment.always_under_fieldJob _ source (.root p.root) g).of_mem_run he
    path hpath
  obtain ⟨b, hb⟩ := hprefix
  exact ⟨b, by rw [hpath, ← hb]; rfl⟩

/-- Whatever has a path in the stretches is about one of their keys. -/
theorem exists_key_of_mem_stretches {gs : FieldGroups} {stretches : List (List Event)}
    (h : List.Forall₂ (fun g es => ∃ m, es = ((p.fieldJob s source data g).run m).1) gs stretches)
    {e : Event} (he : e ∈ stretches.flatten) {path : Path} (hpath : e.path? = some path) :
    ∃ k ∈ gs.keys, e.Under [.key k] := by
  induction h with
  | nil => simp at he
  | @cons g es gs stretches hg _ ih =>
    rcases List.mem_append.1 he with he | he
    · obtain ⟨m, rfl⟩ := hg
      exact ⟨g.key, List.mem_cons_self, under_of_mem_stretch he hpath⟩
    · obtain ⟨k, hk, hunder⟩ := ih he
      exact ⟨k, List.mem_cons_of_mem _ hk, hunder⟩

theorem exists_stretch_of_mem {gs : FieldGroups} {stretches : List (List Event)}
    (h : List.Forall₂ (fun g es => ∃ m, es = ((p.fieldJob s source data g).run m).1) gs stretches)
    {g : FieldGroup} (hg : g ∈ gs) :
    ∃ es ∈ stretches, ∃ m, es = ((p.fieldJob s source data g).run m).1 := by
  induction h with
  | nil => simp at hg
  | cons hes _ ih =>
    rcases List.mem_cons.1 hg with rfl | hg
    · exact ⟨_, List.mem_cons_self, hes⟩
    · obtain ⟨es, hmem, hes⟩ := ih hg
      exact ⟨es, List.mem_cons_of_mem _ hmem, hes⟩

/-- In stretches of distinct keys nothing of a key comes after something of a later one. -/
theorem pairwise_of_stretches {gs : FieldGroups} {stretches : List (List Event)}
    (h : List.Forall₂ (fun g es => ∃ m, es = ((p.fieldJob s source data g).run m).1) gs stretches)
    (hkeys : gs.keys.Nodup) :
    stretches.flatten.Pairwise fun e e' => ∀ k k', [k, k'].Sublist gs.keys →
      e.Under [.key k'] → ¬ e'.Under [.key k] := by
  induction h with
  | nil => exact List.Pairwise.nil
  | @cons g es gs stretches hg hrest ih =>
    have hnew : g.key ∉ FieldGroups.keys gs := (List.nodup_cons.1 hkeys).1
    have hsublist : ∀ {k k'}, [k, k'].Sublist (FieldGroups.keys (g :: gs)) →
        [k, k'].Sublist (FieldGroups.keys gs) ∨ k = g.key ∧ k' ∈ FieldGroups.keys gs := by
      intro k k' hk
      cases hk with
      | cons _ hk => exact .inl hk
      | cons_cons _ hk => exact .inr ⟨rfl, List.singleton_sublist.1 hk⟩
    -- the first key is not a later one, so its stretch may stand before anything
    have hfirst : ∀ e ∈ es, ∀ e' : Event, ∀ k k',
        [k, k'].Sublist (FieldGroups.keys (g :: gs)) → e.Under [.key k'] →
          ¬ e'.Under [.key k] := by
      intro e he e' k k' hk hunder
      obtain ⟨m, rfl⟩ := hg
      obtain ⟨b, hb⟩ := id hunder
      obtain rfl := hunder.key_eq (under_of_mem_stretch he hb)
      rcases hsublist hk with hk | hk
      · exact absurd (hk.subset (by simp)) hnew
      · exact absurd hk.2 hnew
    rw [List.flatten_cons, List.pairwise_append]
    refine ⟨?_, ?_, fun e he e' _ => hfirst e he e'⟩
    · exact List.Pairwise.imp_of_mem (fun he _ _ => hfirst _ he _)
        (List.pairwise_of_forall (R := fun _ _ => True) fun _ _ => trivial)
    · refine List.Pairwise.imp_of_mem ?_ (ih (List.nodup_cons.1 hkeys).2)
      intro e e' _ he' hee' k k' hk hunder hunder'
      rcases hsublist hk with hk | ⟨rfl, _⟩
      · exact hee' k k' hk hunder hunder'
      · obtain ⟨b, hb⟩ := id hunder'
        obtain ⟨k'', hk'', hunder''⟩ := exists_key_of_mem_stretches hrest he' hb
        exact hnew (hunder'.key_eq hunder'' ▸ hk'')

/-- So of two keys in order everything of the first one has the lower place. -/
theorem lt_of_stretches {gs : FieldGroups} {stretches : List (List Event)}
    (h : List.Forall₂ (fun g es => ∃ m, es = ((p.fieldJob s source data g).run m).1) gs stretches)
    (hkeys : gs.keys.Nodup) {k k' : String} (hk : [k, k'].Sublist gs.keys) {i j : Nat}
    {e e' : Event} (hi : stretches.flatten[i]? = some e) (hj : stretches.flatten[j]? = some e')
    (hunder : e.Under [.key k]) (hunder' : e'.Under [.key k']) : i < j := by
  rcases Nat.lt_trichotomy i j with hlt | rfl | hlt
  · exact hlt
  · -- one event has one key
    obtain rfl := Option.some.inj (hi.symm.trans hj)
    obtain rfl := hunder.key_eq hunder'
    exact absurd (hkeys.sublist hk) (by simp)
  · obtain ⟨hjlt, rfl⟩ := List.getElem?_eq_some_iff.1 hj
    obtain ⟨hilt, rfl⟩ := List.getElem?_eq_some_iff.1 hi
    exact absurd hunder (List.pairwise_iff_getElem.1 (pairwise_of_stretches h hkeys)
      j i hjlt hilt hlt k k' hk hunder')

/-- Two keys in order of which the later one is in the first part are both in it. -/
theorem sublist_left_of_notMem {k k' : String} {ks ks' : List String}
    (h : [k, k'].Sublist (ks ++ ks')) (hk' : k' ∉ ks') : [k, k'].Sublist ks := by
  induction ks with
  | nil => exact absurd (h.subset (by simp)) hk'
  | cons x ks ih =>
    cases h with
    | cons _ h => exact (ih h).cons _
    | cons_cons _ h =>
      have hmem : k' ∈ ks := (List.mem_append.1 (h.subset (by simp))).resolve_right hk'
      exact .cons_cons _ (List.singleton_sublist.2 hmem)

/-- Every run of a plan with its fields in order is serial. -/
theorem serial_runIn (p : Plan) (s : Schema) (source : Json) (data : RequestData) :
    (p.runIn .serial s source data).Serial p s source data := by
  obtain ⟨done, rest, stretches, hgroups, htrace, hdone, hrest⟩ :=
    p.exists_stretches_of_runIn s source data
  have hkeys : (p.rootGroups s).keys = done.keys ++ rest.keys := by
    rw [hgroups]
    exact List.map_append
  have hnodup : (p.rootGroups s).keys.Nodup := FieldGroups.nodup_keys_ofFields _
  have hmem : ∀ e ∈ (p.runIn .serial s source data).trace, ∀ path, e.path? = some path →
      ∃ k ∈ done.keys, e.Under [.key k] := by
    intro e he path hpath
    rw [htrace] at he
    exact exists_key_of_mem_stretches hdone he hpath
  refine ⟨?within, ?ordered, ⟨done, rest, hgroups, hrest, ?executed⟩, ?keys⟩
  case within =>
    intro e he path hpath
    obtain ⟨k, hk, hunder⟩ := hmem e he path hpath
    exact ⟨k, hkeys ▸ List.mem_append_left _ hk, hunder⟩
  case ordered =>
    intro k k' hsub i j e e' hi hj hunder hunder'
    have hk' : k' ∉ rest.keys := by
      obtain ⟨b, hb⟩ := id hunder'
      obtain ⟨k'', hk'', hunder''⟩ := hmem e' (List.mem_of_getElem? hj) _ hb
      obtain rfl := hunder'.key_eq hunder''
      rw [hkeys] at hnodup
      exact fun hrest => (List.nodup_append.1 hnodup).2.2 _ hk'' _ hrest rfl
    have hdone' : [k, k'].Sublist done.keys := by
      rw [hkeys] at hsub
      exact sublist_left_of_notMem hsub hk'
    rw [htrace] at hi hj
    exact lt_of_stretches hdone (List.nodup_append.1 (hkeys ▸ hnodup)).1 hdone' hi hj hunder hunder'
  case executed =>
    intro g hg hn d hd arguments ha
    obtain ⟨es, hes, m, rfl⟩ := exists_stretch_of_mem hdone hg
    rw [htrace]
    exact List.mem_flatten.2
      ⟨_, hes, (p.environment s data).invoked_mem_fieldJob rfl hn hd ha m⟩
  case keys =>
    intro a ha
    obtain ⟨es, n, v, nulls, hrun, hdata, rfl⟩ := Run.ofJob_eq_ok ha
    refine ⟨v, rfl, ?_⟩
    rcases p.conforming_of_runIn ha with hnull | ⟨fields, hfields, hconforms⟩
    · exact .inl hnull
    · cases hconforms with
      | intro hkeys _ _ => exact .inr ⟨fields, hfields, hkeys⟩

end Plan

/-- Mutations are serial: whatever their resolvers do, everything at or below a key happens
before anything at or below the keys after it, only a fault keeps those from being
executed, and the data has the keys in order. -/
theorem Request.mutation_serial {s : Schema} {r : Request} {p : Plan} (hp : r.plan s = .ok p)
    (hk : p.operation.kind = .mutation) : (r.run s).Serial p s r.rootValue r.data := by
  have hrun : r.run s = p.runIn .serial s r.rootValue r.data := by
    simp only [run, runIn, hp, Plan.mode, hk]
  rw [hrun]
  exact p.serial_runIn s r.rootValue r.data

/-- Accounts are opened with work that waits, at two levels; closing always fails. -/
def ledgerSchema : Schema :=
  let field (name : String) (type : TypeExpr) (r : Resolver) : FieldDefinition :=
    ⟨name, .empty, type, some r⟩
  let account := Resolver.ofOutcome (.value (.obj [("id", .str "a7"), ("owner", .str "Ada")]))
  (((Schema.ofQueryType "Query").withMutation "Mutation").register
    (.object ⟨"Account", .ofList [
      field "id" (.required "ID") (.suspended 2 (.propertyNamed "id")),
      field "owner" (.named "String") (.suspended 1 (.propertyNamed "owner"))], []⟩)).register
    (.object ⟨"Mutation", .ofList [
      field "open" (.named "Account") (.deferred (.suspended 1 account)),
      field "close" (.required "Boolean") (.suspended 1 (.ofOutcome (.breakdown none)))], []⟩)

/-- Opens an account before and after a failing field whose null takes all the data. -/
def ledgerRequest : Request :=
  .ofText "mutation { first: open { id owner } close last: open { owner } }"

/-- In the first stretch `id` and `owner` take turns; the collapse of `close` does not keep
`last` from being opened. -/
theorem Request.mutation_serial_demo :
    ∃ p, ledgerRequest.plan ledgerSchema = .ok p ∧ p.operation.kind = .mutation ∧
      (ledgerRequest.run ledgerSchema).trace.filterMap (fun e => e.path?.map Path.text) =
        ["/first", "/first", "/first/id", "/first/owner", "/first/id", "/first/owner",
          "/first/id", "/close", "/close", "/last", "/last", "/last/owner", "/last/owner"] ∧
      (ledgerRequest.run ledgerSchema).result.toOption.bind Response.data? = some .null ∧
      (ledgerRequest.run ledgerSchema).Serial p ledgerSchema ledgerRequest.rootValue
        ledgerRequest.data := by
  have hplan : ((ledgerRequest.plan ledgerSchema).toOption.any fun p =>
      p.operation.kind = .mutation) = true := by
    decide +kernel
  cases hp : ledgerRequest.plan ledgerSchema with
  | error e => simp [hp, Except.toOption] at hplan
  | ok p =>
    simp only [hp, Except.toOption, Option.any_some, decide_eq_true_eq] at hplan
    exact ⟨p, rfl, hplan, by decide +kernel, by decide +kernel, Request.mutation_serial hp hplan⟩

end GraphQL
