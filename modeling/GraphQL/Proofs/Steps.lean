/-
GraphQL.Proofs.Steps — what each step of an execution can come to.

One inversion lemma for each function of an execution, over all of its endings
(`GraphQL.Proofs.Endings`). Everything that is proved of executions starts from
these; nothing else opens the jobs.

* `Environment.fetchEnds_of_ends` — a fetch: the arguments do not fit, or the
  resolver is called and ends in an outcome.
* `Environment.fieldEnds_of_ends` — a field of an object.
* `Environment.pending_ends`, `Environment.list_ends` — what is left to do in a node.
* `Environment.joined_of_objectJob` — all fields of an object, in either mode.
* `Completion.each_ok`, `Completion.mem_errors_each` — the items of a list.
* `Run.ofJob_eq_ok`, `Request.runIn_eq_ok` — a run that answers with data: how its
  tree ended and what it settled to.
-/
import GraphQL.Proofs.Endings
import GraphQL.Request

namespace GraphQL

theorem Except.map_eq_ok {α β ε : Type} {f : α → β} {x : Except ε α} {b : β}
    (h : x.map f = .ok b) : ∃ a, x = .ok a ∧ f a = b := by
  cases x with
  | error e => simp [Except.map] at h
  | ok a => exact ⟨a, rfl, Except.ok.inj h⟩

theorem Except.map_eq_error {α β ε : Type} {f : α → β} {x : Except ε α} {e : ε}
    (h : x.map f = .error e) : x = .error e := by
  cases x with
  | error e' => exact congrArg Except.error (Except.error.inj h)
  | ok a => cases h

theorem Except.toOption_eq_some {α ε : Type} {x : Except ε α} {a : α}
    (h : x.toOption = some a) : x = .ok a := by
  cases x with
  | error e => cases h
  | ok a' => exact congrArg Except.ok (Option.some.inj h)

theorem Except.exists_of_any {α ε : Type} {x : Except ε α} {p : α → Bool}
    (h : x.toOption.any p = true) : ∃ a, x = .ok a ∧ p a = true := by
  cases x with
  | error e => cases h
  | ok a => exact ⟨a, rfl, h⟩

theorem Except.mapM_cons_eq_ok {α β ε : Type} {f : α → Except ε β} {x : α} {xs : List α}
    {zs : List β} (h : (x :: xs).mapM f = .ok zs) :
    ∃ y ys, f x = .ok y ∧ xs.mapM f = .ok ys ∧ zs = y :: ys := by
  rw [List.mapM_cons] at h
  cases hy : f x with
  | error e => simp [hy, bind, Except.bind] at h
  | ok y =>
    cases hys : xs.mapM f with
    | error e => simp [hy, hys, bind, Except.bind] at h
    | ok ys =>
      simp only [hy, hys, bind, Except.bind] at h
      exact ⟨y, ys, rfl, rfl, (Except.ok.inj h).symm⟩

/-! ## Fetching -/

/-- The resolver that computes a field. -/
def FieldDefinition.resolver (d : FieldDefinition) : Resolver := d.resolver?.getD .property

namespace Environment

/-- What the resolver of the field at a place is given. -/
def call (env : Environment) (source : Json) (arguments : List (String × Json)) (p : Place) :
    ResolverCall :=
  { source, arguments, site := p.site, data := env.data }

/-- What can come of fetching a field. -/
inductive FetchEnds (env : Environment) (source : Json) (d : FieldDefinition) (p : Place) :
    List Event → Fetched → Prop
  /-- There is no field to fetch. -/
  | fieldless (hg : p.group? = none) : FetchEnds env source d p [] ⟨.null, []⟩
  /-- An argument does not fit its type. -/
  | misfit {g : FieldGroup} {e : Misfit} (hg : p.group? = some g)
      (ha : coerceArgumentValues env.schema env.scope.vars d.arguments.items g.arguments =
        .error e) :
      FetchEnds env source d p [] (.failed (p.error
        ("Argument error on field \"" ++ g.name ++ "\": " ++ e.message)))
  /-- The resolver is called. -/
  | called {g : FieldGroup} {arguments : List (String × Json)} {es : List Event} {o : Outcome}
      (hg : p.group? = some g)
      (ha : coerceArgumentValues env.schema env.scope.vars d.arguments.items g.arguments =
        .ok arguments)
      (hf : ((d.resolver (env.call source arguments p)).job p.path).Ends es o) :
      FetchEnds env source d p (.invoked (env.call source arguments p) :: es)
        (.ofOutcome p g.position o)

theorem fetchEnds_of_ends {env : Environment} {source : Json} {d : FieldDefinition} {p : Place}
    {es : List Event} {x : Fetched} (h : (env.fetchField source d p).Ends es x) :
    FetchEnds env source d p es x := by
  unfold fetchField at h
  split at h
  · next hg =>
    obtain ⟨rfl, rfl⟩ := Job.ends_done h
    exact .fieldless hg
  · next g hg =>
    split at h
    · next e ha =>
      obtain ⟨rfl, rfl⟩ := Job.ends_done h
      exact .misfit hg ha
    · next arguments ha =>
      cases h with
      | emit n h =>
        obtain ⟨o, ho, rfl⟩ := Job.ends_map h
        exact .called hg ha ho

/-- A fetch raises nothing itself: its errors are in what it ends in. -/
theorem FetchEnds.errors_eq {env : Environment} {source : Json} {d : FieldDefinition}
    {p : Place} {es : List Event} {x : Fetched} (h : FetchEnds env source d p es x) :
    Event.errors es = [] := by
  cases h with
  | fieldless => rfl
  | misfit => rfl
  | called _ _ hf => exact (Fetch.ends_of_job hf).2

/-! ## Fields -/

/-- The completion of a fetched value at the place of its field. -/
def completed (env : Environment) (d : FieldDefinition) (p : Place) (x : Fetched) :
    Completion Node :=
  env.completeValue d.type p x.value (!x.errors.isEmpty)

/-- What can come of a declared field: its value is fetched and completed, and what is
pending in it resolved. -/
inductive DeclaredEnds (env : Environment) (descend : SubSelection → NodeJob) (source : Json)
    (d : FieldDefinition) (p : Place) : List Event → Except Fault Node → Prop
  | fault {es : List Event} {x : Fetched} {f : Fault} (hx : FetchEnds env source d p es x)
      (hc : (env.completed d p x).outcome = .error f) :
      DeclaredEnds env descend source d p
        (es ++ (x.errors ++ (env.completed d p x).errors).map .raised) (.error f)
  | node {es fs : List Event} {x : Fetched} {n : Node} {r : Except Fault Node}
      (hx : FetchEnds env source d p es x) (hc : (env.completed d p x).outcome = .ok n)
      (hr : (resolvePending descend n).Ends fs r) :
      DeclaredEnds env descend source d p
        (es ++ (x.errors ++ (env.completed d p x).errors).map .raised ++ fs) r

/-- What can come of a field of an object. -/
inductive FieldEnds (env : Environment) (descend : SubSelection → NodeJob) (source : Json)
    (parent : Place) (g : FieldGroup) : List Event → Except Fault (Option Node) → Prop
  | untyped (ho : parent.concreteType? = none) :
      FieldEnds env descend source parent g [] (.error (.noConcreteType parent.path))
  | typename {object : String} (ho : parent.concreteType? = some object)
      (hn : g.name = "__typename") :
      FieldEnds env descend source parent g []
        (.ok (some (.leaf (parent.field g.key g object (.required "String")) (.str object))))
  | undeclared {object : String} (ho : parent.concreteType? = some object)
      (hn : g.name ≠ "__typename") (hd : env.schema.field? object g.name = none) :
      FieldEnds env descend source parent g [] (.ok none)
  | declared {object : String} {d : FieldDefinition} {es : List Event} {r : Except Fault Node}
      (ho : parent.concreteType? = some object) (hn : g.name ≠ "__typename")
      (hd : env.schema.field? object g.name = some d)
      (h : DeclaredEnds env descend source d (parent.field g.key g object d.type) es r) :
      FieldEnds env descend source parent g es (r.map some)

theorem fieldEnds_of_ends {env : Environment} {descend : SubSelection → NodeJob} {source : Json}
    {parent : Place} {g : FieldGroup} {es : List Event} {r : Except Fault (Option Node)}
    (h : (env.fieldJob descend source parent g).Ends es r) :
    FieldEnds env descend source parent g es r := by
  unfold fieldJob at h
  split at h
  · next ho =>
    obtain ⟨rfl, rfl⟩ := Job.ends_done h
    exact .untyped ho
  · next object ho =>
    split at h
    · next hn =>
      obtain ⟨rfl, rfl⟩ := Job.ends_done h
      exact .typename ho hn
    · next hn =>
      split at h
      · next hd =>
        obtain ⟨rfl, rfl⟩ := Job.ends_done h
        exact .undeclared ho hn hd
      · next d hd =>
        obtain ⟨es₁, x, es₂, hx, hrest, rfl⟩ := Job.ends_bind h
        obtain ⟨fs, hfs, rfl⟩ := Job.ends_raiseAll hrest
        have hx' := fetchEnds_of_ends hx
        rw [← List.append_assoc]
        split at hfs
        · next f hc =>
          obtain ⟨rfl, rfl⟩ := Job.ends_done hfs
          rw [List.append_nil]
          exact .declared ho hn hd (.fault hx' hc)
        · next n hc =>
          obtain ⟨r', hr', rfl⟩ := Job.ends_map hfs
          exact .declared ho hn hd (.node hx' hc hr')

/-! ## Nodes with work left -/

theorem pending_ends {descend : SubSelection → NodeJob} {sub : SubSelection} {es : List Event}
    {r : Except Fault Node} (h : (resolvePending descend (.pending sub)).Ends es r) :
    (descend sub).Ends es r := by
  rwa [resolvePending] at h

/-- What is left to do in items is left to do in each. -/
theorem resolvePendingItems_eq (descend : SubSelection → NodeJob) (ns : List Node) :
    resolvePendingItems descend ns = ns.map (resolvePending descend) := by
  induction ns with
  | nil => rfl
  | cons n ns ih => rw [resolvePendingItems, ih, List.map_cons]

/-- The items of a list are joined, whatever is left to do in them. -/
theorem list_ends {descend : SubSelection → NodeJob} {p : Place} {items : List Node}
    {es : List Event} {r : Except Fault Node}
    (h : (resolvePending descend (.list p items)).Ends es r) :
    ∃ rs, Job.Joined (items.map (resolvePending descend)) es rs ∧ r = rs.map (.list p) := by
  rw [resolvePending, resolvePendingItems_eq] at h
  obtain ⟨rs, hrs, rfl⟩ := Job.ends_map h
  exact ⟨rs, Job.joined_allOk hrs, rfl⟩

/-! ## Objects -/

theorem objectJob_zero {env : Environment} {mode : Mode} {sub : SubSelection} {es : List Event}
    {r : Except Fault Node} (h : (env.objectJob 0 mode sub).Ends es r) :
    es = [] ∧ r = .error .tooDeep := by
  rw [objectJob] at h
  exact Job.ends_done h

/-- The fields of an object are joined, in either mode. -/
theorem joined_of_objectJob {env : Environment} {n : Nat} {mode : Mode} {sub : SubSelection}
    {es : List Event} {r : Except Fault Node}
    (h : (env.objectJob (n + 1) mode sub).Ends es r) :
    ∃ rs, Job.Joined
        (sub.groups.map (env.fieldJob (env.objectJob n .parallel) sub.source sub.place)) es rs ∧
      r = rs.map fun ns => .object sub.place (children sub.groups ns) := by
  unfold objectJob at h
  obtain ⟨rs, hrs, rfl⟩ := Job.ends_map h
  refine ⟨rs, ?_, rfl⟩
  cases mode with
  | parallel =>
    obtain ⟨xs, hxs, rfl⟩ := Job.ends_map hrs
    exact Job.joined_all hxs
  | serial => exact Job.joined_inOrder hrs

/-- A declared field comes under its key, one that is not declared is left out. -/
theorem children_cons (g : FieldGroup) (gs : FieldGroups) (n : Option Node)
    (ns : List (Option Node)) :
    children (g :: gs) (n :: ns) = (n.map fun m => (g.key, m)).toList ++ children gs ns := by
  cases n <;> simp [children]

end Environment

/-! ## Items -/

namespace Completion

variable {α β : Type} {f : Nat → α → Completion β} {i : Nat} {x : α} {xs : List α}

theorem each_ok {ys : List β} (h : (each f i (x :: xs)).outcome = .ok ys) :
    ∃ y ys', ys = y :: ys' ∧ (f i x).outcome = .ok y ∧
      (each f (i + 1) xs).outcome = .ok ys' ∧
      (each f i (x :: xs)).errors = (f i x).errors ++ (each f (i + 1) xs).errors := by
  simp only [each] at h ⊢
  split at h
  · simp at h
  · next y hy =>
    cases hys : (each f (i + 1) xs).outcome with
    | error e => simp [hys, Except.map] at h
    | ok ys' =>
      simp only [hys, Except.map, Except.ok.injEq] at h
      subst h
      exact ⟨y, ys', rfl, hy, rfl, rfl⟩

/-- A completed item is the completion of some value at its index. -/
theorem each_getElem? {xs : List α} {ys : List β} (h : (each f i xs).outcome = .ok ys) {j : Nat}
    {y : β} (hy : ys[j]? = some y) : ∃ x, (f (i + j) x).outcome = .ok y := by
  induction xs generalizing i ys j with
  | nil =>
    obtain rfl := Except.ok.inj h
    simp at hy
  | cons x xs ih =>
    obtain ⟨y', ys', rfl, hx, hxs, _⟩ := each_ok h
    cases j with
    | zero =>
      obtain rfl := Option.some.inj hy
      exact ⟨x, hx⟩
    | succ j =>
      obtain ⟨x', hx'⟩ := ih hxs hy
      have hindex : i + 1 + j = i + (j + 1) := by omega
      exact ⟨x', hindex ▸ hx'⟩

/-- The errors of items are errors of one of them. -/
theorem mem_errors_each {e : ResponseError} {xs : List α}
    (h : e ∈ (each f i xs).errors) : ∃ j x, i ≤ j ∧ x ∈ xs ∧ e ∈ (f j x).errors := by
  induction xs generalizing i with
  | nil => simp [each, ok] at h
  | cons x xs ih =>
    have hor : e ∈ (f i x).errors ∨ e ∈ (each f (i + 1) xs).errors := by
      simp only [each] at h
      split at h
      · exact .inl h
      · exact List.mem_append.1 h
    rcases hor with hx | hxs
    · exact ⟨i, x, Nat.le_refl i, List.mem_cons_self, hx⟩
    · obtain ⟨j, y, hij, hy, he⟩ := ih hxs
      exact ⟨j, y, Nat.le_of_succ_le hij, List.mem_cons_of_mem x hy, he⟩

end Completion

/-! ## Runs -/

/-- What a job has come to in a run is one of its endings. -/
theorem Job.ends_of_run {α : Type} {j : Job α} {n : Nat} {es : List Event} {a : α}
    (h : j.run n = (es, a)) : j.Ends es a := by
  have hends := Job.ends_run j n
  rwa [h] at hends

namespace Run

variable {j : NodeJob} {es : List Event}

theorem result_ofJob {r : Except Fault Node} (h : j.run 0 = (es, r)) :
    (ofJob j).result =
      r.bind fun n => n.toData.map fun x => ⟨some x.1, Event.errors es ++ x.2⟩ := by
  unfold ofJob
  rw [h]
  rfl

/-- A run that has a response: its job ends without a fault, the tree becomes the data,
and the errors raised come before those of the nulls. -/
theorem ofJob_eq_ok {a : Response} (h : (ofJob j).result = .ok a) :
    ∃ es n v nulls, j.run 0 = (es, .ok n) ∧ n.toData = .ok (v, nulls) ∧
      a = ⟨some v, Event.errors es ++ nulls⟩ := by
  rcases hrun : j.run 0 with ⟨es, r⟩
  rw [result_ofJob hrun] at h
  cases r with
  | error f => simp [Except.bind] at h
  | ok n =>
    cases hdata : n.toData with
    | error f => simp [hdata, Except.bind, Except.map] at h
    | ok x =>
      obtain ⟨v, nulls⟩ := x
      simp only [hdata, Except.bind, Except.map, Except.ok.injEq] at h
      exact ⟨es, n, v, nulls, rfl, hdata, h.symm⟩

end Run

/-- A request that has a plan and a response. -/
theorem Request.job_of_runIn {mode : Plan → Mode} {s : Schema} {r : Request} {p : Plan}
    {a : Response} (hp : r.plan s = .ok p) (h : (r.runIn mode s).result = .ok a) :
    ∃ es n v nulls, (p.jobIn (mode p) s r.rootValue r.data).run 0 = (es, .ok n) ∧
      n.toData = .ok (v, nulls) ∧ a = ⟨some v, Event.errors es ++ nulls⟩ := by
  unfold runIn at h
  rw [hp] at h
  exact Run.ofJob_eq_ok h

/-- A response with data comes from a plan. -/
theorem Request.runIn_eq_ok {mode : Plan → Mode} {s : Schema} {r : Request} {v : Json}
    {errors : List ResponseError} (h : (r.runIn mode s).result = .ok ⟨some v, errors⟩) :
    ∃ p, r.plan s = .ok p ∧
      (p.runIn (mode p) s r.rootValue r.data).result = .ok ⟨some v, errors⟩ := by
  unfold runIn at h
  split at h
  · next p hp => exact ⟨p, hp, h⟩
  · simp at h
  · simp [Response.ofFailure] at h

end GraphQL
