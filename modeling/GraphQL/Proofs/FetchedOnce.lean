/-
GraphQL.Proofs.FetchedOnce — every field is fetched exactly once.

At an object value the resolver of a response key is due (`Environment.dueCall?`) if the
first selection of the key is a declared field other than `__typename` and its arguments
can be coerced. What is due is read off the object value alone; it does not matter what
becomes of the fields beside it, of the value itself, or of the lists around it.

`Run.FetchesOnce` says of a run that what is due is what happens: at every object value
that the execution visits the resolver of each key is called once if it is due and not at
all if not, and no resolver is called anywhere else.

* `Environment.Accounts.filter_calls` — the calls at one key of one object value.
* `Request.fetches_once` — every request that is answered with data runs so.
-/
import GraphQL.Proofs.Accounts

namespace GraphQL

/-! ## Calls that are due -/

namespace Environment

/-- The call that is due for a group of fields on an object value at a path: none for
`__typename`, for a field that the object type does not declare, and where an argument
does not fit its type. -/
def dueCall? (env : Environment) (path : Path) (object : String) (source : Json)
    (g : FieldGroup) : Option ResolverCall :=
  if g.name = "__typename" then none
  else
    match env.schema.field? object g.name with
    | none => none
    | some d =>
      match coerceArgumentValues env.schema env.scope.vars d.arguments.items g.arguments with
      | .error _ => none
      | .ok arguments => some
          { source
            arguments
            site :=
              { path := path ++ [.key g.key]
                fieldName := g.name
                responseKey := g.key
                parentType := object
                fieldType := d.type }
            data := env.data }

variable {env : Environment} {root : SubSelection} {xs : List Incident}

theorem dueCall?_eq_some {sub : SubSelection} {object : String} {g : FieldGroup}
    {call : ResolverCall} :
    env.dueCall? sub.place.path object sub.source g = some call ↔
      g.name ≠ "__typename" ∧ ∃ d arguments, env.schema.field? object g.name = some d ∧
        coerceArgumentValues env.schema env.scope.vars d.arguments.items g.arguments =
          .ok arguments ∧
        env.call sub.source arguments (sub.place.field g.key g object d.type) = call := by
  unfold dueCall?
  by_cases hn : g.name = "__typename"
  · simp [hn]
  · rw [if_neg hn]
    cases hd : env.schema.field? object g.name with
    | none => simp
    | some d =>
      cases ha : coerceArgumentValues env.schema env.scope.vars d.arguments.items g.arguments with
      | error e => simp [ha]
      | ok arguments =>
        simp only [ha, Option.some.injEq, ne_eq, hn, not_false_eq_true, true_and]
        constructor
        · rintro rfl
          exact ⟨d, arguments, rfl, ha, rfl⟩
        · rintro ⟨d', arguments', rfl, ha', rfl⟩
          obtain rfl := Except.ok.inj (ha.symm.trans ha')
          rfl

/-! ## One call for each -/

/-- The call of a listed incident stands at its path. -/
theorem Accounts.slot_of_call (h : env.Accounts root xs) {x : Incident} (hx : x ∈ xs)
    {call : ResolverCall} (hcall : x.call? = some call) : x.slot = (call.site.path, false) := by
  cases h.occurs x hx with
  | refused => cases hcall
  | fetched _ _ hf =>
    cases hf with
    | misfit => cases hcall
    | answered =>
      obtain rfl := Option.some.inj hcall
      rfl

/-- No two listed calls are the same. -/
theorem Accounts.nodup_calls (h : env.Accounts root xs) :
    (xs.filterMap Incident.call?).Nodup := by
  have hslots : xs.Pairwise fun x y => x.slot ≠ y.slot := List.pairwise_map.1 h.once
  refine List.pairwise_filterMap.2 (hslots.imp_of_mem fun hx hy hne c hc c' hc' heq => hne ?_)
  rw [h.slot_of_call hx hc, h.slot_of_call hy hc', heq]

/-- A listed call is due at an object value that is visited. -/
theorem Accounts.exists_due (h : env.Accounts root xs) {call : ResolverCall}
    (hcall : call ∈ xs.filterMap Incident.call?) :
    ∃ path sub object g, env.Visits root xs path sub ∧ sub.place.concreteType? = some object ∧
      g ∈ sub.groups ∧ env.dueCall? sub.place.path object sub.source g = some call := by
  obtain ⟨x, hx, hxcall⟩ := List.mem_filterMap.1 hcall
  cases h.occurs x hx with
  | refused => cases hxcall
  | @fetched path sub object g d _ hvisit hg hf =>
    cases hf with
    | misfit => cases hxcall
    | answered ha _ =>
      obtain rfl := Option.some.inj hxcall
      exact ⟨path, sub, object, g, hvisit, hg.typed, hg.group,
        dueCall?_eq_some.2 ⟨hg.name, d, _, hg.field, ha, rfl⟩⟩

/-- A call that is due at an object value that is visited is listed. -/
theorem Accounts.mem_of_due (h : env.Accounts root xs) {path : Path} {sub : SubSelection}
    (hvisit : env.Visits root xs path sub) {object : String} {g : FieldGroup}
    (ho : sub.place.concreteType? = some object) (hg : g ∈ sub.groups) {call : ResolverCall}
    (hdue : env.dueCall? sub.place.path object sub.source g = some call) :
    call ∈ xs.filterMap Incident.call? := by
  obtain ⟨hn, d, arguments, hd, ha, rfl⟩ := dueCall?_eq_some.1 hdue
  obtain ⟨x, hx, hf⟩ := h.fetched hvisit ⟨ho, hg, hn, hd⟩
  cases hf with
  | misfit ha' =>
    rw [ha] at ha'
    cases ha'
  | answered ha' _ =>
    obtain rfl := Except.ok.inj (ha.symm.trans ha')
    exact List.mem_filterMap.2 ⟨_, hx, rfl⟩

/-- Among the calls of an execution those at one key of one object value are the one that
is due there, or none. -/
theorem Accounts.filter_calls (h : env.Accounts root xs) (hpath : root.place.path = [])
    (hkeys : (FieldGroups.keys root.groups).Nodup) {calls : List ResolverCall}
    (hcalls : calls.Perm (xs.filterMap Incident.call?)) {path : Path} {sub : SubSelection}
    (hvisit : env.Visits root xs path sub) {object : String} {g : FieldGroup}
    (ho : sub.place.concreteType? = some object) (hg : g ∈ sub.groups) :
    calls.filter (fun c => c.site.path = path ++ [.key g.key]) =
      (env.dueCall? path object sub.source g).toList := by
  have hplace := hvisit.path_eq hpath
  have hmem : ∀ call, call ∈ calls.filter (fun c => c.site.path = path ++ [.key g.key]) ↔
      env.dueCall? path object sub.source g = some call := by
    intro call
    rw [List.mem_filter, hcalls.mem_iff, decide_eq_true_eq, ← hplace]
    constructor
    · rintro ⟨hlisted, hsite⟩
      obtain ⟨path', sub', object', g', hvisit', ho', hg', hdue⟩ := h.exists_due hlisted
      -- the path of the call says which object value and which key it is of
      obtain ⟨-, d, arguments, -, -, rfl⟩ := dueCall?_eq_some.1 hdue
      obtain ⟨hsame, hlast⟩ := List.append_inj' hsite rfl
      obtain rfl := Visits.eq_of_path_eq h.once hkeys hvisit' hvisit
        ((hvisit'.path_eq hpath).symm.trans (hsame.trans hplace))
      obtain rfl := Option.some.inj (ho'.symm.trans ho)
      have hkey := PathPart.key.inj (List.cons.inj hlast).1
      obtain rfl := List.inj_on_of_nodup_map (hvisit.nodup_keys hkeys) hg' hg hkey
      exact hdue
    · intro hdue
      refine ⟨h.mem_of_due hvisit ho hg hdue, ?_⟩
      obtain ⟨-, d, arguments, -, -, rfl⟩ := dueCall?_eq_some.1 hdue
      rfl
  have hnodup : calls.Nodup := hcalls.nodup_iff.2 h.nodup_calls
  have hperm : (calls.filter fun c => c.site.path = path ++ [.key g.key]).Perm
      (env.dueCall? path object sub.source g).toList := by
    refine (List.perm_ext_iff_of_nodup (hnodup.filter _) (Option.toList_nodup _)).2 fun call => ?_
    rw [hmem, Option.mem_toList]
  cases hdue : env.dueCall? path object sub.source g with
  | none =>
    rw [hdue] at hperm
    exact List.perm_nil.1 hperm
  | some call =>
    rw [hdue] at hperm
    exact List.perm_singleton.1 hperm

end Environment

/-! ## Runs -/

/-- In a run with a result tree what is due is what happens. The incidents `xs` say what
the resolvers came to, and so which object values the execution visits. -/
structure Run.FetchesOnce (run : Run) (env : Environment) (root : SubSelection) (tree : Node)
    (xs : List Incident) : Prop where
  accounts : env.Accounts root xs
  /-- The object values are those at the objects of the tree, which has the positions that
  a collapse discards as well. -/
  objects : ∀ path, (∃ sub, env.Visits root xs path sub) ↔
    ∃ q children, .object q children ∈ tree.positions ∧ q.path = path
  /-- There is one object value at a path. -/
  unique : ∀ {path sub sub'}, env.Visits root xs path sub → env.Visits root xs path sub' →
    sub = sub'
  /-- At each key of an object value the resolver is called once if that is due, with this
  value and this path, and not at all if not. -/
  due : ∀ {path sub}, env.Visits root xs path sub →
    ∃ object, sub.place.concreteType? = some object ∧ ∀ g ∈ sub.groups,
      (Event.calls run.trace).filter (fun call => call.site.path = path ++ [.key g.key]) =
        (env.dueCall? path object sub.source g).toList
  /-- No resolver is called elsewhere. -/
  only : ∀ call, .invoked call ∈ run.trace →
    ∃ path sub object g, env.Visits root xs path sub ∧ sub.place.concreteType? = some object ∧
      g ∈ sub.groups ∧ env.dueCall? path object sub.source g = some call

/-- Every field is fetched exactly once. In a request that is answered with data the
resolver of every key of every object value is called once if its first selection is a
declared field other than `__typename` whose arguments can be coerced, and no other
resolver is called; the values of branches that are discarded count like all others. -/
theorem Request.fetches_once {s : Schema} {r : Request} {p : Plan} {a : Response}
    (hp : r.plan s = .ok p) (h : (r.run s).result = .ok a) :
    ∃ tree xs, r.tree? s = some tree ∧
      (r.run s).FetchesOnce (p.environment s r.data) (p.subSelection s r.rootValue) tree xs := by
  obtain ⟨children, xs, v, nulls, htree, -, hfields, hxs, -, -⟩ := told_of_run hp h
  have hkeys := p.nodup_keys_subSelection s r.rootValue
  have haccounts := Environment.accounts_of_told rfl rfl hkeys hfields
  have hpath : (p.subSelection s r.rootValue).place.path = [] := rfl
  refine ⟨_, xs, htree, haccounts, Environment.visits_iff_of_told rfl rfl hkeys hfields,
    Environment.Visits.unique haccounts.once hkeys, fun hvisit => ?_, fun call hcall => ?_⟩
  · obtain ⟨object, ho⟩ := hvisit.typed ⟨_, rfl⟩
    exact ⟨object, ho, fun g hg => haccounts.filter_calls hpath hkeys hxs.calls hvisit ho hg⟩
  · have hlisted := hxs.calls.mem_iff.1 (Event.mem_calls.2 hcall)
    obtain ⟨path, sub, object, g, hvisit, ho, hg, hdue⟩ := haccounts.exists_due hlisted
    rw [hvisit.path_eq hpath] at hdue
    exact ⟨path, sub, object, g, hvisit, ho, hg, hdue⟩

/-- Cells in a list of lists, next to a count that breaks down. -/
def gridSchema : Schema :=
  let cell (name : Json) : Json := .obj [("name", name), ("size", .int 2)]
  let cells := Json.arr [.arr [cell (.str "a")], .null, .arr [cell .null, .null]]
  ((Schema.ofQueryType "Query").register
    (.object ⟨"Cell", .ofList [⟨"name", .empty, .required "String", some (.suspended 1 .property)⟩,
      ⟨"size", .empty, .named "Int", none⟩], []⟩)).register
    (.object ⟨"Query", .ofList [⟨"cells", .empty, .list (.list (.named "Cell")),
        some (.suspended 1 (.ofOutcome (.value cells)))⟩,
      ⟨"count", .empty, .required "Int", some (.ofOutcome (.breakdown none))⟩], []⟩)

def gridRequest : Request := .ofText "{ cells { type: __typename name size } count }"

/-- A breakdown costs all the data, and a cell without a name collapses; yet every field of
every cell is fetched once. -/
theorem Request.fetches_once_demo :
    ∃ p a, gridRequest.plan gridSchema = .ok p ∧ (gridRequest.run gridSchema).result = .ok a ∧
      a.data? = some .null ∧
      (Event.calls (gridRequest.run gridSchema).trace).map (fun c => c.site.path.text) =
        ["/cells", "/count", "/cells/0/0/name", "/cells/0/0/size", "/cells/2/0/name",
          "/cells/2/0/size"] ∧
      ∃ tree xs, gridRequest.tree? gridSchema = some tree ∧
        (gridRequest.run gridSchema).FetchesOnce (p.environment gridSchema gridRequest.data)
          (p.subSelection gridSchema gridRequest.rootValue) tree xs := by
  have hresult : ((gridRequest.run gridSchema).result.toOption.bind Response.data?) =
      some .null := by
    decide +kernel
  have hplan : (gridRequest.plan gridSchema).toOption.isSome = true := by decide +kernel
  cases hp : gridRequest.plan gridSchema with
  | error e => simp [hp, Except.toOption] at hplan
  | ok p =>
    cases ha : (gridRequest.run gridSchema).result with
    | error f => simp [ha, Except.toOption] at hresult
    | ok a =>
      rw [ha] at hresult
      exact ⟨p, a, rfl, rfl, hresult, by decide +kernel, Request.fetches_once hp ha⟩

end GraphQL
