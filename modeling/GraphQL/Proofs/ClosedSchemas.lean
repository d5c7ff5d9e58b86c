/-
GraphQL.Proofs.ClosedSchemas — on closed schemas nothing is put together wrong.

A schema is closed if the types that its object types mention are registered and its root
types are object types (`Schema.Closed`). An execution on such a schema meets no fault:
completion finds a type for every value, what it leaves to do has a concrete type, and
nothing is left to do in the tree that becomes the data.

What remains is that an execution can go on for ever: cyclic fragments, if the validator lets
them pass, descend as far as the data does. `tooDeep` says that it has been given up. It is
met only if resolvers have been called through all the levels there are, which documents
without cyclic fragments never do.

* `Environment.exists_completed` — completion gives a node for every value.
* `Environment.faultBelow_of_objectJob` — a fault of an object is met below one of its fields.
* `Environment.eq_tooDeep_of_fault`, `Environment.exists_call_of_fault` and
  `Plan.collects_of_fault` — what this comes to, by induction on the levels.
* `Node.isResolved_of_grown` — an execution leaves nothing to do.
-/
import GraphQL.Proofs.FragmentCycles
import GraphQL.Proofs.Incidents
import GraphQL.Proofs.NullPropagation

namespace GraphQL

/-! ## Closed schemas -/

/-- Whether a name is registered for a type that fields can have. -/
def Schema.isOutput (s : Schema) (name : String) : Bool :=
  match s.type? name with
  | some (.inputObject _) => false
  | some _ => true
  | none => false

/-- The fields of object types have registered output types, and the root types are object
types. -/
structure Schema.Closed (s : Schema) : Prop where
  fields : ∀ t ∈ s.types.items, ∀ o ∈ t.object?, ∀ d ∈ o.fields.items,
    s.isOutput d.type.baseName = true
  query : (s.object? s.queryType).isSome = true
  mutation : ∀ name ∈ s.mutationType?, (s.object? name).isSome = true

instance (s : Schema) : Decidable s.Closed :=
  decidable_of_iff
    ((∀ t ∈ s.types.items, ∀ o ∈ t.object?, ∀ d ∈ o.fields.items,
        s.isOutput d.type.baseName = true) ∧
      (s.object? s.queryType).isSome = true ∧
      ∀ name ∈ s.mutationType?, (s.object? name).isSome = true)
    ⟨fun ⟨hf, hq, hm⟩ => ⟨hf, hq, hm⟩, fun ⟨hf, hq, hm⟩ => ⟨hf, hq, hm⟩⟩

/-- A sub-selection of a value whose concrete type is known and registered. -/
def SubSelection.Typed (s : Schema) (sub : SubSelection) : Prop :=
  ∃ o, sub.place.concreteType? = some o.name ∧ s.object? o.name = some o

/-- The fields of an object type have output types. -/
theorem Schema.Closed.isOutput_of_field? {s : Schema} (hs : s.Closed) {object name : String}
    {o : ObjectType} (ho : s.object? object = some o) {d : FieldDefinition}
    (hd : s.field? object name = some d) : s.isOutput d.type.baseName = true := by
  obtain ⟨t, ht, hto⟩ := Option.bind_eq_some_iff.1 ho
  rw [Schema.field?, ht, Option.bind_some] at hd
  cases t with
  | object o' =>
    obtain rfl := Option.some.inj hto
    exact hs.fields _ (Registry.mem_of_get? ht).1 o' rfl d (Registry.mem_of_get? hd).1
  | _ => simp [TypeDefinition.object?] at hto

/-! ## Completion -/

theorem Completion.exists_each {α β : Type} {f : Nat → α → Completion β}
    (h : ∀ i x, ∃ y, (f i x).outcome = .ok y) (i : Nat) (xs : List α) :
    ∃ ys, (each f i xs).outcome = .ok ys := by
  induction xs generalizing i with
  | nil => exact ⟨[], rfl⟩
  | cons x xs ih =>
    obtain ⟨y, hy⟩ := h i x
    obtain ⟨ys, hys⟩ := ih (i + 1)
    exact ⟨y :: ys, by simp only [each, hy, hys, Except.map]⟩

namespace Environment

variable {env : Environment}

/-- Values that are not null complete at a registered output type. -/
theorem exists_completedNamed {name : String} (h : env.schema.isOutput name = true) (p : Place)
    (v : Json) : ∃ m, (env.completeNamed p name v).outcome = .ok m := by
  have hleaf : ∀ r, ∃ m, (leaf p r).outcome = .ok m := by
    intro r
    cases r <;> exact ⟨_, rfl⟩
  unfold completeNamed
  cases htype : env.schema.type? name with
  | none => simp [Schema.isOutput, htype] at h
  | some t =>
    cases t with
    | scalar t => exact hleaf _
    | enum t => exact hleaf _
    | object t => exact ⟨_, rfl⟩
    | interface t => cases env.schema.concreteType? name v <;> exact ⟨_, rfl⟩
    | union t => cases env.schema.concreteType? name v <;> exact ⟨_, rfl⟩
    | inputObject t => simp [Schema.isOutput, htype] at h

/-- Every value completes at a type whose innermost name is a registered output type: by
induction on the type. -/
theorem exists_completed {t : TypeExpr} (h : env.schema.isOutput t.baseName = true) (p : Place)
    (v : Json) (reported : Bool) : ∃ m, (env.completeValue t p v reported).outcome = .ok m := by
  induction t generalizing p v reported with
  | nonNull t ih => exact ih h p v reported
  | list t ih =>
    cases v with
    | arr items =>
      obtain ⟨ms, hms⟩ := Completion.exists_each
        (fun i x => ih h (p.item i t) x false) 0 items
      exact ⟨.list p ms, by simp only [completeValue, Completion.map, hms, Except.map]⟩
    | _ => exact ⟨_, rfl⟩
  | named name =>
    cases v with
    | null => exact ⟨_, rfl⟩
    | _ => exact exists_completedNamed h p _

/-- What a completed node leaves to do has a concrete type, at any depth of lists. -/
theorem Completed.typed {t : TypeExpr} {p : Place} {m : Node} (hm : Completed env t p m)
    {sub : SubSelection} (h : .pending sub ∈ m.positions) : sub.Typed env.schema := by
  induction hm with
  | nonNull _ ih => exact ih h
  | null | scalar | enum => simp [Node.positions] at h
  | list _ ih =>
    rw [Node.positions_eq] at h
    rcases List.mem_cons.1 h with h | h
    · cases h
    · obtain ⟨m, hm, h⟩ := List.mem_flatMap.1 h
      obtain ⟨i, hi⟩ := List.mem_iff_getElem?.1 hm
      exact ih i m hi h
  | @object _ o _ _ ho =>
    obtain rfl := Node.pending.inj (List.mem_singleton.1 h)
    exact ⟨o, rfl, Schema.object?_of_mem_possibleTypes ho⟩

/-- Outer non-null wrappers do not matter to completion, however many there are. -/
theorem completeValue_nullableType (t : TypeExpr) (p : Place) (v : Json) (reported : Bool) :
    env.completeValue t.nullableType p v reported = env.completeValue t p v reported := by
  induction t with
  | nonNull t ih => exact ih
  | _ => rfl

/-! ## Faults -/

/-- A fault met below an object: the resolver of a field has been called, and descending into
an object of the field's value meets the fault. -/
inductive FaultBelow (env : Environment) (descend : SubSelection → NodeJob)
    (sub : SubSelection) (es : List Event) (f : Fault) : Prop
  | intro {object : String} {g : FieldGroup} {d : FieldDefinition} {o : ObjectType} {q : Place}
      {v : Json} {call : ResolverCall} {fs : List Event} (hg : env.Selects sub object g d)
      (hcall : .invoked call ∈ es) (hsite : call.site.path = sub.place.path ++ [.key g.key])
      (ho : o ∈ env.schema.possibleTypes d.type.baseName) (hgroup : q.group? = some g)
      (hkeys : q.path.keys = sub.place.path.keys ++ [g.key])
      (h : (descend (env.subSelectionAt q o.name v)).Ends fs (.error f)) (hfs : fs ⊆ es)

variable {descend : SubSelection → NodeJob}

/-- A fault of a completed node is met at an object that is left to do in it. -/
theorem exists_of_pending_fault {t : TypeExpr} {p : Place} {m : Node} (hm : Completed env t p m)
    {es : List Event} {f : Fault} (h : (resolvePending descend m).Ends es (.error f)) :
    ∃ o ∈ env.schema.possibleTypes t.baseName, ∃ q v, ∃ fs ⊆ es, q.group? = p.group? ∧
      q.path.keys = p.path.keys ∧
      (descend (env.subSelectionAt q o.name v)).Ends fs (.error f) := by
  induction hm generalizing es with
  | nonNull _ ih => exact ih h
  | null | scalar | enum => cases (Job.ends_done h).2
  | @list t p items _ ih =>
    obtain ⟨rs, hrs, hr⟩ := list_ends h
    obtain rfl := Except.map_eq_error hr.symm
    obtain ⟨j, hj, es₁, hes₁, hf⟩ := hrs.exists_error
    obtain ⟨m, hm, rfl⟩ := List.mem_map.1 hj
    obtain ⟨i, hi⟩ := List.mem_iff_getElem?.1 hm
    obtain ⟨o, ho, q, v, fs, hfs, hgroup, hkeys, hbelow⟩ := ih i m hi hf
    rw [Place.path_item, Path.keys_append_index] at hkeys
    exact ⟨o, ho, q, v, fs, List.Subset.trans hfs hes₁, hgroup, hkeys, hbelow⟩
  | @object _ o p v ho =>
    exact ⟨o, ho, p, v, es, List.Subset.refl es, rfl, rfl, pending_ends h⟩

/-- A field whose completed value meets a fault has had its resolver called. -/
theorem FetchEnds.exists_call {source : Json} {d : FieldDefinition} {p : Place}
    {g : FieldGroup} (hg : p.group? = some g) {es : List Event} {x : Fetched}
    (hx : FetchEnds env source d p es x) {m : Node}
    (hm : (env.completed d p x).outcome = .ok m) {fs : List Event} {f : Fault}
    (h : (resolvePending descend m).Ends fs (.error f)) :
    ∃ call, .invoked call ∈ es ∧ call.site.path = p.path := by
  cases hx with
  | fieldless hnone => simp [hnone] at hg
  | misfit _ _ =>
    rw [completed, completeValue_eq, Fetched.failed, judge_null] at hm
    obtain rfl := Except.ok.inj hm
    cases (Job.ends_done h).2
  | called _ _ _ => exact ⟨_, List.mem_cons_self, rfl⟩

/-- A fault of an object of a closed schema is met below one of its fields. -/
theorem faultBelow_of_objectJob (hs : env.schema.Closed) {n : Nat} {mode : Mode}
    {sub : SubSelection} (hsub : sub.Typed env.schema) {es : List Event} {f : Fault}
    (h : (env.objectJob (n + 1) mode sub).Ends es (.error f)) :
    env.FaultBelow (env.objectJob n .parallel) sub es f := by
  obtain ⟨o, hobject, ho⟩ := hsub
  obtain ⟨rs, hrs, hr⟩ := joined_of_objectJob h
  obtain rfl := Except.map_eq_error hr.symm
  obtain ⟨j, hj, es₁, hes₁, hfield⟩ := hrs.exists_error
  obtain ⟨g, hg, rfl⟩ := List.mem_map.1 hj
  generalize hresult : (Except.error f : Except Fault (Option Node)) = result at hfield
  cases fieldEnds_of_ends hfield with
  | untyped hnone => simp [hobject] at hnone
  | typename => cases hresult
  | undeclared => cases hresult
  | @declared object d _ r ho' hn hd hends =>
    obtain rfl : object = o.name := Option.some.inj (ho'.symm.trans hobject)
    obtain rfl := Except.map_eq_error hresult.symm
    cases hends with
    | fault _ hc =>
      obtain ⟨m, hm⟩ := exists_completed (hs.isOutput_of_field? ho hd) _ _ _
      rw [completed, hm] at hc
      cases hc
    | @node es₂ fs x m _ hx hc hpending =>
      obtain ⟨call, hcall, hsite⟩ := hx.exists_call rfl hc hpending
      obtain ⟨o', ho', q, v, gs, hgs, hgroup, hkeys, hbelow⟩ :=
        exists_of_pending_fault (completed_of_completeValue hc) hpending
      rw [Place.path_field, Path.keys_append_key] at hkeys
      have hes₂ : es₂ ⊆ es := fun e he => hes₁ (by simp [he])
      have hgs' : gs ⊆ es := fun e he => hes₁ (List.mem_append_right _ (hgs he))
      exact .intro ⟨hobject, hg, hn, hd⟩ (hes₂ hcall) hsite ho' hgroup hkeys hbelow hgs'

/-- On a closed schema the levels can run out, and nothing else can happen: by induction on
the levels. -/
theorem eq_tooDeep_of_fault (hs : env.schema.Closed) {levels : Nat} {mode : Mode}
    {sub : SubSelection} (hsub : sub.Typed env.schema) {es : List Event} {f : Fault}
    (h : (env.objectJob levels mode sub).Ends es (.error f)) : f = .tooDeep := by
  induction levels generalizing mode sub es with
  | zero => exact Except.error.inj (objectJob_zero h).2
  | succ levels ih =>
    cases faultBelow_of_objectJob hs hsub h with
    | intro _ _ _ ho _ _ hbelow _ =>
      exact ih ⟨_, rfl, Schema.object?_of_mem_possibleTypes ho⟩ hbelow

/-- Where they have run out, resolvers have been called through all of them. -/
theorem exists_call_of_fault (hs : env.schema.Closed) {levels : Nat} (hlevels : levels ≠ 0)
    {mode : Mode} {sub : SubSelection} (hsub : sub.Typed env.schema) {es : List Event} {f : Fault}
    (h : (env.objectJob levels mode sub).Ends es (.error f)) :
    ∃ call, .invoked call ∈ es ∧
      call.site.path.keys.length = sub.place.path.keys.length + levels := by
  induction levels generalizing mode sub es with
  | zero => exact absurd rfl hlevels
  | succ levels ih =>
    cases faultBelow_of_objectJob hs hsub h with
    | @intro _ g _ o q v call _ _ hcall hsite ho _ hkeys hbelow hfs =>
      by_cases hlast : levels = 0
      · subst hlast
        refine ⟨call, hcall, ?_⟩
        rw [hsite, Path.keys_append_key, List.length_append, List.length_singleton]
      · obtain ⟨call, hcall, hlength⟩ :=
          ih hlast ⟨o, rfl, Schema.object?_of_mem_possibleTypes ho⟩ hbelow
        refine ⟨call, hfs hcall, hlength.trans ?_⟩
        simp only [subSelectionAt, Place.path_withConcreteType, hkeys, List.length_append,
          List.length_singleton]
        omega

end Environment

/-- Where the levels have run out, the plan can collect fields through all of them. -/
theorem Plan.collects_of_fault {p : Plan} {s : Schema} {data : RequestData} (hs : s.Closed)
    {levels : Nat} {mode : Mode} {sub : SubSelection} (hsub : sub.Typed s)
    {route : List Visit} {object : String} {sets : List SelectionSet}
    (hc : p.Collects s route object sets) (hobject : sub.place.concreteType? = some object)
    (hgroups : sub.groups = (p.scope s).groupsOn object sets) {es : List Event} {f : Fault}
    (h : ((p.environment s data).objectJob levels mode sub).Ends es (.error f)) :
    ∃ route' object' sets', p.Collects s route' object' sets' ∧
      route'.length = route.length + levels := by
  induction levels generalizing mode sub route object sets es with
  | zero => exact ⟨route, object, sets, hc, rfl⟩
  | succ levels ih =>
    have hs' : (p.environment s data).schema.Closed := hs
    have hsub' : sub.Typed (p.environment s data).schema := hsub
    cases Environment.faultBelow_of_objectJob hs' hsub' h with
    | @intro object' g d o q v _ _ hg _ _ ho hgroup _ hbelow _ =>
      obtain rfl : object' = object := Option.some.inj (hg.typed.symm.trans hobject)
      have hnext := hc.field (hgroups ▸ hg.group) hg.name hg.field ho
      have hgroups' : ((p.environment s data).subSelectionAt q o.name v).groups =
          (p.scope s).groupsOn o.name (g.fields.map Field.selections) := by
        simp only [Environment.subSelectionAt, hgroup]
        rfl
      obtain ⟨route', object', sets', hc', hlength⟩ :=
        ih ⟨o, rfl, Schema.object?_of_mem_possibleTypes ho⟩ hnext rfl hgroups' hbelow
      refine ⟨route', object', sets', hc', hlength.trans ?_⟩
      rw [List.length_append, List.length_singleton]
      omega

/-! ## Resolved trees -/

namespace Node

theorem isResolved_of_parts {n : Node} (hn : ∀ sub, n ≠ .pending sub)
    (h : ∀ m ∈ n.parts, m.IsResolved) : n.IsResolved := by
  intro sub hsub
  rw [positions_eq] at hsub
  rcases List.mem_cons.1 hsub with hsub | hsub
  · exact hn sub hsub.symm
  · obtain ⟨m, hm, hsub⟩ := List.mem_flatMap.1 hsub
    exact h m hm sub hsub

theorem isResolved_leaf (p : Place) (v : Json) : (leaf p v).IsResolved :=
  isResolved_of_parts (by simp) (by simp [parts])

variable {env : Environment}

mutual

/-- A grown node has nothing left to do in it. -/
theorem isResolved_of_grown : ∀ {t : TypeExpr} {p : Place} {n : Node},
    env.Grown t p n → n.IsResolved
  | _, _, _, .nonNull h => isResolved_of_grown h
  | _, _, _, .null _ _ _ => isResolved_of_parts (by simp) (by simp [parts])
  | _, _, _, .list h => isResolved_of_parts (by simp) (isResolved_of_grownItems h)
  | _, _, _, .scalar _ _ => isResolved_leaf _ _
  | _, _, _, .enum _ _ => isResolved_leaf _ _
  | _, _, _, .object _ h =>
    isResolved_of_parts (by simp) (List.forall_mem_map.2 (isResolved_of_grownFields h))

theorem isResolved_of_grownItems : ∀ {t : TypeExpr} {p : Place} {i : Nat} {ns : List Node},
    env.GrownItems t p i ns → ∀ m ∈ ns, m.IsResolved
  | _, _, _, _, .nil _ _ _ => fun _ hm => absurd hm List.not_mem_nil
  | _, _, _, _, .cons h hs =>
    List.forall_mem_cons.2 ⟨isResolved_of_grown h, isResolved_of_grownItems hs⟩

theorem isResolved_of_grownFields : ∀ {p : Place} {object : String} {gs : FieldGroups}
    {children : List (String × Node)},
    env.GrownFields p object gs children → ∀ c ∈ children, c.2.IsResolved
  | _, _, _, _, .nil _ _ => fun _ hc => absurd hc List.not_mem_nil
  | _, _, _, _, .typename _ hs =>
    List.forall_mem_cons.2 ⟨isResolved_leaf _ _, isResolved_of_grownFields hs⟩
  | _, _, _, _, .undeclared _ _ hs => isResolved_of_grownFields hs
  | _, _, _, _, .declared _ _ h hs =>
    List.forall_mem_cons.2 ⟨isResolved_of_grown h, isResolved_of_grownFields hs⟩

end

/-- A tree that an execution has built has nothing left to do in it. -/
theorem isResolved_of_ends {levels : Nat} {mode : Mode} {sub : SubSelection} {object : String}
    (hobject : sub.place.concreteType? = some object) {es : List Event} {n : Node}
    (h : (env.objectJob levels mode sub).Ends es (.ok n)) : n.IsResolved := by
  obtain ⟨children, rfl, hchildren⟩ := env.grown_objectJob levels mode hobject h
  exact isResolved_of_parts (by simp)
    (List.forall_mem_map.2 (isResolved_of_grownFields hchildren))

/-- A resolved tree becomes data. -/
theorem exists_toData {n : Node} (h : n.IsResolved) : ∃ x, n.toData = .ok x := by
  obtain ⟨c, hc, -⟩ := settlesExactly n h
  rw [toData, hc]
  exact ⟨_, rfl⟩

end Node

/-! ## Requests -/

/-- Execute a plan with a number of levels. -/
def Plan.runWithin (p : Plan) (levels : Nat) (s : Schema) (source : Json) (data : RequestData) :
    Run :=
  .ofJob ((p.environment s data).objectJob levels p.mode (p.subSelection s source))

/-- What keeps the execution of a plan from faults. -/
structure Plan.FaultFree (p : Plan) (s : Schema) (source : Json) (data : RequestData) : Prop where
  /-- However many levels there are, nothing can happen but that they run out. -/
  faults : ∀ levels f, (p.runWithin levels s source data).result = .error f → f = .tooDeep
  /-- The object to start from has a concrete type, -/
  root : (p.subSelection s source).Typed s
  /-- and so has each that a completed value leaves to do. -/
  objects : ∀ t q v reported m,
    ((p.environment s data).completeValue t q v reported).outcome = .ok m →
    ∀ sub, .pending sub ∈ m.positions → sub.Typed s
  /-- Every value of a field completes, -/
  fields : ∀ object o name d, s.object? object = some o → s.field? object name = some d →
    ∀ q v reported, ∃ m, ((p.environment s data).completeValue d.type q v reported).outcome = .ok m
  /-- by a type that is not non-null once its outer wrappers are gone. -/
  nullable : ∀ t q v reported, t.nullableType.isNonNull = false ∧
    (p.environment s data).completeValue t q v reported =
      (p.environment s data).completeValue t.nullableType q v reported
  /-- The tree that becomes the data has nothing left to do in it. -/
  resolved : ∀ levels es n,
    ((p.environment s data).objectJob levels p.mode (p.subSelection s source)).run 0 = (es, .ok n) →
    n.IsResolved

namespace Plan

variable {p : Plan} {s : Schema} {source : Json} {data : RequestData}

theorem typed_subSelection (hp : p.Fits s) (source : Json) : (p.subSelection s source).Typed s := by
  obtain ⟨o, ho⟩ := hp.object
  have hname := Schema.name_of_object? ho
  exact ⟨o, congrArg some hname.symm, hname ▸ ho⟩

/-- A run that has no response met a fault while its tree was built. -/
theorem ends_of_runWithin {levels : Nat} {f : Fault}
    (h : (p.runWithin levels s source data).result = .error f) :
    ((p.environment s data).objectJob levels p.mode (p.subSelection s source)).Ends
      (p.runWithin levels s source data).trace (.error f) := by
  rcases hrun : ((p.environment s data).objectJob levels p.mode
    (p.subSelection s source)).run 0 with ⟨es, result⟩
  have htrace : (p.runWithin levels s source data).trace = es := congrArg Prod.fst hrun
  have hends := Job.ends_of_run hrun
  rw [runWithin, Run.result_ofJob hrun] at h
  cases result with
  | error f' =>
    obtain rfl := Except.error.inj h
    rwa [htrace]
  | ok n =>
    obtain ⟨x, hx⟩ := Node.exists_toData (Node.isResolved_of_ends rfl hends)
    simp only [Except.bind, hx, Except.map] at h
    cases h

/-- Nothing but too many levels keeps a plan from a response on a closed schema. -/
theorem faultFree_of_closed (hs : s.Closed) (hp : p.Fits s) (source : Json) (data : RequestData) :
    p.FaultFree s source data where
  faults _ _ h :=
    have hs' : (p.environment s data).schema.Closed := hs
    Environment.eq_tooDeep_of_fault hs' (typed_subSelection hp source) (ends_of_runWithin h)
  root := typed_subSelection hp source
  objects _ _ _ _ _ hm _ hsub := (Environment.completed_of_completeValue hm).typed hsub
  fields _ _ _ _ ho hd q v reported :=
    have hd' : (p.environment s data).schema.isOutput _ = true := hs.isOutput_of_field? ho hd
    Environment.exists_completed hd' q v reported
  nullable t q v reported :=
    ⟨t.isNonNull_nullableType, (Environment.completeValue_nullableType t q v reported).symm⟩
  resolved _ _ _ h := Node.isResolved_of_ends rfl (Job.ends_of_run h)

/-- With the levels that its document is given, a plan runs to a response on a closed schema,
unless cyclic fragments take it through all of them. -/
theorem runWithin_of_closed (hs : s.Closed) (hp : p.Fits s) (source : Json) (data : RequestData)
    {run : Run} (hrun : p.runWithin (Environment.levelsFor p.document) s source data = run) :
    (∃ a, run.result = .ok a) ∨
      p.document.FragmentsCycle ∧ run.result = .error .tooDeep ∧
        ∃ call, .invoked call ∈ run.trace ∧
          call.site.path.keys.length = Environment.levelsFor p.document := by
  subst hrun
  cases hresult : (p.runWithin (Environment.levelsFor p.document) s source data).result with
  | ok a => exact .inl ⟨a, rfl⟩
  | error f =>
    have hends := ends_of_runWithin hresult
    have hs' : (p.environment s data).schema.Closed := hs
    have htyped : (p.subSelection s source).Typed (p.environment s data).schema :=
      typed_subSelection hp source
    obtain rfl := Environment.eq_tooDeep_of_fault hs' htyped hends
    refine .inr ⟨?_, rfl, ?_⟩
    · by_contra hcycle
      obtain ⟨route, object, sets, hc, hlength⟩ :=
        collects_of_fault hs (typed_subSelection hp source) .root rfl rfl hends
      have hle := hc.length_le hp hcycle
      rw [hlength, Environment.levelsFor] at hle
      omega
    · have hlevels : Environment.levelsFor p.document ≠ 0 := by
        rw [Environment.levelsFor]
        omega
      obtain ⟨call, hcall, hlength⟩ := Environment.exists_call_of_fault hs' hlevels htyped hends
      exact ⟨call, hcall, hlength.trans (Nat.zero_add _)⟩

end Plan

namespace Request

/-- The root types of a closed schema are object types. -/
theorem target_ne_fault {s : Schema} (hs : s.Closed) (r : Request) (d : Document) (f : Fault) :
    r.target s d ≠ .error (.fault f) := by
  intro h
  unfold target at h
  split at h
  · cases h
  · next o _ =>
    split at h
    · cases h
    · next root hroot =>
      have hobject : (s.object? root).isSome = true := by
        unfold Operation.rootTypeName at hroot
        split at hroot
        · exact Except.ok.inj hroot ▸ hs.query
        · split at hroot
          · next name hname => exact Except.ok.inj hroot ▸ hs.mutation name hname
          · cases hroot
        · cases hroot
      split at h
      · cases h
      · next hnone => simp [hnone] at hobject

/-- What a closed schema turns down before any resolver runs has a response that says so. -/
theorem plan_ne_fault {s : Schema} (hs : s.Closed) (r : Request) (f : Fault) :
    r.plan s ≠ .error (.fault f) := by
  have hdocument : r.document s ≠ .error (.fault f) := by
    unfold document
    split
    · simp
    · split <;> simp
  have hraw : r.rawVariables ≠ .error (.fault f) := by
    unfold rawVariables
    split <;> simp
  intro h
  unfold plan at h
  cases hd : r.document s with
  | error e =>
    obtain rfl : e = .fault f := by simpa [hd, bind, Except.bind] using h
    exact hdocument hd
  | ok d =>
    cases ht : r.target s d with
    | error e =>
      obtain rfl : e = .fault f := by simpa [hd, ht, bind, Except.bind] using h
      exact target_ne_fault hs r d f ht
    | ok target =>
      cases hv : r.rawVariables with
      | error e =>
        obtain rfl : e = .fault f := by simpa [hd, ht, hv, bind, Except.bind] using h
        exact hraw hv
      | ok raw =>
        simp only [hd, ht, hv, bind, Except.bind] at h
        split at h <;> cases h

/-- Requests to closed schemas are answered, whatever the document, its validator and the
resolvers are. An execution can only descend for ever: it is given up if cyclic fragments have
taken it through all the levels there are, resolver by resolver. -/
theorem answers_of_closed {s : Schema} (hs : s.Closed) (r : Request) :
    ((∃ a, (r.run s).result = .ok a) ∨
      ∃ p, r.plan s = .ok p ∧ p.document.FragmentsCycle ∧
        (r.run s).result = .error .tooDeep ∧
        ∃ call, .invoked call ∈ (r.run s).trace ∧
          call.site.path.keys.length = Environment.levelsFor p.document) ∧
    ∀ p, r.plan s = .ok p → p.FaultFree s r.rootValue r.data := by
  refine ⟨?_, fun p hp => Plan.faultFree_of_closed hs (Plan.fits_of_plan hp) _ _⟩
  cases hplan : r.plan s with
  | error failure =>
    refine .inl ?_
    rw [run, runIn, hplan]
    cases failure with
    | fault f => exact absurd hplan (plan_ne_fault hs r f)
    | _ => exact ⟨_, rfl⟩
  | ok p =>
    have hp := Plan.fits_of_plan hplan
    have hrun : p.runWithin (Environment.levelsFor p.document) s r.rootValue r.data = r.run s := by
      rw [run, runIn, hplan]
      rfl
    rcases Plan.runWithin_of_closed hs hp _ _ hrun with hanswer | ⟨hcycle, hresult, hcall⟩
    · exact .inl hanswer
    · exact .inr ⟨p, rfl, hcycle, hresult, hcall⟩

end Request

/-- Rings that hold further rings, in lists of lists and behind an interface. -/
def ringSchema : Schema :=
  let name : FieldDefinition := ⟨"name", .empty, .required "String", none⟩
  let held : TypeExpr := .nonNull (.nonNull (.list (.list (.required "Link"))))
  (((Schema.ofQueryType "Query").register
    (.interface ⟨"Link", .ofList [name], none⟩)).register
    (.object ⟨"Ring", .ofList [name, ⟨"held", .empty, held, none⟩], ["Link"]⟩)).register
    (.object ⟨"Query", .ofList [⟨"ring", .empty, .named "Ring", none⟩], []⟩)

/-- A fragment spreads itself, and a validator that accepts everything lets it pass. -/
def ringRequest : Request :=
  let inner : Json := .obj [("__typename", .str "Ring"), ("name", .str "b"), ("held", .arr [])]
  { Request.ofText "{ ring { ...Rest } } fragment Rest on Ring { name held { ...Rest } }" with
    rootValue := .obj [("ring", .obj [("name", .str "a"), ("held", .arr [.arr [inner], .null])])]
    validator := Validation.permissive }

/-- The data ends what the fragment would go on with. -/
theorem Request.answers_of_closed_demo :
    ringSchema.Closed ∧
      (ringRequest.run ringSchema).result = .ok ⟨some (.obj [("ring", .obj [("name", .str "a"),
        ("held", .arr [.arr [.obj [("name", .str "b"), ("held", .arr [])]], .null])])]), []⟩ ∧
      ∃ p, ringRequest.plan ringSchema = .ok p ∧ p.document.FragmentsCycle ∧
        p.FaultFree ringSchema ringRequest.rootValue ringRequest.data := by
  have hs : ringSchema.Closed := by decide +kernel
  have hcycle : (ringRequest.plan ringSchema).toOption.any (fun p =>
      (p.document.fragments.get? "Rest").any fun f => f.selections.spreads.contains "Rest") =
        true := by
    decide +kernel
  obtain ⟨p, hp, hfragment⟩ := (Option.any_eq_true _ _).1 hcycle
  obtain ⟨f, hf, hspread⟩ := (Option.any_eq_true _ _).1 hfragment
  have hplan : ringRequest.plan ringSchema = .ok p := by
    cases hp' : ringRequest.plan ringSchema with
    | error e => simp [hp', Except.toOption] at hp
    | ok p' => simpa [hp', Except.toOption] using hp
  have hleads : Fragment.Spreads p.document.fragments f f :=
    ⟨"Rest", List.contains_iff_mem.1 hspread, hf⟩
  exact ⟨hs, by decide +kernel, p, hplan, ⟨f, .single hleads⟩,
    (Request.answers_of_closed hs ringRequest).2 p hplan⟩

end GraphQL
