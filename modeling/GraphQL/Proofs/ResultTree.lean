/-
GraphQL.Proofs.ResultTree — the shape of the trees that executions build.

`Environment.Grown env t p n` says that the node `n` stands at the place `p` as an
execution in `env` puts it there for the type `t`: a null, a list of items at
their own places, a converted leaf, or an object of a possible concrete type with
one child for every field group that the type answers, in the order of the groups.
The relation is by the declared type and the collected groups alone; which values
the resolvers gave is open.

* `Environment.completed_of_completeValue` — what completing a value can come to,
  with objects still pending (`Environment.Completed`).
* `Environment.grown_of_ends` — resolving what is pending in a completed node gives
  a grown one.
* `Environment.grown_objectJob` — so does every ending of an execution without a
  fault: this is the invariant that what is said of results rests on.
* `Environment.under_objectJob` — every error that is raised on the way carries a
  path at or below the place of the object.
-/
import GraphQL.Proofs.Steps

namespace GraphQL

/-! ## Possible types -/

namespace Registry

variable {α : Type} [Named α]

/-- No two items of a registry have one name. -/
theorem eq_of_name_eq {r : Registry α} {x y : α} (hx : x ∈ r.items) (hy : y ∈ r.items)
    (h : Named.name x = Named.name y) : x = y :=
  List.inj_on_of_nodup_map r.nodup hx hy h

/-- An item of a registry is found under its name. -/
theorem get?_of_mem {r : Registry α} {x : α} (h : x ∈ r.items) :
    r.get? (Named.name x) = some x := by
  obtain ⟨items, hnodup⟩ := r
  simp only [get?] at h ⊢
  induction items with
  | nil => simp at h
  | cons y ys ih =>
    rw [List.map_cons, List.nodup_cons] at hnodup
    rcases List.mem_cons.1 h with rfl | h
    · simp
    · have hne : Named.name y ≠ Named.name x := fun e =>
        hnodup.1 (e ▸ List.mem_map_of_mem h)
      have hb : (Named.name y == Named.name x) = false := by simpa using hne
      rw [List.find?_cons, hb]
      exact ih hnodup.2 h

end Registry

namespace Schema

/-- A possible type of any type is the registered object type of its name. -/
theorem object?_of_mem_possibleTypes {s : Schema} {name : String} {o : ObjectType}
    (h : o ∈ s.possibleTypes name) : s.object? o.name = some o := by
  unfold possibleTypes at h
  split at h
  · next o' ho' =>
    obtain rfl := List.mem_singleton.1 h
    have hname : o.name = name := name_of_type? ho'
    simp only [object?, hname, ho', Option.bind_some, TypeDefinition.object?]
  · obtain ⟨t, ht, ho⟩ := List.mem_filterMap.1 (List.mem_filter.1 h).1
    cases t with
    | object o' =>
      obtain rfl : o' = o := Option.some.inj ho
      have hget : s.type? o'.name = some (.object o') := Registry.get?_of_mem ht
      simp only [object?, hget, Option.bind_some, TypeDefinition.object?]
    | _ => simp [TypeDefinition.object?] at ho
  · obtain ⟨m, _, ho⟩ := List.mem_filterMap.1 h
    rwa [name_of_object? ho]
  · simp at h

/-- A covered name that is an object type is a possible type. -/
theorem mem_possibleTypes_of_covers {s : Schema} {name typeName : String} {o : ObjectType}
    (hcovers : s.covers name typeName = true) (ho : s.object? typeName = some o) :
    o ∈ s.possibleTypes name := by
  obtain ⟨o', ho', hname⟩ := List.any_eq_true.1 hcovers
  have hfound := object?_of_mem_possibleTypes ho'
  rw [beq_iff_eq.1 hname, ho] at hfound
  rwa [Option.some.inj hfound]

/-- The concrete type of a value of an abstract type is a possible type of it. -/
theorem mem_possibleTypes_of_concreteType? {s : Schema} {name : String} {v : Json}
    {o : ObjectType} (h : s.concreteType? name v = some o) : o ∈ s.possibleTypes name := by
  have hnamed : ∀ typeName? : Option String,
      (typeName?.bind fun typeName =>
        if s.covers name typeName then s.object? typeName else none) = some o →
      o ∈ s.possibleTypes name := by
    intro typeName? h
    obtain ⟨typeName, _, h⟩ := Option.bind_eq_some_iff.1 h
    split at h
    · next hcovers => exact mem_possibleTypes_of_covers hcovers h
    · simp at h
  simp only [concreteType?, Option.bind_eq_bind] at h
  split at h
  · simp only [Option.bind_some] at h
    split at h
    · exact hnamed _ h
    · exact hnamed _ h
  · simp only [Option.bind_some] at h
    split at h
    · exact hnamed _ h
    · exact hnamed _ h
  · simp at h

end Schema

/-! ## Places -/

/-- The place before the object type of its value is known. -/
def Place.untyped (p : Place) : Place := { p with concreteType? := none }

/-- The error is about a path or something below it. -/
def ResponseError.Under (a : Path) (e : ResponseError) : Prop := ∃ b, e.path? = some (a ++ b)

theorem ResponseError.Under.of_append {a b : Path} {e : ResponseError}
    (h : e.Under (a ++ b)) : e.Under a := by
  obtain ⟨c, hc⟩ := h
  exact ⟨b ++ c, by rw [hc, List.append_assoc]⟩

theorem Place.under_error (p : Place) (message : String) : (p.error message).Under p.path :=
  ⟨[], by rw [List.append_nil]; rfl⟩

namespace Environment

/-! ## Completed nodes -/

/-- A node as a completion puts it at a place, for a type: the declared type of the place
or what is left of it under non-null wrappers. -/
inductive Completed (env : Environment) : TypeExpr → Place → Node → Prop
  | nonNull {t : TypeExpr} {p : Place} {m : Node} (h : Completed env t p m) :
      Completed env (.nonNull t) p m
  | null (t : TypeExpr) (p : Place) (reported : Bool) : Completed env t p (.null p reported)
  | list {t : TypeExpr} {p : Place} {items : List Node}
      (h : ∀ i m, items[i]? = some m → Completed env t (p.item i t) m) :
      Completed env (.list t) p (.list p items)
  | scalar {name : String} {t : ScalarType} {p : Place} {v w : Json}
      (ht : env.schema.type? name = some (.scalar t)) (hw : t.coercion.toResult v = .ok w) :
      Completed env (.named name) p (.leaf p w)
  | enum {name : String} {e : EnumType} {p : Place} {v w : Json}
      (he : env.schema.type? name = some (.enum e)) (hw : e.toResult v = .ok w) :
      Completed env (.named name) p (.leaf p w)
  | object {name : String} {o : ObjectType} {p : Place} {v : Json}
      (ho : o ∈ env.schema.possibleTypes name) :
      Completed env (.named name) p (env.pendingObject p o.name v)

theorem leaf_ok {p : Place} {r : Except Misfit Json} {n : Node}
    (h : (leaf p r).outcome = .ok n) : n = .null p true ∨ ∃ w, r = .ok w ∧ n = .leaf p w := by
  cases r with
  | error e => exact .inl (Except.ok.inj h).symm
  | ok w => exact .inr ⟨w, rfl, (Except.ok.inj h).symm⟩

theorem completed_of_completeNamed {env : Environment} {p : Place} {name : String} {v : Json}
    {m : Node} (h : (env.completeNamed p name v).outcome = .ok m) :
    Completed env (.named name) p m := by
  have hobject : ∀ o ∈ env.schema.possibleTypes name,
      (Completion.ok (env.pendingObject p o.name v)).outcome = .ok m →
        Completed env (.named name) p m := by
    intro o ho h
    obtain rfl := Except.ok.inj h
    exact .object ho
  have hreject : ∀ message, (reject p message).outcome = .ok m →
      Completed env (.named name) p m := by
    intro message h
    obtain rfl := Except.ok.inj h
    exact .null _ _ _
  unfold completeNamed at h
  split at h
  · next t ht =>
    rcases leaf_ok h with rfl | ⟨w, hw, rfl⟩
    · exact .null _ _ _
    · exact .scalar ht hw
  · next e he =>
    rcases leaf_ok h with rfl | ⟨w, hw, rfl⟩
    · exact .null _ _ _
    · exact .enum he hw
  · next o ho => exact hobject o (by simp [Schema.possibleTypes, ho]) h
  · split at h
    · next o ho => exact hobject o (Schema.mem_possibleTypes_of_concreteType? ho) h
    · exact hreject _ h
  · split at h
    · next o ho => exact hobject o (Schema.mem_possibleTypes_of_concreteType? ho) h
    · exact hreject _ h
  · simp [Completion.fault] at h
  · simp [Completion.fault] at h

/-- What completing a value can come to, faults aside. -/
theorem completed_of_completeValue {env : Environment} {t : TypeExpr} {p : Place} {v : Json}
    {reported : Bool} {m : Node} (h : (env.completeValue t p v reported).outcome = .ok m) :
    Completed env t p m := by
  induction t generalizing p v reported m with
  | nonNull t ih => exact .nonNull (ih h)
  | list t ih =>
    unfold completeValue at h
    split at h
    · obtain rfl := Except.ok.inj h
      exact .null _ _ _
    · next vs =>
      obtain ⟨ms, hms, rfl⟩ := Except.map_eq_ok h
      refine .list fun i m hm => ?_
      obtain ⟨x, hx⟩ := Completion.each_getElem? hms hm
      exact ih (Nat.zero_add i ▸ hx)
    · obtain rfl := Except.ok.inj h
      exact .null _ _ _
  | named name =>
    unfold completeValue at h
    split at h
    · obtain rfl := Except.ok.inj h
      exact .null _ _ _
    · exact completed_of_completeNamed h

/-! ## Grown nodes -/

/-- What is left to do for an object value at a place. -/
def subSelectionAt (env : Environment) (p : Place) (object : String) (v : Json) :
    SubSelection :=
  { source := v
    place := p.withConcreteType object
    groups := match p.group? with
      | some g => env.scope.subGroups g object
      | none => [] }

mutual

/-- A node as an execution leaves it at a place, for a type: completed, and with nothing
left to do in it. -/
inductive Grown (env : Environment) : TypeExpr → Place → Node → Prop
  | nonNull {t : TypeExpr} {p : Place} {n : Node} (h : Grown env t p n) :
      Grown env (.nonNull t) p n
  | null (t : TypeExpr) (p : Place) (reported : Bool) : Grown env t p (.null p reported)
  | list {t : TypeExpr} {p : Place} {items : List Node} (h : GrownItems env t p 0 items) :
      Grown env (.list t) p (.list p items)
  | scalar {name : String} {t : ScalarType} {p : Place} {v w : Json}
      (ht : env.schema.type? name = some (.scalar t)) (hw : t.coercion.toResult v = .ok w) :
      Grown env (.named name) p (.leaf p w)
  | enum {name : String} {e : EnumType} {p : Place} {v w : Json}
      (he : env.schema.type? name = some (.enum e)) (hw : e.toResult v = .ok w) :
      Grown env (.named name) p (.leaf p w)
  | object {name : String} {o : ObjectType} {p : Place} {v : Json}
      {children : List (String × Node)} (ho : o ∈ env.schema.possibleTypes name)
      (h : GrownFields env (p.withConcreteType o.name) o.name
        (env.subSelectionAt p o.name v).groups children) :
      Grown env (.named name) p (.object (p.withConcreteType o.name) children)

/-- The items of a list from an index on. -/
inductive GrownItems (env : Environment) : TypeExpr → Place → Nat → List Node → Prop
  | nil (t : TypeExpr) (p : Place) (i : Nat) : GrownItems env t p i []
  | cons {t : TypeExpr} {p : Place} {i : Nat} {n : Node} {ns : List Node}
      (h : Grown env t (p.item i t) n) (hs : GrownItems env t p (i + 1) ns) :
      GrownItems env t p i (n :: ns)

/-- The children of an object of a concrete type for field groups in order. -/
inductive GrownFields (env : Environment) :
    Place → String → FieldGroups → List (String × Node) → Prop
  | nil (p : Place) (object : String) : GrownFields env p object [] []
  | typename {p : Place} {object : String} {g : FieldGroup} {gs : FieldGroups}
      {children : List (String × Node)} (hn : g.name = "__typename")
      (hs : GrownFields env p object gs children) :
      GrownFields env p object (g :: gs)
        ((g.key, .leaf (p.field g.key g object (.required "String")) (.str object)) :: children)
  | undeclared {p : Place} {object : String} {g : FieldGroup} {gs : FieldGroups}
      {children : List (String × Node)} (hn : g.name ≠ "__typename")
      (hd : env.schema.field? object g.name = none)
      (hs : GrownFields env p object gs children) : GrownFields env p object (g :: gs) children
  | declared {p : Place} {object : String} {g : FieldGroup} {gs : FieldGroups}
      {d : FieldDefinition} {n : Node} {children : List (String × Node)}
      (hn : g.name ≠ "__typename") (hd : env.schema.field? object g.name = some d)
      (h : Grown env d.type (p.field g.key g object d.type) n)
      (hs : GrownFields env p object gs children) :
      GrownFields env p object (g :: gs) ((g.key, n) :: children)

end

/-- A node that an execution makes of a sub-selection. -/
def GrownObject (env : Environment) (sub : SubSelection) (object : String) (n : Node) : Prop :=
  ∃ children, n = .object sub.place children ∧
    GrownFields env sub.place object sub.groups children

/-- A grown node stands at its place, up to the concrete type that its value adds. -/
theorem place_of_grown {env : Environment} {t : TypeExpr} {p : Place} {n : Node}
    (h : Grown env t p n) : n.place.untyped = p.untyped := by
  induction t generalizing n with
  | nonNull t ih =>
    cases h with
    | nonNull h => exact ih h
    | null => rfl
  | list t _ => cases h <;> rfl
  | named name => cases h <;> rfl

/-! ## Executions build grown nodes -/

section

variable {env : Environment} {descend : SubSelection → NodeJob}

/-- Descending into a sub-selection of a known concrete type gives a grown object. -/
def Grows (env : Environment) (descend : SubSelection → NodeJob) : Prop :=
  ∀ {sub : SubSelection} {object : String} {es : List Event} {n : Node},
    sub.place.concreteType? = some object → (descend sub).Ends es (.ok n) →
      env.GrownObject sub object n

theorem done_ends {m n : Node} {es : List Event}
    (h : (Job.done (.ok m) : NodeJob).Ends es (.ok n)) : es = [] ∧ n = m := by
  obtain ⟨hes, hn⟩ := Job.ends_done h
  exact ⟨hes, Except.ok.inj hn⟩

/-- Completed items that have been resolved are grown. -/
theorem grownItems_of_joined {t : TypeExpr} {p : Place} {ms : List Node} {i : Nat}
    (hitem : ∀ j m, ms[j]? = some m → ∀ {es n}, (resolvePending descend m).Ends es (.ok n) →
      Grown env t (p.item (i + j) t) n) {es : List Event} {ns : List Node}
    (h : Job.Joined (ms.map (resolvePending descend)) es (.ok ns)) :
    GrownItems env t p i ns := by
  induction ms generalizing i es ns with
  | nil =>
    cases h
    exact .nil t p i
  | cons m ms ih =>
    cases h with
    | cons hj hjs _ =>
      refine .cons (hitem 0 m rfl hj) (ih (fun j m hm es n hn => ?_) hjs)
      have hindex : i + 1 + j = i + (j + 1) := by omega
      exact hindex ▸ hitem (j + 1) m hm hn

/-- A completed node that has been resolved is a grown node of its place. -/
theorem grown_of_ends (hdescend : Grows env descend) {t : TypeExpr} {p : Place} {m : Node}
    (hm : Completed env t p m) {es : List Event} {n : Node}
    (h : (resolvePending descend m).Ends es (.ok n)) : Grown env t p n := by
  induction hm generalizing es n with
  | nonNull _ ih => exact .nonNull (ih h)
  | null t p reported => exact (done_ends h).2 ▸ .null t p reported
  | @list t p items _ ih =>
    obtain ⟨rs, hrs, hn⟩ := list_ends h
    obtain ⟨ns, rfl, rfl⟩ := Except.map_eq_ok hn.symm
    refine .list (grownItems_of_joined (fun j m hm es n hn => ?_) hrs)
    rw [Nat.zero_add]
    exact ih j m hm hn
  | scalar ht hw => exact (done_ends h).2 ▸ .scalar ht hw
  | enum he hw => exact (done_ends h).2 ▸ .enum he hw
  | object ho =>
    obtain ⟨children, rfl, hchildren⟩ := hdescend rfl (pending_ends h)
    exact .object ho hchildren

theorem grown_of_declared (hdescend : Grows env descend) {source : Json} {d : FieldDefinition}
    {p : Place} {es : List Event} {n : Node}
    (h : DeclaredEnds env descend source d p es (.ok n)) : Grown env d.type p n := by
  cases h with
  | node _ hc hr => exact grown_of_ends hdescend (completed_of_completeValue hc) hr

/-- The fields of an object that have ended without a fault are grown children. -/
theorem grownFields_of_joined (hdescend : Grows env descend) {source : Json} {p : Place}
    {object : String} (hp : p.concreteType? = some object) {gs : FieldGroups} {es : List Event}
    {ns : List (Option Node)}
    (h : Job.Joined (gs.map (env.fieldJob descend source p)) es (.ok ns)) :
    GrownFields env p object gs (children gs ns) := by
  induction gs generalizing es ns with
  | nil =>
    cases h
    exact .nil p object
  | cons g gs ih =>
    cases h with
    | @cons _ _ es₁ es₂ _ n ns hj hjs _ =>
      have hs := ih hjs
      rw [children_cons]
      generalize hr : Except.ok n = r at hj
      cases fieldEnds_of_ends hj with
      | untyped ho => simp at hr
      | typename ho hn =>
        obtain rfl := Except.ok.inj hr
        rw [hp] at ho
        obtain rfl := Option.some.inj ho
        exact .typename hn hs
      | undeclared ho hn hd =>
        obtain rfl := Except.ok.inj hr
        rw [hp] at ho
        obtain rfl := Option.some.inj ho
        exact .undeclared hn hd hs
      | @declared _ _ _ r' ho hn hd hr' =>
        rw [hp] at ho
        obtain rfl := Option.some.inj ho
        obtain ⟨m, rfl, rfl⟩ := Except.map_eq_ok hr.symm
        exact .declared hn hd (grown_of_declared hdescend hr') hs

end

/-- Every ending of an execution without a fault is a grown object: the invariant of
the result tree, by induction on the levels. -/
theorem grown_objectJob (env : Environment) (levels : Nat) (mode : Mode) :
    Grows env (env.objectJob levels mode) := by
  induction levels generalizing mode with
  | zero =>
    intro sub object es n _ h
    exact absurd (objectJob_zero h).2 (by simp)
  | succ levels ih =>
    intro sub object es n hp h
    obtain ⟨rs, hrs, hn⟩ := joined_of_objectJob h
    obtain ⟨ns, rfl, rfl⟩ := Except.map_eq_ok hn.symm
    exact ⟨children sub.groups ns, rfl, grownFields_of_joined (ih .parallel) hp hrs⟩

/-! ## Where errors lie -/

theorem under_ofOutcome {p : Place} {field : Position} {o : Outcome} {e : ResponseError}
    (h : e ∈ (Fetched.ofOutcome p field o).errors) : e.Under p.path := by
  cases o with
  | value | absent => simp [Fetched.ofOutcome] at h
  | partialValue v errors =>
    obtain ⟨e', _, rfl⟩ := List.mem_map.1 h
    exact ⟨e'.path, rfl⟩
  | failure e' =>
    obtain rfl := List.mem_singleton.1 h
    exact ⟨e'.path, rfl⟩
  | breakdown message? =>
    obtain rfl := List.mem_singleton.1 h
    exact Place.under_error p _

theorem FetchEnds.under {env : Environment} {source : Json} {d : FieldDefinition} {p : Place}
    {es : List Event} {x : Fetched} (h : FetchEnds env source d p es x) :
    ∀ e ∈ x.errors, e.Under p.path := by
  intro e he
  cases h with
  | fieldless => simp at he
  | misfit =>
    obtain rfl := List.mem_singleton.1 he
    exact Place.under_error p _
  | called => exact under_ofOutcome he

theorem under_completeNamed (env : Environment) (p : Place) (name : String) (v : Json) :
    ∀ e ∈ (env.completeNamed p name v).errors, e.Under p.path := by
  have hreject : ∀ message, ∀ e ∈ (reject p message).errors, e.Under p.path := by
    intro message e he
    obtain rfl := List.mem_singleton.1 he
    exact Place.under_error p _
  have hleaf : ∀ r : Except Misfit Json, ∀ e ∈ (leaf p r).errors, e.Under p.path := by
    intro r e he
    cases r with
    | ok w => simp [leaf, Completion.ok] at he
    | error misfit => exact hreject _ e he
  intro e he
  unfold completeNamed at he
  split at he
  · exact hleaf _ e he
  · exact hleaf _ e he
  · simp [Completion.ok] at he
  · split at he
    · simp [Completion.ok] at he
    · exact hreject _ e he
  · split at he
    · simp [Completion.ok] at he
    · exact hreject _ e he
  · simp [Completion.fault] at he
  · simp [Completion.fault] at he

/-- The errors of a completion lie at or below its place. -/
theorem under_completeValue (env : Environment) (t : TypeExpr) (p : Place) (v : Json)
    (reported : Bool) : ∀ e ∈ (env.completeValue t p v reported).errors, e.Under p.path := by
  induction t generalizing p v reported with
  | nonNull t ih => exact ih p v reported
  | list t ih =>
    intro e he
    unfold completeValue at he
    split at he
    · simp [Completion.ok] at he
    · obtain ⟨j, x, _, _, hx⟩ := Completion.mem_errors_each he
      exact (ih _ _ _ e hx).of_append
    · obtain rfl := List.mem_singleton.1 he
      exact Place.under_error p _
  | named name =>
    intro e he
    unfold completeValue at he
    split at he
    · simp [Completion.ok] at he
    · exact under_completeNamed env p name v e he

section

variable {env : Environment} {descend : SubSelection → NodeJob}

/-- Descending into a sub-selection raises errors at or below its place only. -/
def StaysUnder (descend : SubSelection → NodeJob) : Prop :=
  ∀ {sub : SubSelection} {es : List Event} {n : Node}, (descend sub).Ends es (.ok n) →
    ∀ e ∈ Event.errors es, e.Under sub.place.path

theorem not_mem_errors_of_done {es : List Event} {m n : Node} {e : ResponseError}
    (h : (Job.done (.ok m) : NodeJob).Ends es (.ok n)) : e ∉ Event.errors es := by
  obtain ⟨rfl, _⟩ := done_ends h
  simp [Event.errors]

/-- Resolving what is pending in a completed node raises errors at or below its place. -/
theorem under_of_ends (hdescend : StaysUnder descend) {t : TypeExpr} {p : Place} {m : Node}
    (hm : Completed env t p m) {es : List Event} {n : Node}
    (h : (resolvePending descend m).Ends es (.ok n)) :
    ∀ e ∈ Event.errors es, e.Under p.path := by
  intro e he
  induction hm generalizing es n with
  | nonNull _ ih => exact ih h he
  | null | scalar | enum => exact absurd he (not_mem_errors_of_done h)
  | list _ ih =>
    obtain ⟨rs, hrs, hn⟩ := list_ends h
    obtain ⟨ns, rfl, -⟩ := Except.map_eq_ok hn.symm
    obtain ⟨j, hj, es₁, k, hk, hek⟩ := hrs.mem_errors he
    obtain ⟨m, hm, rfl⟩ := List.mem_map.1 hj
    obtain ⟨i, hi⟩ := List.mem_iff_getElem?.1 hm
    exact (ih i m hi hk hek).of_append
  | object => exact hdescend (pending_ends h) e he

/-- The errors of a declared field lie at or below its place. -/
theorem under_of_declared (hdescend : StaysUnder descend) {source : Json} {d : FieldDefinition}
    {p : Place} {es : List Event} {n : Node}
    (h : DeclaredEnds env descend source d p es (.ok n)) :
    ∀ e ∈ Event.errors es, e.Under p.path := by
  intro e he
  cases h with
  | node hx hc hr =>
    simp only [Event.errors_append, Event.errors_raised, hx.errors_eq, List.nil_append,
      List.mem_append] at he
    rcases he with (he | he) | he
    · exact hx.under e he
    · exact under_completeValue env _ _ _ _ e he
    · exact under_of_ends hdescend (completed_of_completeValue hc) hr e he

theorem under_of_field (hdescend : StaysUnder descend) {source : Json} {parent : Place}
    {g : FieldGroup} {es : List Event} {n : Option Node}
    (h : (env.fieldJob descend source parent g).Ends es (.ok n)) :
    ∀ e ∈ Event.errors es, e.Under parent.path := by
  intro e he
  generalize hr : Except.ok n = r at h
  cases fieldEnds_of_ends h with
  | untyped => simp at hr
  | typename => simp [Event.errors] at he
  | undeclared => simp [Event.errors] at he
  | @declared _ d _ r' _ _ _ hr' =>
    obtain ⟨n', rfl, -⟩ := Except.map_eq_ok hr.symm
    exact (under_of_declared hdescend hr' e he).of_append

end

/-- The errors raised in an execution of a sub-selection lie at or below its place. -/
theorem under_objectJob (env : Environment) (levels : Nat) (mode : Mode) :
    StaysUnder (env.objectJob levels mode) := by
  induction levels generalizing mode with
  | zero =>
    intro sub es n h
    exact absurd (objectJob_zero h).2 (by simp)
  | succ levels ih =>
    intro sub es n h e he
    obtain ⟨rs, hrs, hn⟩ := joined_of_objectJob h
    obtain ⟨ns, rfl, -⟩ := Except.map_eq_ok hn.symm
    obtain ⟨j, hj, es₁, k, hk, hek⟩ := hrs.mem_errors he
    obtain ⟨g, _, rfl⟩ := List.mem_map.1 hj
    exact under_of_field (ih .parallel) hk e hek

end Environment

end GraphQL
