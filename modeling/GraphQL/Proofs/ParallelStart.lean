/-
GraphQL.Proofs.ParallelStart — the first turn of a parallel level.

Which calls are due for an object is known from the object alone
(`Environment.dueCalls`). In parallel mode its job makes them in its first turn, in the
order of the keys, and nothing is resumed in that turn: whatever has suspended waits for
the next round, and a field whose resolver has not suspended goes on to levels below.

The objects of a list, and of lists in it, are started together. So a level is what the
value of a field leaves to do (`Node.subSelections`), and it goes by the path of the
field: `Path.field` leaves out the indices at the end.

* `Environment.fieldDoes_fieldJob` — a field does nothing, or it fetches its value and
  resolves what that leaves to do.
* `Environment.quiet_objectJob` — nothing is resumed in the first turn.
* `Environment.AfterFetch.always_not_starts` — after its fetch a field calls resolvers of
  levels below only.
* `Environment.opens_objectJob`, `Environment.opens_resolvePending` — what is due is due
  in the first turn, key by key and object by object.
-/
import GraphQL.Proofs.FetchedOnce
import GraphQL.Proofs.FirstTurns
import GraphQL.Proofs.SerialExecution
import Mathlib.Data.List.DropRight

namespace GraphQL

/-! ## Paths -/

/-- The part is a list index. -/
def PathPart.isIndex : PathPart → Bool
  | .key _ => false
  | .index _ => true

namespace Path

/-- The second path leads on from the first one. -/
def Above (a q : Path) : Prop := a <+: q ∧ a ≠ q

instance (a q : Path) : Decidable (Above a q) := inferInstanceAs (Decidable (a <+: q ∧ a ≠ q))

/-- The first path comes before the second one in a list around them. -/
def Before (q q' : Path) : Prop :=
  ∃ (list : Path) (i j : Nat), i < j ∧ list ++ [.index i] <+: q ∧ list ++ [.index j] <+: q'

/-- The path of the field that a value belongs to: the items of a list, and of lists in it, belong
to the field of the list. -/
def field (q : Path) : Path := q.rdropWhile PathPart.isIndex

@[simp] theorem field_nil : field [] = [] := rfl

theorem field_index (q : Path) (i : Nat) : field (q ++ [.index i]) = field q :=
  List.rdropWhile_concat_pos _ _ _ rfl

theorem field_key (q : Path) (k : String) : field (q ++ [.key k]) = q ++ [.key k] :=
  List.rdropWhile_concat_neg _ _ _ (by simp [PathPart.isIndex])

theorem field_isPrefix (q : Path) : field q <+: q := List.rdropWhile_prefix _ q

/-- Indices at the end do not lead above a key. -/
theorem key_prefix_field {q q' : Path} {k : String} (h : q ++ [.key k] <+: q') :
    q ++ [.key k] <+: field q' := by
  obtain ⟨r, rfl⟩ := h
  induction r using List.reverseRecOn with
  | nil => simp [field_key]
  | append_singleton r x ih =>
    rw [← List.append_assoc]
    cases x with
    | index i => rwa [field_index]
    | key k' =>
      rw [field_key, List.append_assoc]
      exact List.prefix_append _ _

/-- The values of a field below an object do not belong to the field of the object. -/
theorem field_ne_of_isPrefix {q q' : Path} {k : String} (h : q ++ [.key k] <+: q') :
    field q' ≠ field q := by
  intro heq
  have hlength := ((key_prefix_field h).trans (heq ▸ field_isPrefix q)).length_le
  rw [List.length_append, List.length_singleton] at hlength
  omega

/-- The value of a field of an object stands below the path of the object's own field. -/
theorem above_field_key (q : Path) (k : String) : Above (field q) (q ++ [.key k]) := by
  have hpre := field_isPrefix q
  refine ⟨hpre.trans (List.prefix_append _ _), fun heq => ?_⟩
  have hlength := (heq ▸ hpre).length_le
  rw [List.length_append, List.length_singleton] at hlength
  omega

/-- Paths that lead on from a path by different parts lead to different places. -/
theorem not_isPrefix_of_ne {q b : Path} {x y : PathPart} (hne : x ≠ y) (hx : q ++ [x] <+: b) :
    ¬ q ++ [y] <+: b := by
  intro hy
  have hsame := List.prefix_of_prefix_length_le hx hy (by simp)
  rw [List.prefix_append_right_inj] at hsame
  simp only [List.cons_prefix_cons, List.prefix_rfl, and_true] at hsame
  exact hne hsame

end Path

/-! ## Calls of a level -/

/-- The call is for the object at a path, or for one of the objects in a list there. -/
def ResolverCall.isAt (a : Path) (call : ResolverCall) : Bool :=
  decide (Path.Above a call.site.path ∧ Path.field call.site.path.dropLast = a)

namespace Event

/-- The event is about a resolver below a path. -/
def isBelow (a : Path) (e : Event) : Bool := e.path?.any fun q => decide (Path.Above a q)

/-- The event is a call for the object at a path, or for one of the objects in a list there. -/
def starts (a : Path) (e : Event) : Bool := e.call?.any (·.isAt a)

variable {a : Path} {e : Event}

theorem isBelow_eq_true : e.isBelow a = true ↔ ∃ q, e.path? = some q ∧ Path.Above a q := by
  cases hpath : e.path? <;> simp [isBelow, hpath]

theorem isBelow_eq_false : e.isBelow a = false ↔ ∀ q, e.path? = some q → ¬ Path.Above a q := by
  cases hpath : e.path? <;> simp [isBelow, hpath]

theorem starts_eq_true :
    e.starts a = true ↔ ∃ call, e = .invoked call ∧ call.isAt a = true := by
  cases e <;> simp [starts, call?]

theorem starts_eq_false :
    e.starts a = false ↔ ∀ call, e = .invoked call → call.isAt a = false := by
  cases e <;> simp [starts, call?]

theorem isBelow_of_starts (h : e.starts a = true) : e.isBelow a = true := by
  obtain ⟨call, rfl, hcall⟩ := starts_eq_true.1 h
  rw [ResolverCall.isAt, decide_eq_true_eq] at hcall
  exact isBelow_eq_true.2 ⟨call.site.path, rfl, hcall.1⟩

end Event

namespace Environment

/-- The call that is due for a group of a sub-selection. -/
def due? (env : Environment) (sub : SubSelection) (g : FieldGroup) : Option ResolverCall :=
  sub.place.concreteType?.bind fun object => env.dueCall? sub.place.path object sub.source g

/-- The calls that are due for a sub-selection, in the order of its keys. -/
def dueCalls (env : Environment) (sub : SubSelection) : List ResolverCall :=
  sub.groups.filterMap (env.due? sub)

end Environment

namespace Node

mutual

/-- What is left to do in a node: the sub-selections of its objects, in order. -/
def subSelections : Node → List SubSelection
  | .pending sub => [sub]
  | .list _ items => subSelectionsOfItems items
  | .leaf _ _ => []
  | .null _ _ => []
  | .object _ _ => []

/-- What is left to do in the items of a list. -/
def subSelectionsOfItems : List Node → List SubSelection
  | [] => []
  | n :: ns => subSelections n ++ subSelectionsOfItems ns

end

theorem subSelectionsOfItems_eq_flatMap (ns : List Node) :
    subSelectionsOfItems ns = ns.flatMap subSelections := by
  induction ns with
  | nil => rfl
  | cons n ns ih => rw [subSelectionsOfItems, ih, List.flatMap_cons]

theorem mem_subSelections_list {p : Place} {items : List Node} {sub : SubSelection} :
    sub ∈ (list p items).subSelections ↔ ∃ m ∈ items, sub ∈ m.subSelections := by
  rw [subSelections, subSelectionsOfItems_eq_flatMap, List.mem_flatMap]

end Node

/-- A fetch resumes nothing before it has suspended. -/
theorem Fetch.quiet_job (path : Path) (f : Fetch) : (f.job path).Quiet := by
  induction f with
  | finish o => exact Job.Opens.done o
  | defer work ih => exact ih
  | suspend next _ => exact Job.Quiet.suspend _
  | log entry next ih => exact Job.Opens.other rfl rfl ih

namespace Environment

variable {env : Environment} {descend : SubSelection → NodeJob} {sub : SubSelection}
  {g : FieldGroup}

/-! ## What fields do -/

/-- What a field does with a fetched value: it raises the errors, then it fails or resolves
what the completed value leaves to do. -/
inductive AfterFetch (env : Environment) (descend : SubSelection → NodeJob) (d : FieldDefinition)
    (p : Place) (x : Fetched) : Job (Except Fault (Option Node)) → Prop
  | fault (errors : List ResponseError) (f : Fault) :
      AfterFetch env descend d p x (Job.raiseAll errors (.done (.error f)))
  | node (errors : List ResponseError) {node : Node}
      (hnode : (env.completed d p x).outcome = .ok node) :
      AfterFetch env descend d p x
        (Job.raiseAll errors ((resolvePending descend node).map fun r => r.map some))

/-- A field of an object does nothing, or it fetches its value. -/
inductive FieldDoes (env : Environment) (descend : SubSelection → NodeJob) (sub : SubSelection)
    (g : FieldGroup) : Job (Except Fault (Option Node)) → Prop
  | nothing (r : Except Fault (Option Node)) (hdue : env.due? sub g = none) :
      FieldDoes env descend sub g (.done r)
  | fetch {object : String} {d : FieldDefinition}
      {rest : Fetched → Job (Except Fault (Option Node))} (hg : env.Selects sub object g d)
      (hrest : ∀ x, env.AfterFetch descend d (sub.place.field g.key g object d.type) x (rest x)) :
      FieldDoes env descend sub g
        ((env.fetchField sub.source d (sub.place.field g.key g object d.type)).bind rest)

theorem fieldDoes_fieldJob (env : Environment) (descend : SubSelection → NodeJob)
    (hg : g ∈ sub.groups) :
    env.FieldDoes descend sub g (env.fieldJob descend sub.source sub.place g) := by
  unfold fieldJob
  split
  · next ho => exact .nothing _ (by rw [due?, ho, Option.bind_none])
  · next object ho =>
    split
    · next hn => exact .nothing _ (by rw [due?, ho, Option.bind_some, dueCall?, if_pos hn])
    · next hn =>
      split
      · next hd =>
        refine .nothing _ ?_
        rw [due?, ho, Option.bind_some, dueCall?, if_neg hn, hd]
      · next d hd =>
        refine .fetch ⟨ho, hg, hn, hd⟩ fun x => ?_
        cases hnode : (env.completed d (sub.place.field g.key g object d.type) x).outcome with
        | error f =>
          rw [completed] at hnode
          simp only [hnode]
          exact .fault _ f
        | ok node =>
          have hvalue := hnode
          rw [completed] at hvalue
          simp only [hvalue]
          exact .node _ hnode

/-! ## Nothing is resumed at once -/

theorem quiet_fetchField (source : Json) (d : FieldDefinition) (p : Place) :
    (env.fetchField source d p).Quiet := by
  unfold fetchField
  split
  · exact Job.Opens.done _
  · split
    · exact Job.Opens.done _
    · exact Job.Opens.other rfl rfl fun _ => (Fetch.quiet_job _ _).map _

theorem quiet_resolvePending (hdescend : ∀ sub, (descend sub).Quiet) (n : Node) :
    (resolvePending descend n).Quiet := by
  induction n using Node.induction_on_parts with
  | h n ih =>
    cases n with
    | pending sub =>
      rw [resolvePending]
      exact hdescend sub
    | list p items =>
      rw [resolvePending, resolvePendingItems_eq]
      exact (Job.Quiet.allOk fun m hm => ih m hm).map _
    | leaf | null | object =>
      rw [resolvePending]
      exact Job.Opens.done _

theorem AfterFetch.quiet {d : FieldDefinition} {p : Place} {x : Fetched}
    {j : Job (Except Fault (Option Node))} (h : env.AfterFetch descend d p x j)
    (hdescend : ∀ sub, (descend sub).Quiet) : j.Quiet := by
  cases h with
  | fault errors f => exact Job.Quiet.raiseAll (Job.Opens.done _) errors
  | node errors hnode => exact ((quiet_resolvePending hdescend _).map _).raiseAll errors

theorem quiet_fieldJob (hdescend : ∀ sub, (descend sub).Quiet) (hg : g ∈ sub.groups) :
    (env.fieldJob descend sub.source sub.place g).Quiet := by
  have hdoes := env.fieldDoes_fieldJob descend hg
  generalize env.fieldJob descend sub.source sub.place g = j at hdoes ⊢
  cases hdoes with
  | nothing r _ => exact Job.Opens.done r
  | fetch _ hrest => exact (quiet_fetchField _ _ _).bind fun x => (hrest x).quiet hdescend

/-- Nothing is resumed in the first turn of an execution: by induction on the levels. -/
theorem quiet_objectJob (env : Environment) (levels : Nat) (mode : Mode) (sub : SubSelection) :
    (env.objectJob levels mode sub).Quiet := by
  induction levels generalizing mode sub with
  | zero => exact Job.Opens.done _
  | succ levels ih =>
    have hfield : ∀ g ∈ sub.groups,
        (env.fieldJob (env.objectJob levels .parallel) sub.source sub.place g).Quiet :=
      fun g hg => quiet_fieldJob (ih .parallel) hg
    unfold objectJob
    cases mode with
    | parallel => exact ((Job.Quiet.all hfield).map _).map _
    | serial =>
      refine (Job.Quiet.inOrder fun j hj => ?_).map _
      obtain ⟨g, hg, rfl⟩ := List.mem_map.1 hj
      exact hfield g hg

/-! ## What is started later -/

/-- What is left to do at a path calls resolvers for objects there or below only. -/
theorem keeps_within (env : Environment) (c : Path) : env.Keeps
    (fun e => ∀ call, e = .invoked call → c <+: call.site.path.dropLast)
    (fun sub => c <+: sub.place.path) where
  raised _ _ h := by cases h
  logged _ _ h := by cases h
  resumed _ _ _ h := by cases h
  invoked := by
    rintro sub object g d arguments hI - - call hcall
    obtain rfl := Event.invoked.inj hcall
    have hobject : (sub.place.path ++ [PathPart.key g.key]).dropLast = sub.place.path :=
      List.dropLast_concat
    exact hobject ▸ hI
  below hI _ q hq _ _ _ _ := (hI.trans (List.prefix_append _ _)).trans hq

/-- After its fetch a field starts nothing that belongs to its own level. -/
theorem AfterFetch.always_not_starts {levels : Nat} {object : String} {d : FieldDefinition}
    {x : Fetched} {j : Job (Except Fault (Option Node))}
    (h : env.AfterFetch (env.objectJob levels .parallel) d
      (sub.place.field g.key g object d.type) x j) :
    j.Always (Event.starts (Path.field sub.place.path) · = false) := by
  cases h with
  | fault errors f => exact Job.Always.raiseAll (.done _) fun _ _ => rfl
  | node errors hnode =>
    refine Job.Always.raiseAll (Job.Always.map ?_ _) fun _ _ => rfl
    have hkeeps := env.keeps_within (sub.place.path ++ [.key g.key])
    have hwithin := always_resolvePending
      (I := fun sub' => sub.place.path ++ [.key g.key] <+: sub'.place.path)
      (fun _ hI => always_objectJob hkeeps levels .parallel hI)
      (completed_of_completeValue hnode) fun hpath _ _ _ _ => hpath
    refine hwithin.mono fun e he => Event.starts_eq_false.2 fun call hcall => ?_
    rw [ResolverCall.isAt, decide_eq_false_iff_not]
    exact fun hat => Path.field_ne_of_isPrefix (he call hcall) hat.2

/-! ## First turns of a level -/

theorem opens_fetchField {object : String} {d : FieldDefinition} (hg : env.Selects sub object g d) :
    (env.fetchField sub.source d (sub.place.field g.key g object d.type)).Opens
      (Event.starts (Path.field sub.place.path)) (Job.Never Fetched)
      ((env.due? sub g).toList.map .invoked) := by
  have hgroup : (sub.place.field g.key g object d.type).group? = some g := rfl
  rw [due?, hg.typed, Option.bind_some, dueCall?, if_neg hg.name, hg.field, fetchField, hgroup]
  cases ha : coerceArgumentValues env.schema env.scope.vars d.arguments.items g.arguments with
  | error e =>
    simp only [ha]
    exact .done _
  | ok arguments =>
    simp only [ha]
    have hnone : ∀ f : Fetch, (f.job (sub.place.path ++ [.key g.key])).Always
        (Event.starts (Path.field sub.place.path) · = false) :=
      Fetch.always_job (P := (Event.starts _ · = false)) (fun _ => rfl) rfl
    refine .start ?_ rfl fun _ => Job.Opens.of_quiet ((Fetch.quiet_job _ _).map _)
      ((hnone _).map _)
    refine Event.starts_eq_true.2 ⟨_, rfl, ?_⟩
    rw [ResolverCall.isAt, decide_eq_true_eq]
    refine ⟨Path.above_field_key _ _, ?_⟩
    exact congrArg Path.field List.dropLast_concat

theorem opens_fieldJob (levels : Nat) (hg : g ∈ sub.groups) :
    (env.fieldJob (env.objectJob levels .parallel) sub.source sub.place g).Opens
      (Event.starts (Path.field sub.place.path)) (Job.Never _)
      ((env.due? sub g).toList.map .invoked) := by
  have hdoes := env.fieldDoes_fieldJob (env.objectJob levels .parallel) hg
  generalize env.fieldJob (env.objectJob levels .parallel) sub.source sub.place g = j at hdoes ⊢
  cases hdoes with
  | nothing r hdue =>
    rw [hdue]
    exact .done r
  | fetch hselects hrest =>
    have hnone := fun x => (hrest x).always_not_starts
    have hquiet := fun x => (hrest x).quiet (env.quiet_objectJob levels .parallel)
    exact (opens_fetchField hselects).bind (fun x => .of_quiet (hquiet x) (hnone x)) hnone

/-- The fields of an object in parallel: what is due is due key by key. -/
theorem opens_objectJob (levels : Nat) (sub : SubSelection) :
    (env.objectJob levels .parallel sub).Opens (Event.starts (Path.field sub.place.path))
      Job.IsError ((env.dueCalls sub).map .invoked) := by
  cases levels with
  | zero => exact .failed _ ⟨.tooDeep, rfl⟩
  | succ levels =>
    have hdue : (env.dueCalls sub).map Event.invoked =
        sub.groups.flatMap fun g => (env.due? sub g).toList.map .invoked := by
      rw [dueCalls, List.filterMap_eq_flatMap_toList, List.map_flatMap]
    rw [hdue]
    unfold objectJob
    refine ((Job.Opens.all fun g hg => opens_fieldJob levels hg).map ?_).map fun _ h => h
    exact fun _ h => h.elim

/-- What a value leaves to do: what is due is due object by object. -/
theorem opens_resolvePending (levels : Nat) {t : TypeExpr} {p : Place} {m : Node}
    (hm : Completed env t p m) :
    (resolvePending (env.objectJob levels .parallel) m).Opens
      (Event.starts (Path.field p.path)) Job.IsError
      ((m.subSelections.flatMap env.dueCalls).map .invoked) := by
  induction hm with
  | nonNull _ ih => exact ih
  | null | scalar | enum =>
    rw [resolvePending]
    exact .done _
  | @list t p items _ ih =>
    rw [resolvePending, resolvePendingItems_eq, Node.subSelections,
      Node.subSelectionsOfItems_eq_flatMap, List.flatMap_assoc, List.map_flatMap]
    refine (Job.Opens.allOk fun m hm => ?_).map ?_
    · obtain ⟨i, hi⟩ := List.mem_iff_getElem?.1 hm
      have hitem := ih i m hi
      rwa [Place.path_item, Path.field_index] at hitem
    · rintro _ ⟨e, rfl⟩
      exact ⟨e, rfl⟩
  | @object name o p v _ =>
    rw [pendingObject, resolvePending, Node.subSelections, List.flatMap_singleton]
    exact opens_objectJob levels (env.subSelectionAt p o.name v)

end Environment

end GraphQL
