/-
GraphQL.Proofs.Emissions — which events an execution can emit.

A property of events is proved of a whole execution from what one step of it emits.
`Job.Always P j` says that every event `j` can emit satisfies `P`, whatever it is told
about the length of the log; it passes through all ways of combining jobs, so it does
not depend on how they take turns or which of them ends the others.

`Environment.Keeps env P I` collects what has to be shown of one step: at a
sub-selection with the invariant `I` the resolver of a declared field is called and
resumed with events that satisfy `P`, and what its value leaves to do has the invariant
again.

* `Job.Always.of_mem_run` — the events of a run are among those a job can emit.
* `Environment.always_objectJob` — what is kept by every step holds of an execution, by
  induction on the levels.
* `Plan.called_of_invoked` — hence every call of a resolver is that of a field which the
  plan collects, with the arguments coerced for it.
-/
import GraphQL.Proofs.Collecting

namespace GraphQL

namespace Event

/-- The path of the field that an event of its resolver is about. -/
def path? : Event → Option Path
  | .invoked call => some call.site.path
  | .resumed path => some path
  | .logged _ => none
  | .raised _ => none

end Event

/-! ## Jobs -/

namespace Job

variable {α β ε : Type} {P : Event → Prop}

/-- Every event that a job can emit satisfies a property. -/
inductive Always (P : Event → Prop) : Job α → Prop
  | done (a : α) : Always P (.done a)
  | emit {e : Event} {k : Nat → Job α} (he : P e) (h : ∀ n, Always P (k n)) :
      Always P (.emit e k)
  | suspend {j : Job α} (h : Always P j) : Always P (.suspend j)

namespace Always

/-- The events of a run are among those that the job can emit. -/
theorem of_mem_run {j : Job α} (h : j.Always P) {n : Nat} {e : Event} (he : e ∈ (j.run n).1) :
    P e := by
  induction h generalizing n with
  | done a => simp [run] at he
  | emit hP _ ih =>
    rcases List.mem_cons.1 he with rfl | he
    · exact hP
    · exact ih _ he
  | suspend _ ih => exact ih he

/-! ### One after the other -/

theorem map {j : Job α} (h : j.Always P) (f : α → β) : (j.map f).Always P := by
  induction h with
  | done a => exact .done (f a)
  | emit he _ ih => exact .emit he ih
  | suspend _ ih => exact .suspend ih

theorem bind {j : Job α} (h : j.Always P) {f : α → Job β} (hf : ∀ a, (f a).Always P) :
    (j.bind f).Always P := by
  induction h with
  | done a => exact hf a
  | emit he _ ih => exact .emit he ih
  | suspend _ ih => exact .suspend ih

theorem raiseAll {j : Job α} (h : j.Always P) {errors : List ResponseError}
    (he : ∀ e ∈ errors, P (.raised e)) : (raiseAll errors j).Always P := by
  induction errors with
  | nil => exact h
  | cons e errors ih =>
    exact .emit (he e List.mem_cons_self) fun _ =>
      ih fun e' he' => he e' (List.mem_cons_of_mem _ he')

theorem inOrder {js : List (Job (Except ε α))} (h : ∀ j ∈ js, j.Always P) :
    (inOrder js).Always P := by
  induction js with
  | nil => exact .done _
  | cons j js ih =>
    refine (h j List.mem_cons_self).bind fun r => ?_
    cases r with
    | error e => exact .done _
    | ok a => exact (ih fun j' hj' => h j' (List.mem_cons_of_mem _ hj')).map _

/-! ### Taking turns -/

theorem afterLeft {left : Job α} (hleft : left.Always P) {resume : Job β → Job (α × β)}
    (hresume : ∀ right : Job β, right.Always P → (resume right).Always P) {right : Job β}
    (h : right.Always P) : (afterLeft left resume right).Always P := by
  induction h with
  | done b => exact .suspend (hleft.map _)
  | emit he _ ih => exact .emit he ih
  | suspend h _ => exact .suspend (hresume _ h)

theorem both {left : Job α} (hleft : left.Always P) {right : Job β} (hright : right.Always P) :
    (both left right).Always P := by
  induction hleft generalizing right with
  | done a => exact hright.map _
  | emit he _ ih => exact .emit he fun n => ih n hright
  | suspend hl ih => exact afterLeft hl (fun _ h => ih h) hright

theorem all {js : List (Job α)} (h : ∀ j ∈ js, j.Always P) : (all js).Always P := by
  induction js with
  | nil => exact .done _
  | cons j js ih =>
    have hrest := ih fun j' hj' => h j' (List.mem_cons_of_mem _ hj')
    exact ((h j List.mem_cons_self).both hrest).map _

theorem afterLeftOk {left : Job (Except ε α)} (hleft : left.Always P)
    {resume : Job (Except ε β) → Job (Except ε (α × β))}
    (hresume : ∀ right : Job (Except ε β), right.Always P → (resume right).Always P)
    {right : Job (Except ε β)} (h : right.Always P) :
    (afterLeftOk left resume right).Always P := by
  induction h with
  | done r =>
    cases r with
    | error e => exact .done _
    | ok b => exact .suspend (hleft.map _)
  | emit he _ ih => exact .emit he ih
  | suspend h _ => exact .suspend (hresume _ h)

theorem bothOk {left : Job (Except ε α)} (hleft : left.Always P) {right : Job (Except ε β)}
    (hright : right.Always P) : (bothOk left right).Always P := by
  induction hleft generalizing right with
  | done r =>
    cases r with
    | error e => exact .done _
    | ok a => exact hright.map _
  | emit he _ ih => exact .emit he fun n => ih n hright
  | suspend hl ih => exact afterLeftOk hl (fun _ h => ih h) hright

theorem allOk {js : List (Job (Except ε α))} (h : ∀ j ∈ js, j.Always P) :
    (allOk js).Always P := by
  induction js with
  | nil => exact .done _
  | cons j js ih =>
    have hrest := ih fun j' hj' => h j' (List.mem_cons_of_mem _ hj')
    exact ((h j List.mem_cons_self).bothOk hrest).map _

end Always

end Job

/-- A fetch emits log entries and resumptions at its path. -/
theorem Fetch.always_job {P : Event → Prop} {path : Path} (hlogged : ∀ entry, P (.logged entry))
    (hresumed : P (.resumed path)) (f : Fetch) : (f.job path).Always P := by
  induction f with
  | finish o => exact .done o
  | defer work ih => exact ih
  | suspend next ih => exact .suspend (.emit hresumed fun _ => ih)
  | log entry next ih => exact .emit (hlogged entry) ih

/-! ## Executions -/

namespace Environment

/-- A group of a sub-selection that asks for a declared field of its object type. -/
structure Selects (env : Environment) (sub : SubSelection) (object : String) (g : FieldGroup)
    (d : FieldDefinition) : Prop where
  typed : sub.place.concreteType? = some object
  group : g ∈ sub.groups
  name : g.name ≠ "__typename"
  field : env.schema.field? object g.name = some d

/-- Each step of an execution emits only events with the first property at a
sub-selection with the second, and keeps the second on the way down: the value of a
field leaves objects to do at the place of the field or at those of its items. -/
structure Keeps (env : Environment) (P : Event → Prop) (I : SubSelection → Prop) : Prop where
  raised : ∀ e, P (.raised e)
  logged : ∀ entry, P (.logged entry)
  invoked : ∀ {sub object g d arguments}, I sub → env.Selects sub object g d →
    coerceArgumentValues env.schema env.scope.vars d.arguments.items g.arguments =
      .ok arguments →
    P (.invoked (env.call sub.source arguments (sub.place.field g.key g object d.type)))
  resumed : ∀ {sub object g d}, I sub → env.Selects sub object g d →
    P (.resumed (sub.place.field g.key g object d.type).path)
  below : ∀ {sub object g d}, I sub → env.Selects sub object g d →
    ∀ {q : Place}, (sub.place.field g.key g object d.type).path <+: q.path →
      q.group? = some g → ∀ o ∈ env.schema.possibleTypes d.type.baseName, ∀ v,
        I (env.subSelectionAt q o.name v)

variable {env : Environment} {P : Event → Prop} {I : SubSelection → Prop}

/-- Resolving what a completed node leaves to do, if that has the invariant. -/
theorem always_resolvePending {descend : SubSelection → NodeJob}
    (hdescend : ∀ sub, I sub → (descend sub).Always P) {t : TypeExpr} {p : Place} {m : Node}
    (hm : Completed env t p m)
    (hbelow : ∀ {q : Place}, p.path <+: q.path → q.group? = p.group? →
      ∀ o ∈ env.schema.possibleTypes t.baseName, ∀ v, I (env.subSelectionAt q o.name v)) :
    (resolvePending descend m).Always P := by
  induction hm with
  | nonNull _ ih => exact ih hbelow
  | null | scalar | enum =>
    rw [resolvePending]
    exact .done _
  | @list t p items _ ih =>
    rw [resolvePending, resolvePendingItems_eq]
    refine (Job.Always.allOk fun j hj => ?_).map _
    obtain ⟨m, hm, rfl⟩ := List.mem_map.1 hj
    obtain ⟨i, hi⟩ := List.mem_iff_getElem?.1 hm
    refine ih i m hi fun hpath hgroup => hbelow (.trans ?_ hpath) hgroup
    exact List.prefix_append p.path [.index i]
  | object ho =>
    rw [pendingObject, resolvePending]
    exact hdescend _ (hbelow (List.prefix_refl _) rfl _ ho _)

theorem Keeps.always_fetchField (h : env.Keeps P I) {sub : SubSelection} {object : String}
    {g : FieldGroup} {d : FieldDefinition} (hI : I sub) (hg : env.Selects sub object g d) :
    (env.fetchField sub.source d (sub.place.field g.key g object d.type)).Always P := by
  unfold fetchField
  split
  · exact .done _
  · next g' hg' =>
    obtain rfl : g = g' := Option.some.inj hg'
    split
    · exact .done _
    · next arguments ha =>
      exact .emit (h.invoked hI hg ha) fun _ =>
        (Fetch.always_job h.logged (h.resumed hI hg) _).map _

/-- One field of an object. -/
theorem Keeps.always_fieldJob (h : env.Keeps P I) {descend : SubSelection → NodeJob}
    (hdescend : ∀ sub, I sub → (descend sub).Always P) {sub : SubSelection} (hI : I sub)
    {g : FieldGroup} (hg : g ∈ sub.groups) :
    (env.fieldJob descend sub.source sub.place g).Always P := by
  unfold fieldJob
  split
  · exact .done _
  · next object ho =>
    split
    · exact .done _
    · next hn =>
      split
      · exact .done _
      · next d hd =>
        have hselects : env.Selects sub object g d := ⟨ho, hg, hn, hd⟩
        refine (h.always_fetchField hI hselects).bind fun x => ?_
        refine Job.Always.raiseAll ?_ fun e _ => h.raised e
        split
        · exact .done _
        · next m hm =>
          refine Job.Always.map (always_resolvePending hdescend (completed_of_completeValue hm)
            fun hpath hgroup => h.below hI hselects hpath (hgroup.trans rfl)) _

/-- What every step keeps holds of a whole execution: by induction on the levels. -/
theorem always_objectJob (h : env.Keeps P I) (levels : Nat) (mode : Mode) {sub : SubSelection}
    (hI : I sub) : (env.objectJob levels mode sub).Always P := by
  induction levels generalizing mode sub with
  | zero => exact .done _
  | succ levels ih =>
    have hfields : ∀ j ∈ sub.groups.map
        (env.fieldJob (env.objectJob levels .parallel) sub.source sub.place), j.Always P := by
      intro j hj
      obtain ⟨g, hg, rfl⟩ := List.mem_map.1 hj
      exact h.always_fieldJob (fun sub' hI' => ih .parallel hI') hI hg
    unfold objectJob
    cases mode with
    | parallel => exact ((Job.Always.all hfields).map _).map _
    | serial => exact (Job.Always.inOrder hfields).map _

end Environment

/-! ## Calls of resolvers -/

namespace Plan

variable {p : Plan} {s : Schema} {data : RequestData}

/-- A call of the resolver of a declared field that the plan collects for its object type,
with the arguments that its first selection is coerced to. -/
def Calls (p : Plan) (s : Schema) (call : ResolverCall) : Prop :=
  ∃ route object sets g d, p.Collects s route object sets ∧
    g ∈ (p.scope s).groupsOn object sets ∧ g.name ≠ "__typename" ∧
    s.field? object g.name = some d ∧
    coerceArgumentValues s p.vars d.arguments.items g.arguments = .ok call.arguments ∧
    call.site.parentType = object ∧ call.site.fieldName = g.name

/-- The sub-selection of an object that the plan can come to. -/
def Enters (p : Plan) (s : Schema) (sub : SubSelection) : Prop :=
  ∃ route object sets, p.Collects s route object sets ∧
    sub.place.concreteType? = some object ∧ sub.groups = (p.scope s).groupsOn object sets

theorem keeps_calls : (p.environment s data).Keeps
    (fun e => ∀ call, e = .invoked call → p.Calls s call) (p.Enters s) where
  raised _ _ h := by simp at h
  logged _ _ h := by simp at h
  invoked := by
    rintro sub object g d arguments ⟨route, object', sets, hc, ho, hgroups⟩ hg ha call hcall
    obtain rfl := Event.invoked.inj hcall
    obtain rfl : object' = object := Option.some.inj (ho.symm.trans hg.typed)
    exact ⟨route, object', sets, g, d, hc, hgroups ▸ hg.group, hg.name, hg.field, ha, rfl, rfl⟩
  resumed _ _ _ h := by simp at h
  below := by
    rintro sub object g d ⟨route, object', sets, hc, ho, hgroups⟩ hg q _ hgroup o hpossible v
    obtain rfl : object' = object := Option.some.inj (ho.symm.trans hg.typed)
    refine ⟨_, o.name, _, hc.field (hgroups ▸ hg.group) hg.name hg.field hpossible, rfl, ?_⟩
    simp only [Environment.subSelectionAt, hgroup]
    rfl

theorem enters_root (source : Json) : p.Enters s (p.subSelection s source) :=
  ⟨[], p.root, _, .root, rfl, rfl⟩

/-- Every call of a resolver in a run is one of a field that the plan collects. -/
theorem called_of_invoked {mode : Mode} {source : Json} {call : ResolverCall}
    (h : .invoked call ∈ (p.runIn mode s source data).trace) : p.Calls s call :=
  (Environment.always_objectJob keeps_calls _ mode (enters_root source)).of_mem_run h call rfl

end Plan

end GraphQL
