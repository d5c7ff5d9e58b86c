/-
GraphQL.Proofs.Incidents — what befalls the positions of an execution.

The events of an execution come in the order in which its jobs take turns. Told
position by position the same execution is a derivation: a field is fetched, the
value it has is judged by its type (`Environment.judge`), and items and objects are
told in turn. `Environment.Told` is this relation. It lists the incidents on the way,
depth first: an argument that does not fit, a resolver that is called and answers, a
value that its type refuses.

* `Environment.completeValue_eq` — completion follows the verdict of the declared type.
* `Environment.told_objectJob` — every ending of an execution without a fault is told by
  such a derivation. The calls and the errors among its events are those of the
  incidents, in whatever order (`Recounts`).
-/
import GraphQL.Proofs.Emissions

namespace GraphQL

/-! ## Verdicts -/

/-- What a type makes of a value. -/
inductive Verdict where
  | null
  /-- A list, its items to be judged by a type. -/
  | items (type : TypeExpr) (values : List Json)
  | leaf (value : Json)
  /-- An object value of a concrete type. -/
  | object (name : String)
  /-- The value does not fit. -/
  | refused (message : String)
  | fault (f : Fault)

/-- The verdict on a converted leaf. -/
def Verdict.ofLeaf : Except Misfit Json → Verdict
  | .ok v => .leaf v
  | .error e => .refused e.message

namespace Environment

/-- The verdict of a named type on a value that is not null. -/
def judgeNamed (env : Environment) (name : String) (p : Place) (v : Json) : Verdict :=
  match env.schema.type? name with
  | some (.scalar t) => .ofLeaf (t.coercion.toResult v)
  | some (.enum t) => .ofLeaf (t.toResult v)
  | some (.object t) => .object t.name
  | some (.interface _) | some (.union _) =>
    match env.schema.concreteType? name v with
    | some t => .object t.name
    | none =>
      .refused ("Could not determine the concrete type of abstract type \"" ++ name ++ "\".")
  | some (.inputObject _) | none => .fault (.notOutputType name p.coordinates)

/-- The verdict of a type on a value at a place. -/
def judge (env : Environment) : TypeExpr → Place → Json → Verdict
  | .nonNull t, p, v => env.judge t p v
  | .list t, p, v =>
    match v with
    | .null => .null
    | .arr vs => .items t vs
    | v =>
      .refused ("Expected a list for field \"" ++ p.coordinates ++ "\", found " ++ v.text ++ ".")
  | .named name, p, v =>
    match v with
    | .null => .null
    | v => env.judgeNamed name p v

@[simp] theorem judge_nonNull (env : Environment) (t : TypeExpr) (p : Place) (v : Json) :
    env.judge (.nonNull t) p v = env.judge t p v := rfl

@[simp] theorem judge_null (env : Environment) (t : TypeExpr) (p : Place) :
    env.judge t p .null = .null := by
  induction t with
  | nonNull t ih => exact ih
  | list t => rfl
  | named name => rfl

theorem judge_named_ne_items {env : Environment} {name : String} {p : Place} {v : Json}
    {t : TypeExpr} {vs : List Json} : env.judge (.named name) p v ≠ .items t vs := by
  have hleaf : ∀ r, Verdict.ofLeaf r ≠ .items t vs := by
    intro r
    cases r <;> simp [Verdict.ofLeaf]
  intro h
  unfold judge at h
  split at h
  · cases h
  · unfold judgeNamed at h
    split at h
    · exact hleaf _ h
    · exact hleaf _ h
    · cases h
    · split at h <;> cases h
    · split at h <;> cases h
    · cases h
    · cases h

/-- What completion makes of a verdict. -/
def enact (env : Environment) (p : Place) (v : Json) (reported : Bool) :
    Verdict → Completion Node
  | .null => .ok (.null p reported)
  | .items t vs =>
    (Completion.each (fun i x => env.completeValue t (p.item i t) x false) 0 vs).map (.list p)
  | .leaf w => .ok (.leaf p w)
  | .object o => .ok (env.pendingObject p o v)
  | .refused message => reject p message
  | .fault f => .fault f

theorem completeNamed_eq (env : Environment) (name : String) (p : Place) (v : Json)
    (reported : Bool) :
    env.completeNamed p name v = env.enact p v reported (env.judgeNamed name p v) := by
  have hleaf : ∀ r, leaf p r = env.enact p v reported (.ofLeaf r) := by
    intro r
    cases r <;> rfl
  simp only [completeNamed, judgeNamed]
  cases env.schema.type? name with
  | none => rfl
  | some t =>
    cases t with
    | scalar t => exact hleaf _
    | enum t => exact hleaf _
    | object t => rfl
    | interface t => cases env.schema.concreteType? name v <;> rfl
    | union t => cases env.schema.concreteType? name v <;> rfl
    | inputObject t => rfl

/-- Completion follows the verdict of the type. -/
theorem completeValue_eq (env : Environment) (t : TypeExpr) (p : Place) (v : Json)
    (reported : Bool) :
    env.completeValue t p v reported = env.enact p v reported (env.judge t p v) := by
  induction t with
  | nonNull t ih => exact ih
  | list t => cases v <;> rfl
  | named name =>
    cases v with
    | null => rfl
    | _ => exact completeNamed_eq env name p _ reported

end Environment

/-! ## Incidents -/

/-- What befalls a position. -/
inductive Incident where
  /-- An argument of the field does not fit its type. -/
  | misfit (p : Place) (g : FieldGroup) (e : Misfit)
  /-- The resolver of the field is called and comes to an outcome. -/
  | answered (p : Place) (g : FieldGroup) (call : ResolverCall) (o : Outcome)
  /-- The type of the place refuses its value. -/
  | refused (p : Place) (message : String)

/-- Whether the resolver failed or broke down. -/
def Outcome.isFailure : Outcome → Bool
  | .failure _ => true
  | .breakdown _ => true
  | _ => false

namespace Incident

/-- Where it happens. -/
def place : Incident → Place
  | .misfit p _ _ => p
  | .answered p _ _ _ => p
  | .refused p _ => p

/-- The keys and indices from the root to where it happens. -/
def path (x : Incident) : Path := x.place.path

/-- The value that it leaves, with the errors that it raises. -/
def fetched : Incident → Fetched
  | .misfit p g e =>
    .failed (p.error ("Argument error on field \"" ++ g.name ++ "\": " ++ e.message))
  | .answered p g _ o => .ofOutcome p g.position o
  | .refused p message => .failed (p.error message)

/-- The errors that it raises. -/
def errors (x : Incident) : List ResponseError := x.fetched.errors

/-- The value that it leaves. -/
def value (x : Incident) : Json := x.fetched.value

/-- The call of a resolver. -/
def call? : Incident → Option ResolverCall
  | .answered _ _ call _ => some call
  | _ => none

/-- Whether the position is left without a value by it: everything but a resolver that
answers, be it with nothing or with errors besides a value. -/
def isFailure : Incident → Bool
  | .misfit _ _ _ => true
  | .answered _ _ _ o => o.isFailure
  | .refused _ _ => true

/-- The path, and whether the fetch there was over. No two incidents of an execution
agree in both. -/
def slot : Incident → Path × Bool
  | .misfit p _ _ => (p.path, false)
  | .answered p _ _ _ => (p.path, false)
  | .refused p _ => (p.path, true)

@[simp] theorem slot_fst (x : Incident) : x.slot.1 = x.path := by cases x <;> rfl

/-- A failure leaves null and an error. -/
theorem fetched_of_isFailure {x : Incident} (h : x.isFailure = true) :
    ∃ e, x.fetched = .failed e := by
  cases x with
  | misfit => exact ⟨_, rfl⟩
  | refused => exact ⟨_, rfl⟩
  | answered p g call o =>
    cases o with
    | failure e => exact ⟨_, rfl⟩
    | breakdown message? => exact ⟨_, rfl⟩
    | _ => simp [isFailure, Outcome.isFailure] at h

/-- The errors of an incident are about its position or something below it. -/
theorem under_errors {x : Incident} {e : ResponseError} (h : e ∈ x.errors) : e.Under x.path := by
  cases x with
  | misfit p g e' =>
    obtain rfl := List.mem_singleton.1 h
    exact Place.under_error p _
  | answered => exact Environment.under_ofOutcome h
  | refused p message =>
    obtain rfl := List.mem_singleton.1 h
    exact Place.under_error p _

end Incident

/-! ## Executions told by position -/

namespace Environment

/-- What can befall a field when it is fetched from an object value. -/
inductive Fetches (env : Environment) (source : Json) (d : FieldDefinition) (p : Place)
    (g : FieldGroup) : Incident → Prop
  | misfit {e : Misfit}
      (ha : coerceArgumentValues env.schema env.scope.vars d.arguments.items g.arguments =
        .error e) :
      Fetches env source d p g (.misfit p g e)
  | answered {arguments : List (String × Json)} {o : Outcome}
      (ha : coerceArgumentValues env.schema env.scope.vars d.arguments.items g.arguments =
        .ok arguments)
      (ho : (d.resolver (env.call source arguments p)).Ends o) :
      Fetches env source d p g (.answered p g (env.call source arguments p) o)

mutual

/-- A value at a place becomes a node, by the verdict of a type; `reported` if an error has
been raised for it. The incidents at and below the place are listed depth first. -/
inductive Told (env : Environment) :
    TypeExpr → Place → Json → Bool → Node → List Incident → Prop
  | null {t : TypeExpr} {p : Place} {v : Json} {reported : Bool}
      (hv : env.judge t p v = .null) : Told env t p v reported (.null p reported) []
  | refused {t : TypeExpr} {p : Place} {v : Json} {reported : Bool} {message : String}
      (hv : env.judge t p v = .refused message) :
      Told env t p v reported (.null p true) [.refused p message]
  | leaf {t : TypeExpr} {p : Place} {v w : Json} {reported : Bool}
      (hv : env.judge t p v = .leaf w) : Told env t p v reported (.leaf p w) []
  | list {t u : TypeExpr} {p : Place} {v : Json} {vs : List Json} {reported : Bool}
      {ns : List Node} {xs : List Incident} (hv : env.judge t p v = .items u vs)
      (hs : ToldItems env u p 0 vs ns xs) : Told env t p v reported (.list p ns) xs
  | object {t : TypeExpr} {p : Place} {v : Json} {object : String} {reported : Bool}
      {children : List (String × Node)} {xs : List Incident}
      (hv : env.judge t p v = .object object)
      (hs : ToldFields env (env.subSelectionAt p object v) object
        (env.subSelectionAt p object v).groups children xs) :
      Told env t p v reported (.object (p.withConcreteType object) children) xs

/-- The items of a list from an index on. -/
inductive ToldItems (env : Environment) :
    TypeExpr → Place → Nat → List Json → List Node → List Incident → Prop
  | nil (t : TypeExpr) (p : Place) (i : Nat) : ToldItems env t p i [] [] []
  | cons {t : TypeExpr} {p : Place} {i : Nat} {v : Json} {vs : List Json} {n : Node}
      {ns : List Node} {xs ys : List Incident} (h : Told env t (p.item i t) v false n xs)
      (hs : ToldItems env t p (i + 1) vs ns ys) :
      ToldItems env t p i (v :: vs) (n :: ns) (xs ++ ys)

/-- The fields of an object value of a concrete type, for field groups in order. -/
inductive ToldFields (env : Environment) :
    SubSelection → String → FieldGroups → List (String × Node) → List Incident → Prop
  | nil (sub : SubSelection) (object : String) : ToldFields env sub object [] [] []
  | typename {sub : SubSelection} {object : String} {g : FieldGroup} {gs : FieldGroups}
      {children : List (String × Node)} {xs : List Incident} (hn : g.name = "__typename")
      (hs : ToldFields env sub object gs children xs) :
      ToldFields env sub object (g :: gs)
        ((g.key, .leaf (sub.place.field g.key g object (.required "String")) (.str object)) ::
          children) xs
  | undeclared {sub : SubSelection} {object : String} {g : FieldGroup} {gs : FieldGroups}
      {children : List (String × Node)} {xs : List Incident} (hn : g.name ≠ "__typename")
      (hd : env.schema.field? object g.name = none)
      (hs : ToldFields env sub object gs children xs) :
      ToldFields env sub object (g :: gs) children xs
  | declared {sub : SubSelection} {object : String} {g : FieldGroup} {gs : FieldGroups}
      {d : FieldDefinition} {x : Incident} {n : Node} {children : List (String × Node)}
      {xs ys : List Incident} (hn : g.name ≠ "__typename")
      (hd : env.schema.field? object g.name = some d)
      (hx : env.Fetches sub.source d (sub.place.field g.key g object d.type) g x)
      (h : Told env d.type (sub.place.field g.key g object d.type) x.value
        (!x.errors.isEmpty) n xs)
      (hs : ToldFields env sub object gs children ys) :
      ToldFields env sub object (g :: gs) ((g.key, n) :: children) (x :: (xs ++ ys))

end

end Environment

/-! ## What events and incidents have in common -/

/-- The call of an event that calls a resolver. -/
def Event.call? : Event → Option ResolverCall
  | .invoked call => some call
  | .resumed _ => none
  | .logged _ => none
  | .raised _ => none

/-- The calls of resolvers among some events, in order. -/
def Event.calls (es : List Event) : List ResolverCall := es.filterMap Event.call?

@[simp] theorem Event.calls_append (es fs : List Event) :
    Event.calls (es ++ fs) = Event.calls es ++ Event.calls fs :=
  List.filterMap_append

@[simp] theorem Event.calls_raised (errors : List ResponseError) :
    Event.calls (errors.map .raised) = [] := by
  simp [calls, call?, List.filterMap_map, Function.comp_def]

theorem Event.mem_calls {es : List Event} {call : ResolverCall} :
    call ∈ Event.calls es ↔ .invoked call ∈ es := by
  constructor
  · intro h
    obtain ⟨e, he, hcall⟩ := List.mem_filterMap.1 h
    cases e with
    | invoked call' =>
      obtain rfl := Option.some.inj hcall
      exact he
    | _ => simp [call?] at hcall
  · exact fun h => List.mem_filterMap.2 ⟨_, h, rfl⟩

/-- The incidents recount some calls and errors, in whatever order. -/
structure Recounts (xs : List Incident) (calls : List ResolverCall)
    (errors : List ResponseError) : Prop where
  calls : calls.Perm (xs.filterMap Incident.call?)
  errors : errors.Perm (xs.flatMap Incident.errors)

namespace Recounts

variable {xs ys : List Incident} {calls calls' : List ResolverCall}
  {errors errors' : List ResponseError}

theorem nil : Recounts [] [] [] := ⟨.refl _, .refl _⟩

theorem append (hx : Recounts xs calls errors) (hy : Recounts ys calls' errors') :
    Recounts (xs ++ ys) (calls ++ calls') (errors ++ errors') where
  calls := by
    rw [List.filterMap_append]
    exact hx.calls.append hy.calls
  errors := by
    rw [List.flatMap_append]
    exact hx.errors.append hy.errors

theorem single (x : Incident) : Recounts [x] x.call?.toList x.errors where
  calls := by
    rw [List.filterMap_cons]
    cases x.call? <;> exact .refl _
  errors := by
    rw [List.flatMap_singleton]

theorem perm (h : Recounts xs calls errors) (hc : calls'.Perm calls) (he : errors'.Perm errors) :
    Recounts xs calls' errors' :=
  ⟨hc.trans h.calls, he.trans h.errors⟩

/-- Interleaved events are recounted one side after the other. -/
theorem interleave {es₁ es₂ es : List Event} (hes : Interleaves es₁ es₂ es)
    (hx : Recounts xs (Event.calls es₁) (Event.errors es₁))
    (hy : Recounts ys (Event.calls es₂) (Event.errors es₂)) :
    Recounts (xs ++ ys) (Event.calls es) (Event.errors es) := by
  refine (hx.append hy).perm ?_ ?_
  · rw [← Event.calls_append]
    exact hes.perm.filterMap _
  · rw [← Event.errors_append]
    exact hes.perm.filterMap _

end Recounts

/-- The events of an ending are among those that the job can emit. -/
theorem Job.Always.of_mem_ends {α : Type} {P : Event → Prop} {j : Job α} (h : j.Always P)
    {es : List Event} {a : α} (hends : j.Ends es a) : ∀ e ∈ es, P e := by
  induction hends with
  | done a => simp
  | emit n _ ih =>
    cases h with
    | emit he h =>
      exact List.forall_mem_cons.2 ⟨he, ih (h n)⟩
  | suspend _ ih =>
    cases h with
    | suspend h => exact ih h

/-- A fetch calls no resolver itself. -/
theorem Fetch.calls_of_job {f : Fetch} {path : Path} {es : List Event} {o : Outcome}
    (h : (f.job path).Ends es o) : Event.calls es = [] := by
  have halways : (f.job path).Always fun e => e.call? = none :=
    Fetch.always_job (P := fun e => e.call? = none) (fun _ => rfl) rfl f
  exact List.filterMap_eq_nil_iff.2 (halways.of_mem_ends h)

namespace Environment

variable {env : Environment}

/-! ## Every ending is told -/

/-- A fetch befalls its field with one incident, which recounts its events. -/
theorem FetchEnds.exists_incident {source : Json} {d : FieldDefinition} {p : Place}
    {g : FieldGroup} (hg : p.group? = some g) {es : List Event} {f : Fetched}
    (h : FetchEnds env source d p es f) :
    ∃ x, env.Fetches source d p g x ∧ x.fetched = f ∧
      Event.calls es = x.call?.toList ∧ Event.errors es = [] := by
  cases h with
  | fieldless hnone => rw [hg] at hnone; cases hnone
  | misfit hg' ha =>
    obtain rfl := Option.some.inj (hg.symm.trans hg')
    exact ⟨_, .misfit ha, rfl, rfl, rfl⟩
  | called hg' ha hf =>
    obtain rfl := Option.some.inj (hg.symm.trans hg')
    obtain ⟨ho, herrors⟩ := Fetch.ends_of_job hf
    refine ⟨_, .answered ha ho, rfl, ?_, herrors⟩
    exact congrArg (_ :: ·) (Fetch.calls_of_job hf)

theorem Told.nonNull {t : TypeExpr} {p : Place} {v : Json} {reported : Bool} {n : Node}
    {xs : List Incident} (h : Told env t p v reported n xs) :
    Told env (.nonNull t) p v reported n xs := by
  cases h with
  | null hv => exact .null hv
  | refused hv => exact .refused hv
  | leaf hv => exact .leaf hv
  | list hv hs => exact .list hv hs
  | object hv hs => exact .object hv hs

section

variable {descend : SubSelection → NodeJob}

/-- Descending into a sub-selection of a known concrete type is told by the fields of the
object. -/
def TellsFields (env : Environment) (descend : SubSelection → NodeJob) : Prop :=
  ∀ {sub : SubSelection} {object : String} {es : List Event} {n : Node},
    sub.place.concreteType? = some object → (descend sub).Ends es (.ok n) →
      ∃ children xs, n = .object sub.place children ∧
        env.ToldFields sub object sub.groups children xs ∧
        Recounts xs (Event.calls es) (Event.errors es)

/-- What completing a value and resolving what that leaves is told as: the errors of the
completion are recounted with those of the events. -/
def TellsValue (env : Environment) (descend : SubSelection → NodeJob) (t : TypeExpr) : Prop :=
  ∀ {p : Place} {v : Json} {reported : Bool} {m n : Node} {es : List Event},
    (env.completeValue t p v reported).outcome = .ok m →
    (resolvePending descend m).Ends es (.ok n) →
      ∃ xs, Told env t p v reported n xs ∧
        Recounts xs (Event.calls es)
          ((env.completeValue t p v reported).errors ++ Event.errors es)

/-- Completed items, each of them resolved. -/
theorem toldItems_of_joined {t : TypeExpr} (ht : TellsValue env descend t) {p : Place}
    {i : Nat} {vs : List Json} {ms ns : List Node} {es : List Event}
    (hms : (Completion.each (fun i x => env.completeValue t (p.item i t) x false) i vs).outcome =
      .ok ms)
    (h : Job.Joined (ms.map (resolvePending descend)) es (.ok ns)) :
    ∃ xs, ToldItems env t p i vs ns xs ∧
      Recounts xs (Event.calls es)
        ((Completion.each (fun i x => env.completeValue t (p.item i t) x false) i vs).errors ++
          Event.errors es) := by
  induction vs generalizing i ms ns es with
  | nil =>
    obtain rfl := Except.ok.inj hms
    cases h
    exact ⟨[], .nil t p i, .nil⟩
  | cons v vs ih =>
    obtain ⟨m, ms', rfl, hm, hms', herrors⟩ := Completion.each_ok hms
    cases h with
    | @cons _ _ es₁ es₂ _ n ns' hj hjs hes =>
      obtain ⟨xs, hx, hxs⟩ := ht hm hj
      obtain ⟨ys, hy, hys⟩ := ih hms' hjs
      refine ⟨xs ++ ys, .cons hx hy, (hxs.append hys).perm ?_ ?_⟩
      · rw [← Event.calls_append]
        exact hes.perm.filterMap _
      · rw [herrors]
        have hevents : (Event.errors es).Perm (Event.errors es₁ ++ Event.errors es₂) := by
          rw [← Event.errors_append]
          exact hes.perm.filterMap _
        refine (hevents.append_left _).trans ?_
        -- the completion of the later items comes before the events of the first
        simp only [List.append_assoc]
        exact (List.perm_append_comm_assoc _ _ _).append_left _

/-- A completed value that has been resolved, by the verdict of its type. -/
theorem told_of_verdict (hdescend : TellsFields env descend) {t : TypeExpr} {p : Place} {v : Json}
    (hitems : ∀ u vs, env.judge t p v = .items u vs → TellsValue env descend u)
    {reported : Bool} {m n : Node} {es : List Event}
    (hm : (env.completeValue t p v reported).outcome = .ok m)
    (h : (resolvePending descend m).Ends es (.ok n)) :
    ∃ xs, Told env t p v reported n xs ∧
      Recounts xs (Event.calls es)
        ((env.completeValue t p v reported).errors ++ Event.errors es) := by
  rw [completeValue_eq] at hm ⊢
  cases hv : env.judge t p v with
  | null =>
    rw [hv] at hm
    obtain rfl := Except.ok.inj hm
    obtain ⟨rfl, rfl⟩ := done_ends h
    exact ⟨[], .null hv, .nil⟩
  | leaf w =>
    rw [hv] at hm
    obtain rfl := Except.ok.inj hm
    obtain ⟨rfl, rfl⟩ := done_ends h
    exact ⟨[], .leaf hv, .nil⟩
  | refused message =>
    rw [hv] at hm
    obtain rfl := Except.ok.inj hm
    obtain ⟨rfl, rfl⟩ := done_ends h
    exact ⟨_, .refused hv, .single _⟩
  | fault f =>
    rw [hv] at hm
    cases hm
  | object object =>
    rw [hv] at hm
    obtain rfl := Except.ok.inj hm
    have hends : (descend (env.subSelectionAt p object v)).Ends es (.ok n) := pending_ends h
    obtain ⟨children, xs, rfl, hfields, hxs⟩ := hdescend rfl hends
    exact ⟨xs, .object hv hfields, hxs⟩
  | items u vs =>
    rw [hv] at hm
    obtain ⟨ms, hms, rfl⟩ := Except.map_eq_ok hm
    obtain ⟨rs, hrs, hn⟩ := list_ends h
    obtain ⟨ns, rfl, rfl⟩ := Except.map_eq_ok hn.symm
    obtain ⟨xs, hitems, hxs⟩ := toldItems_of_joined (hitems u vs hv) hms hrs
    exact ⟨xs, .list hv hitems, hxs⟩

/-- Completed values of every type are told: by induction on the type. -/
theorem tellsValue (hdescend : TellsFields env descend) (t : TypeExpr) :
    TellsValue env descend t := by
  induction t with
  | nonNull t ih =>
    intro p v reported m n es hm h
    obtain ⟨xs, hx, hxs⟩ := ih hm h
    exact ⟨xs, hx.nonNull, hxs⟩
  | list t ih =>
    intro p v reported m n es hm h
    refine told_of_verdict hdescend (fun u vs hv => ?_) hm h
    obtain rfl : t = u := by
      cases v with
      | arr vs => exact (Verdict.items.inj hv).1
      | _ => cases hv
    exact ih
  | named name =>
    intro p v reported m n es hm h
    exact told_of_verdict hdescend (fun u vs hv => absurd hv judge_named_ne_items) hm h

/-- The fields of an object that have ended without a fault are told one after the other. -/
theorem toldFields_of_joined (hdescend : TellsFields env descend) {sub : SubSelection}
    {object : String} (hp : sub.place.concreteType? = some object) {gs : FieldGroups}
    {es : List Event} {ns : List (Option Node)}
    (h : Job.Joined (gs.map (env.fieldJob descend sub.source sub.place)) es (.ok ns)) :
    ∃ xs, ToldFields env sub object gs (children gs ns) xs ∧
      Recounts xs (Event.calls es) (Event.errors es) := by
  induction gs generalizing es ns with
  | nil =>
    cases h
    exact ⟨[], .nil sub object, .nil⟩
  | cons g gs ih =>
    cases h with
    | @cons _ _ es₁ es₂ _ n ns hj hjs hes =>
      obtain ⟨ys, hs, hys⟩ := ih hjs
      rw [children_cons]
      generalize hr : Except.ok n = r at hj
      cases fieldEnds_of_ends hj with
      | untyped ho => simp at hr
      | typename ho hn =>
        obtain rfl := Except.ok.inj hr
        obtain rfl := Option.some.inj (hp.symm.trans ho)
        exact ⟨ys, .typename hn hs, .interleave hes .nil hys⟩
      | undeclared ho hn hd =>
        obtain rfl := Except.ok.inj hr
        obtain rfl := Option.some.inj (hp.symm.trans ho)
        exact ⟨ys, .undeclared hn hd hs, .interleave hes .nil hys⟩
      | @declared _ d _ r' ho hn hd hr' =>
        obtain rfl := Option.some.inj (hp.symm.trans ho)
        obtain ⟨m, rfl, rfl⟩ := Except.map_eq_ok hr.symm
        cases hr' with
        | @node es₀ fs f _ _ hf hc hm =>
          obtain ⟨x, hx, rfl, hcalls, herrors⟩ := hf.exists_incident rfl
          obtain ⟨xs, htold, hxs⟩ := tellsValue hdescend d.type hc hm
          refine ⟨(x :: xs) ++ ys, .declared hn hd hx htold hs, .interleave hes ?_ hys⟩
          refine ((Recounts.single x).append hxs).perm ?_ ?_
          · simp [hcalls]
          · simp [herrors, Incident.errors, Environment.completed]

end

/-- Every ending of an execution without a fault is told by the fields of its object, by
induction on the levels. -/
theorem told_objectJob (env : Environment) (levels : Nat) (mode : Mode) :
    TellsFields env (env.objectJob levels mode) := by
  induction levels generalizing mode with
  | zero =>
    intro sub object es n _ h
    exact absurd (objectJob_zero h).2 (by simp)
  | succ levels ih =>
    intro sub object es n hp h
    obtain ⟨rs, hrs, hn⟩ := joined_of_objectJob h
    obtain ⟨ns, rfl, rfl⟩ := Except.map_eq_ok hn.symm
    obtain ⟨xs, hfields, hxs⟩ := toldFields_of_joined (ih .parallel) hp hrs
    exact ⟨_, xs, rfl, hfields, hxs⟩

end Environment

end GraphQL
