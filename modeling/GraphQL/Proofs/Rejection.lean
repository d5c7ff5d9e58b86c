/-
GraphQL.Proofs.Rejection — what becomes of a request before anything runs.

Five stages come before the first resolver: the text is read, the document validated, the
operation chosen, its root type chosen, the variables coerced. `Request.failure?` says for
each stage by itself whether it fails. Nothing in it depends on the order of the stages, so a
request can fail at several of them: a document with findings may have no operation of the
name asked for, or want variables that were not sent. The first failure is the answer.

* `Request.refusal_of_failure?` — a stage that fails tells the client so: its failure is no
  fault and comes with errors, and none of them has a path.
* `Request.plan_of_firstFailure`, `Request.plan_of_unregistered`, `Request.plan_of_passes` —
  what the stages come to: the failure of the first that fails, the fault of a root type that
  is no object type, or a plan. That fault comes before the variables are looked at: where
  both are wrong, nobody hears of the variables.
* `Request.existsUnique_disposition` — hence a request is rejected with the errors of its first
  failing stage, or it is a fault of the schema, or it is executed.
-/
import GraphQL.Proofs.Steps

namespace GraphQL

/-! ## Stages -/

/-- What a request goes through before anything runs. -/
inductive Stage where
  | parsing
  | validation
  | operation
  | rootType
  | coercion
deriving DecidableEq

/-- The place of a stage in the order of the stages. -/
def Stage.rank : Stage → Nat
  | .parsing => 0
  | .validation => 1
  | .operation => 2
  | .rootType => 3
  | .coercion => 4

/-- The failure of a computation that may fail. -/
def Except.failure? {ε α : Type} (asFailure : ε → Failure) : Except ε α → Option Failure
  | .error e => some (asFailure e)
  | .ok _ => none

namespace Request

/-- The document that the text writes, if it is well formed. -/
def parsed? (r : Request) : Option Document := (Document.parse r.text).toOption

/-- The operation of the document that the request asks for. -/
def selected? (r : Request) : Option Operation :=
  r.parsed?.bind fun d => (d.operation r.operation?).toOption

/-- The name of the root type of the operation. -/
def rootType? (s : Schema) (r : Request) : Option String :=
  r.selected?.bind fun o => (o.rootTypeName s).toOption

/-- The values of the variables of an operation. -/
def variableValues (s : Schema) (r : Request) (o : Operation) : Except Failure VariableValues :=
  r.rawVariables.bind fun raw =>
    (coerceVariableValues s o.variableDefinitions raw).mapError Failure.coercion

/-- Why a stage fails: nothing if it passes, or if there is nothing for it to look at. -/
def failure? (s : Schema) (r : Request) : Stage → Option Failure
  | .parsing => Except.failure? .malformed (Document.parse r.text)
  | .validation => r.parsed?.bind fun d =>
    match r.validator s d with
    | [] => none
    | findings => some (.request findings)
  | .operation => r.parsed?.bind fun d =>
    Except.failure? .ofRequestError (d.operation r.operation?)
  | .rootType => r.selected?.bind fun o => Except.failure? .ofRequestError (o.rootTypeName s)
  | .coercion => r.selected?.bind fun o => Except.failure? id (r.variableValues s o)

/-- A stage fails, and none before it does. -/
structure FirstFailure (s : Schema) (r : Request) (stage : Stage) (f : Failure) : Prop where
  fails : r.failure? s stage = some f
  first : ∀ earlier, earlier.rank < stage.rank → r.failure? s earlier = none

end Request

namespace Except

variable {ε α : Type} {asFailure : ε → Failure} {x : Except ε α}

theorem failure?_eq_some {f : Failure} (h : failure? asFailure x = some f) :
    ∃ e, x = .error e ∧ asFailure e = f := by
  cases x with
  | error e => exact ⟨e, rfl, Option.some.inj h⟩
  | ok a => cases h

theorem failure?_eq_none (h : failure? asFailure x = none) : ∃ a, x = .ok a := by
  cases x with
  | error e => cases h
  | ok a => exact ⟨a, rfl⟩

end Except

/-! ## Refusals -/

/-- A failure that is an answer for the client, and says something. -/
structure Failure.Refusal (f : Failure) : Prop where
  not_fault : ∀ x, f ≠ .fault x
  told : f.toErrors ≠ []

namespace Failure

/-- The errors of a request as a whole have no path. -/
theorem path?_of_mem_toErrors {f : Failure} {e : ResponseError} (h : e ∈ f.toErrors) :
    e.path? = none := by
  cases f with
  | request findings =>
    obtain ⟨x, -, rfl⟩ := List.mem_map.1 h
    rfl
  | coercion errors =>
    obtain ⟨x, -, rfl⟩ := List.mem_map.1 h
    rfl
  | _ =>
    obtain rfl := List.mem_singleton.1 h
    rfl

theorem refusal_malformed (p : Position) : (malformed p).Refusal where
  not_fault := fun _ h => nomatch h
  told := List.cons_ne_nil _ _

theorem refusal_request {findings : List Finding} (h : findings ≠ []) :
    (request findings).Refusal where
  not_fault := fun _ h => nomatch h
  told := fun hnil => h (List.map_eq_nil_iff.1 hnil)

theorem refusal_coercion {errors : List Misfit} (h : errors ≠ []) : (coercion errors).Refusal where
  not_fault := fun _ h => nomatch h
  told := fun hnil => h (List.map_eq_nil_iff.1 hnil)

end Failure

/-- Variables are refused for a reason. -/
theorem coerceVariableValues_error {s : Schema} {ds : List VariableDefinition}
    {raw : List (String × Json)} {errors : List Misfit}
    (h : coerceVariableValues s ds raw = .error errors) : errors ≠ [] := by
  unfold coerceVariableValues at h
  split at h
  · simp at h
  · next hne =>
    obtain rfl := Except.error.inj h
    exact hne

namespace Request

variable {s : Schema} {r : Request}

theorem refusal_of_rawVariables {f : Failure} (h : r.rawVariables = .error f) : f.Refusal := by
  unfold rawVariables at h
  split at h
  case h_4 =>
    obtain rfl := Except.error.inj h
    exact Failure.refusal_coercion (List.cons_ne_nil _ _)
  all_goals simp at h

theorem refusal_of_variableValues {o : Operation} {f : Failure}
    (h : r.variableValues s o = .error f) : f.Refusal := by
  unfold variableValues at h
  cases hraw : r.rawVariables with
  | error f' =>
    rw [hraw] at h
    obtain rfl := Except.error.inj h
    exact refusal_of_rawVariables hraw
  | ok raw =>
    cases hvars : coerceVariableValues s o.variableDefinitions raw with
    | error errors =>
      simp only [hraw, hvars, Except.bind, Except.mapError, Except.error.injEq] at h
      subst h
      exact Failure.refusal_coercion (coerceVariableValues_error hvars)
    | ok vars => simp [hraw, hvars, Except.bind, Except.mapError] at h

/-- The failure of any stage is an answer for the client. -/
theorem refusal_of_failure? {stage : Stage} {f : Failure} (h : r.failure? s stage = some f) :
    f.Refusal := by
  cases stage with
  | parsing =>
    obtain ⟨p, -, rfl⟩ := Except.failure?_eq_some h
    exact Failure.refusal_malformed p
  | validation =>
    obtain ⟨d, -, h⟩ := Option.bind_eq_some_iff.1 h
    split at h
    · simp at h
    · next hne =>
      obtain rfl := Option.some.inj h
      exact Failure.refusal_request hne
  | operation =>
    obtain ⟨d, -, h⟩ := Option.bind_eq_some_iff.1 h
    obtain ⟨e, -, rfl⟩ := Except.failure?_eq_some h
    exact Failure.refusal_request (List.cons_ne_nil _ _)
  | rootType =>
    obtain ⟨o, -, h⟩ := Option.bind_eq_some_iff.1 h
    obtain ⟨e, -, rfl⟩ := Except.failure?_eq_some h
    exact Failure.refusal_request (List.cons_ne_nil _ _)
  | coercion =>
    obtain ⟨o, -, h⟩ := Option.bind_eq_some_iff.1 h
    obtain ⟨e, he, rfl⟩ := Except.failure?_eq_some h
    exact refusal_of_variableValues he

/-- A request that fails at some stage fails there or earlier for the first time. -/
theorem exists_firstFailure {stage : Stage} {f : Failure} (h : r.failure? s stage = some f) :
    ∃ first f, first.rank ≤ stage.rank ∧ FirstFailure s r first f := by
  by_cases hearlier : ∃ earlier, earlier.rank < stage.rank ∧ r.failure? s earlier ≠ none
  · obtain ⟨earlier, hlt, hfails⟩ := hearlier
    obtain ⟨f', hf'⟩ := Option.ne_none_iff_exists'.1 hfails
    obtain ⟨first, f'', hle, hfirst⟩ := exists_firstFailure hf'
    exact ⟨first, f'', hle.trans hlt.le, hfirst⟩
  · exact ⟨stage, f, le_rfl, h, fun earlier hlt =>
      Classical.not_not.1 fun hfails => hearlier ⟨earlier, hlt, hfails⟩⟩
termination_by stage.rank

/-! ## Passing the stages

What a stage that passes leaves to the next one. -/

theorem parsed?_of_passes (h : r.failure? s .parsing = none) : ∃ d, r.parsed? = some d := by
  obtain ⟨d, hd⟩ := Except.failure?_eq_none h
  exact ⟨d, by rw [parsed?, hd]; rfl⟩

theorem document_of_passes {d : Document} (hd : r.parsed? = some d)
    (h : r.failure? s .validation = none) : r.document s = .ok d := by
  rw [failure?, hd, Option.bind_some] at h
  unfold document
  rw [Except.toOption_eq_some hd]
  cases hv : r.validator s d with
  | nil => simp only [hv]
  | cons x findings => simp [hv] at h

theorem selected?_of_passes {d : Document} (hd : r.parsed? = some d)
    (h : r.failure? s .operation = none) : ∃ o, r.selected? = some o := by
  rw [failure?, hd, Option.bind_some] at h
  obtain ⟨o, ho⟩ := Except.failure?_eq_none h
  exact ⟨o, by rw [selected?, hd, Option.bind_some, ho]; rfl⟩

theorem rootType?_of_passes {o : Operation} (ho : r.selected? = some o)
    (h : r.failure? s .rootType = none) : ∃ root, r.rootType? s = some root := by
  rw [failure?, ho, Option.bind_some] at h
  obtain ⟨root, hroot⟩ := Except.failure?_eq_none h
  exact ⟨root, by rw [rootType?, ho, Option.bind_some, hroot]; rfl⟩

theorem variableValues_of_passes {o : Operation} (ho : r.selected? = some o)
    (h : r.failure? s .coercion = none) : ∃ vars, r.variableValues s o = .ok vars := by
  rw [failure?, ho, Option.bind_some] at h
  exact Except.failure?_eq_none h

theorem operation_of_selected? {d : Document} {o : Operation} (hd : r.parsed? = some d)
    (ho : r.selected? = some o) : d.operation r.operation? = .ok o := by
  rw [selected?, hd, Option.bind_some] at ho
  exact Except.toOption_eq_some ho

theorem rootTypeName_of_rootType? {o : Operation} {root : String} (ho : r.selected? = some o)
    (hroot : r.rootType? s = some root) : o.rootTypeName s = .ok root := by
  rw [rootType?, ho, Option.bind_some] at hroot
  exact Except.toOption_eq_some hroot

/-! ## What the stages come to -/

/-- A request whose operation has a root type comes to what its variables come to. -/
theorem plan_of_target {d : Document} {o : Operation} {root : String}
    (hd : r.document s = .ok d) (ht : r.target s d = .ok (o, root)) :
    r.plan s = (r.variableValues s o).map fun vars => ⟨d, o, root, vars⟩ := by
  unfold plan variableValues
  simp only [hd, ht, bind, Except.bind]
  cases r.rawVariables with
  | error f => rfl
  | ok raw =>
    dsimp only
    cases coerceVariableValues s o.variableDefinitions raw <;> rfl

theorem plan_of_document_error {f : Failure} (h : r.document s = .error f) :
    r.plan s = .error f := by
  unfold plan
  rw [h]
  rfl

theorem plan_of_target_error {d : Document} {f : Failure} (hd : r.document s = .ok d)
    (h : r.target s d = .error f) : r.plan s = .error f := by
  unfold plan
  simp only [hd, h, bind, Except.bind]

/-- The first two stages pass: there is a document. -/
theorem exists_document (hparsing : r.failure? s .parsing = none)
    (hvalidation : r.failure? s .validation = none) :
    ∃ d, r.parsed? = some d ∧ r.document s = .ok d := by
  obtain ⟨d, hd⟩ := parsed?_of_passes hparsing
  exact ⟨d, hd, document_of_passes hd hvalidation⟩

/-- The first four stages pass: there is an operation and the name of its root type. -/
theorem exists_operation (h : ∀ stage, stage.rank < Stage.coercion.rank →
    r.failure? s stage = none) :
    ∃ d o root, r.document s = .ok d ∧ d.operation r.operation? = .ok o ∧
      o.rootTypeName s = .ok root ∧ r.selected? = some o ∧ r.rootType? s = some root := by
  obtain ⟨d, hd, hdoc⟩ := exists_document (h .parsing (by decide)) (h .validation (by decide))
  obtain ⟨o, ho⟩ := selected?_of_passes hd (h .operation (by decide))
  obtain ⟨root, hroot⟩ := rootType?_of_passes ho (h .rootType (by decide))
  exact ⟨d, o, root, hdoc, operation_of_selected? hd ho, rootTypeName_of_rootType? ho hroot, ho,
    hroot⟩

theorem target_of_registered {d : Document} {o : Operation} {root : String} {t : ObjectType}
    (ho : d.operation r.operation? = .ok o) (hroot : o.rootTypeName s = .ok root)
    (ht : s.object? root = some t) : r.target s d = .ok (o, root) := by
  unfold target
  simp only [ho, hroot, ht]

/-- A root type that is no object type is a fault, whatever the variables are. -/
theorem plan_of_unregistered (h : ∀ stage, stage.rank < Stage.coercion.rank →
    r.failure? s stage = none) {root : String} (hroot : r.rootType? s = some root)
    (hnone : s.object? root = none) : r.plan s = .error (.fault (.rootNotObject root)) := by
  obtain ⟨d, o, root', hdoc, ho, hname, -, hroot'⟩ := exists_operation h
  obtain rfl := Option.some.inj (hroot.symm.trans hroot')
  refine plan_of_target_error hdoc ?_
  unfold target
  simp only [ho, hname, hnone]

/-- The first failure is the answer. A root type that is no object type would come before
the variables. -/
theorem plan_of_firstFailure {stage : Stage} {f : Failure} (h : FirstFailure s r stage f)
    (hroot : stage = .coercion → ∀ root, r.rootType? s = some root → s.object? root ≠ none) :
    r.plan s = .error f := by
  obtain ⟨hfails, hfirst⟩ := h
  cases stage with
  | parsing =>
    obtain ⟨p, hp, rfl⟩ := Except.failure?_eq_some hfails
    refine plan_of_document_error ?_
    unfold document
    simp only [hp]
  | validation =>
    obtain ⟨d, hd, hfindings⟩ := Option.bind_eq_some_iff.1 hfails
    refine plan_of_document_error ?_
    unfold document
    rw [Except.toOption_eq_some hd]
    cases hv : r.validator s d with
    | nil => simp [hv] at hfindings
    | cons x findings =>
      simp only [hv, Option.some.injEq] at hfindings
      simp only [hv, hfindings]
  | operation =>
    obtain ⟨d, hd, hdoc⟩ :=
      exists_document (hfirst .parsing (by decide)) (hfirst .validation (by decide))
    rw [failure?, hd, Option.bind_some] at hfails
    obtain ⟨e, he, rfl⟩ := Except.failure?_eq_some hfails
    refine plan_of_target_error hdoc ?_
    unfold target
    simp only [he]
  | rootType =>
    obtain ⟨d, hd, hdoc⟩ :=
      exists_document (hfirst .parsing (by decide)) (hfirst .validation (by decide))
    obtain ⟨o, ho⟩ := selected?_of_passes hd (hfirst .operation (by decide))
    rw [failure?, ho, Option.bind_some] at hfails
    obtain ⟨e, he, rfl⟩ := Except.failure?_eq_some hfails
    refine plan_of_target_error hdoc ?_
    unfold target
    simp only [operation_of_selected? hd ho, he]
  | coercion =>
    obtain ⟨d, o, root, hdoc, ho, hname, hsel, htype⟩ := exists_operation hfirst
    obtain ⟨t, ht⟩ := Option.ne_none_iff_exists'.1 (hroot rfl root htype)
    rw [failure?, hsel, Option.bind_some] at hfails
    obtain ⟨e, he, rfl⟩ := Except.failure?_eq_some hfails
    rw [plan_of_target hdoc (target_of_registered ho hname ht), he]
    rfl

/-- A request that passes every stage, on a root type that is an object type, has a plan. -/
theorem plan_of_passes (h : ∀ stage, r.failure? s stage = none) {root : String} {t : ObjectType}
    (hroot : r.rootType? s = some root) (ht : s.object? root = some t) :
    ∃ p, r.plan s = .ok p := by
  obtain ⟨d, o, root', hdoc, ho, hname, hsel, hroot'⟩ := exists_operation fun stage _ => h stage
  obtain rfl := Option.some.inj (hroot.symm.trans hroot')
  obtain ⟨vars, hvars⟩ := variableValues_of_passes hsel (h .coercion)
  refine ⟨⟨d, o, root, vars⟩, ?_⟩
  rw [plan_of_target hdoc (target_of_registered ho hname ht), hvars]
  rfl

/-! ## Runs -/

theorem run_of_refusal {f : Failure} (hf : f.Refusal) (h : r.plan s = .error f) :
    r.run s = ⟨[], .ok (.ofFailure f)⟩ := by
  unfold run runIn
  rw [h]
  cases f with
  | fault x => exact absurd rfl (hf.not_fault x)
  | _ => rfl

theorem run_of_fault {x : Fault} (h : r.plan s = .error (.fault x)) :
    r.run s = ⟨[], .error x⟩ := by
  unfold run runIn
  rw [h]

/-- A plan is answered with data, if it is answered. -/
theorem data?_of_plan {p : Plan} (hp : r.plan s = .ok p) {a : Response}
    (h : (r.run s).result = .ok a) : ∃ v, a.data? = some v := by
  obtain ⟨es, n, v, nulls, -, -, rfl⟩ := job_of_runIn hp h
  exact ⟨v, rfl⟩

/-! ## Dispositions -/

/-- What can become of a request. -/
inductive Disposition where
  | rejected
  | faulty
  | executed
deriving DecidableEq

/-- What a disposition says of the stages of a request and of its run. -/
def Disposed (s : Schema) (r : Request) : Disposition → Prop
  | .rejected => ∃ stage f, FirstFailure s r stage f ∧
      (r.run s).result = .ok ⟨none, f.toErrors⟩ ∧ f.toErrors ≠ [] ∧
      (∀ e ∈ f.toErrors, e.path? = none) ∧ ∀ call, .invoked call ∉ (r.run s).trace
  | .faulty => (∀ stage, stage.rank < Stage.coercion.rank → r.failure? s stage = none) ∧
      ∃ root, r.rootType? s = some root ∧ s.object? root = none ∧
        (r.run s).result = .error (.rootNotObject root) ∧ ∀ call, .invoked call ∉ (r.run s).trace
  | .executed => (∀ stage, r.failure? s stage = none) ∧
      (∃ root t, r.rootType? s = some root ∧ s.object? root = some t) ∧
      ((∃ v errors, (r.run s).result = .ok ⟨some v, errors⟩) ∨
        ∃ x, (r.run s).result = .error x)

theorem disposed_rejected {stage : Stage} {f : Failure} (h : FirstFailure s r stage f)
    (hroot : stage = .coercion → ∀ root, r.rootType? s = some root → s.object? root ≠ none) :
    Disposed s r .rejected := by
  have hrefusal := refusal_of_failure? h.fails
  have hrun := run_of_refusal hrefusal (plan_of_firstFailure h hroot)
  exact ⟨stage, f, h, by rw [hrun, Response.ofFailure], hrefusal.told,
    fun e => Failure.path?_of_mem_toErrors, by simp [hrun]⟩

theorem disposed_faulty (h : ∀ stage, stage.rank < Stage.coercion.rank →
    r.failure? s stage = none) {root : String} (hroot : r.rootType? s = some root)
    (hnone : s.object? root = none) : Disposed s r .faulty := by
  have hrun := run_of_fault (plan_of_unregistered h hroot hnone)
  exact ⟨h, root, hroot, hnone, by rw [hrun], by simp [hrun]⟩

theorem disposed_executed (h : ∀ stage, r.failure? s stage = none) {root : String}
    {t : ObjectType} (hroot : r.rootType? s = some root) (ht : s.object? root = some t) :
    Disposed s r .executed := by
  obtain ⟨p, hp⟩ := plan_of_passes h hroot ht
  refine ⟨h, ⟨root, t, hroot, ht⟩, ?_⟩
  cases hresult : (r.run s).result with
  | error x => exact .inr ⟨x, rfl⟩
  | ok a =>
    obtain ⟨v, hv⟩ := data?_of_plan hp hresult
    exact .inl ⟨v, a.errors, by rw [← hv]⟩

theorem exists_disposition (s : Schema) (r : Request) : ∃ d, Disposed s r d := by
  by_cases hpasses : ∀ stage, stage.rank < Stage.coercion.rank → r.failure? s stage = none
  · obtain ⟨-, o, root, -, -, -, -, hroot⟩ := exists_operation hpasses
    cases ht : s.object? root with
    | none => exact ⟨.faulty, disposed_faulty hpasses hroot ht⟩
    | some t =>
      cases hcoercion : r.failure? s .coercion with
      | none =>
        have hall : ∀ stage, r.failure? s stage = none := fun stage => by
          cases stage with
          | coercion => exact hcoercion
          | _ => exact hpasses _ (by decide)
        exact ⟨.executed, disposed_executed hall hroot ht⟩
      | some f =>
        refine ⟨.rejected, disposed_rejected ⟨hcoercion, hpasses⟩ fun _ root' hroot' => ?_⟩
        rw [← Option.some.inj (hroot.symm.trans hroot'), ht]
        exact Option.some_ne_none t
  · obtain ⟨stage, hstage⟩ := not_forall.1 hpasses
    obtain ⟨hlt, hfails⟩ := Classical.not_imp.1 hstage
    obtain ⟨f, hf⟩ := Option.ne_none_iff_exists'.1 hfails
    obtain ⟨first, f', hle, hfirst⟩ := exists_firstFailure hf
    refine ⟨.rejected, disposed_rejected hfirst fun heq => ?_⟩
    exact absurd (heq ▸ hle) (Nat.not_le.2 hlt)

theorem Disposed.unique {d d' : Disposition} (h : Disposed s r d) (h' : Disposed s r d') :
    d = d' := by
  have hrejected_faulty : Disposed s r .rejected → Disposed s r .faulty → False := by
    rintro ⟨_, _, -, hok, -⟩ ⟨-, _, -, -, herror, -⟩
    simp [hok] at herror
  have hrejected_executed : Disposed s r .rejected → Disposed s r .executed → False := by
    rintro ⟨stage, f, hfirst, -⟩ ⟨hpasses, -⟩
    exact Option.some_ne_none f (hfirst.fails.symm.trans (hpasses stage))
  have hfaulty_executed : Disposed s r .faulty → Disposed s r .executed → False := by
    rintro ⟨-, root, hroot, hnone, -⟩ ⟨-, ⟨root', t, hroot', ht⟩, -⟩
    obtain rfl := Option.some.inj (hroot.symm.trans hroot')
    simp [hnone] at ht
  cases d with
  | rejected =>
    cases d' with
    | rejected => rfl
    | faulty => exact (hrejected_faulty h h').elim
    | executed => exact (hrejected_executed h h').elim
  | faulty =>
    cases d' with
    | rejected => exact (hrejected_faulty h' h).elim
    | faulty => rfl
    | executed => exact (hfaulty_executed h h').elim
  | executed =>
    cases d' with
    | rejected => exact (hrejected_executed h' h).elim
    | faulty => exact (hfaulty_executed h' h).elim
    | executed => rfl

/-- Exactly one thing becomes of a request. It is rejected: some stage is the first to fail, the
response has the errors of that stage, none of them with a path, and no data. Or its root type
is no object type: that is a fault. Or every stage passes, and the response, if there is no
fault, has data. No resolver is called in the first two cases. -/
theorem existsUnique_disposition (s : Schema) (r : Request) : ∃! d, Disposed s r d := by
  obtain ⟨d, hd⟩ := exists_disposition s r
  exact ⟨d, hd, fun d' hd' => hd'.unique hd⟩

end Request

end GraphQL
