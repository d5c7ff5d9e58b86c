/-
GraphQL.Proofs.ScheduleIndependence — what a schedule cannot change.

A resolver whose outcome is a function of its call may still suspend, defer its
work and write to the log as often as it likes. `Resolvers.Computes ρ f` says that
every call of the table `ρ`, however it gets there, ends in the outcome that `f`
gives for it. Two tables that compute the same function differ in their schedules
only, and so do the parallel and the serial mode of an operation.

* `Request.runIn_schedule` — two such runs of a request answer alike: both fail, or
  both have the same data, key order and list order included, and the same errors
  up to order.
-/
import GraphQL.Proofs.TwoRuns

namespace GraphQL

/-! ## Schedules -/

/-- What every call of a table comes to: a function of the type, the field and the call. -/
abbrev Outcomes := String → String → ResolverCall → Outcome

/-- Every call of a table ends in the outcome that a function gives for it, however often
it suspends, defers its work or writes to the log. -/
def Resolvers.Computes (ρ : Resolvers) (f : Outcomes) : Prop :=
  ∀ type name call o, (ρ.resolver type name call).Ends o → o = f type name call

theorem Resolvers.Computes.agreeIn {ρ₁ ρ₂ : Resolvers} {f : Outcomes} (h₁ : ρ₁.Computes f)
    (h₂ : ρ₂.Computes f) (w : Veil) : ρ₁.AgreeIn w ρ₂ := by
  intro type name call o₁ o₂ _ ho₁ ho₂
  rw [h₁ type name call o₁ ho₁, h₂ type name call o₂ ho₂]

namespace Fetch

theorem ends_suspended {n : Nat} {f : Fetch} {o : Outcome} (h : (f.suspended n).Ends o) :
    f.Ends o := by
  induction n with
  | zero => exact h
  | succ n ih =>
    cases h with
    | suspend h => exact ih h

theorem ends_finish {o o' : Outcome} (h : (Fetch.finish o).Ends o') : o' = o := by
  cases h
  rfl

end Fetch

/-! ## Answers -/

/-- Two runs answer alike: both fail, or both have the same data and the same errors up to
order. -/
inductive SameAnswer : Except Fault Response → Except Fault Response → Prop
  | responses {a b : Response} (hdata : a.data? = b.data?) (herrors : a.errors.Perm b.errors) :
      SameAnswer (.ok a) (.ok b)
  | faults (f g : Fault) : SameAnswer (.error f) (.error g)

theorem SameAnswer.refl (r : Except Fault Response) : SameAnswer r r := by
  cases r with
  | ok a => exact .responses rfl (.refl a.errors)
  | error f => exact .faults f f

/-! ## Nothing out of view -/

namespace Node

mutual

/-- With everything in view nothing is pruned. -/
theorem prune_clear : ∀ n : Node, n.prune .clear = n
  | .leaf _ _ => rfl
  | .null _ _ => rfl
  | .object p children => by
    rw [prune, pruneChildren_clear children]
    rfl
  | .list p items => by
    rw [prune, pruneItems_clear items]
    rfl
  | .pending _ => rfl

theorem pruneChildren_clear : ∀ children : List (String × Node),
    pruneChildren .clear children = children
  | [] => rfl
  | (key, n) :: rest => by rw [pruneChildren, prune_clear n, pruneChildren_clear rest]

theorem pruneItems_clear : ∀ items : List Node, pruneItems .clear items = items
  | [] => rfl
  | n :: rest => by rw [pruneItems, prune_clear n, pruneItems_clear rest]

end

end Node

theorem Veil.errors_clear (es : List Event) :
    Veil.clear.errors es = (Event.errors es : Multiset _) := by
  have hshows : ∀ e ∈ Event.errors es, Veil.clear.shows e = true := by
    intro e _
    cases h : e.path? <;> simp [Veil.shows, Veil.clear, h]
  rw [Veil.errors, List.filter_eq_self.2 hshows]

/-! ## Runs -/

/-- Two runs of a plan that compute the same outcomes answer alike. -/
theorem Plan.sameAnswer {ρ₁ ρ₂ : Resolvers} {f : Outcomes} (h₁ : ρ₁.Computes f)
    (h₂ : ρ₂.Computes f) (p : Plan) (s : Schema) (source : Json) (data : RequestData)
    (mode₁ mode₂ : Mode) :
    SameAnswer (p.runIn mode₁ (s.withResolvers ρ₁) source data).result
      (p.runIn mode₂ (s.withResolvers ρ₂) source data).result := by
  unfold runIn
  rcases hrun₁ : (p.jobIn mode₁ (s.withResolvers ρ₁) source data).run 0 with ⟨es₁, r₁⟩
  rcases hrun₂ : (p.jobIn mode₂ (s.withResolvers ρ₂) source data).run 0 with ⟨es₂, r₂⟩
  have halike := p.alike_jobIn (h₁.agreeIn h₂ .clear) rfl s source data (Job.ends_of_run hrun₁)
    (Job.ends_of_run hrun₂)
  rw [Run.result_ofJob hrun₁, Run.result_ofJob hrun₂]
  cases r₁ with
  | ok n₁ =>
    cases r₂ with
    | ok n₂ =>
      obtain ⟨hn, hes⟩ := halike
      rw [Node.prune_clear, Node.prune_clear] at hn
      subst hn
      rw [Veil.errors_clear, Veil.errors_clear, Multiset.coe_eq_coe] at hes
      cases hdata : n₁.toData with
      | error fault =>
        simp only [Except.bind, Except.map, hdata]
        exact .faults fault fault
      | ok x =>
        simp only [Except.bind, Except.map, hdata]
        exact .responses rfl (hes.append_right x.2)
    | error fault =>
      obtain ⟨a, ha⟩ := halike
      exact absurd ha Bool.false_ne_true
  | error fault =>
    cases r₂ with
    | ok n₂ =>
      obtain ⟨a, ha⟩ := halike
      exact absurd ha Bool.false_ne_true
    | error fault' => exact .faults fault fault'

/-- Two runs of a request whose resolvers compute the same outcomes answer alike, whatever
their schedules and modes. The validator must give both schemas the same verdict; the
default one looks at no resolver. -/
theorem Request.runIn_schedule {s : Schema} {ρ₁ ρ₂ : Resolvers} {f : Outcomes}
    (h₁ : ρ₁.Computes f) (h₂ : ρ₂.Computes f) {r : Request}
    (hv : ∀ d, r.validator (s.withResolvers ρ₁) d = r.validator (s.withResolvers ρ₂) d)
    (mode₁ mode₂ : Plan → Mode) :
    SameAnswer (r.runIn mode₁ (s.withResolvers ρ₁)).result
      (r.runIn mode₂ (s.withResolvers ρ₂)).result := by
  rw [runIn, runIn, plan_withResolvers hv]
  cases hplan : r.plan (s.withResolvers ρ₂) with
  | ok p => exact p.sameAnswer h₁ h₂ s r.rootValue r.data (mode₁ p) (mode₂ p)
  | error failure =>
    cases failure with
    | fault f => exact .faults f f
    | _ => exact .refl _

/-- A query type with two fields. -/
def pairSchema : Schema :=
  (Schema.ofQueryType "Query").register (.object ⟨"Query",
    .ofList [⟨"left", .empty, .named "Int", none⟩, ⟨"right", .empty, .named "Int", none⟩], []⟩)

def pairRequest : Request := .ofText "{ left right }"

/-- One field fails, the other has a value and an error. -/
def pairOutcome : Outcomes := fun _ name _ =>
  if name = "left" then .failure (.ofMessage "left")
  else .partialValue (.int 1) [.ofMessage "right"]

/-- Resolvers that answer at once. -/
def promptly : Resolvers := fun type name => some (.pure (pairOutcome type name))

/-- Resolvers of which one keeps the other waiting. -/
def belatedly : Resolvers := fun type name =>
  some (.suspended (if name = "left" then 2 else 0) (.deferred (.pure (pairOutcome type name))))

theorem Request.runIn_schedule_demo :
    promptly.Computes pairOutcome ∧ belatedly.Computes pairOutcome ∧
      (∀ d, pairRequest.validator (pairSchema.withResolvers promptly) d =
        pairRequest.validator (pairSchema.withResolvers belatedly) d) ∧
      SameAnswer (pairRequest.runIn (fun _ => .serial) (pairSchema.withResolvers promptly)).result
        (pairRequest.runIn Plan.mode (pairSchema.withResolvers belatedly)).result := by
  have h₁ : promptly.Computes pairOutcome := by
    intro type name call o h
    exact Fetch.ends_finish h
  have h₂ : belatedly.Computes pairOutcome := by
    intro type name call o h
    cases Fetch.ends_suspended h with
    | defer h => exact Fetch.ends_finish h
  have hvalidator : pairRequest.validator = Validation.findings := rfl
  have hv : ∀ d, pairRequest.validator (pairSchema.withResolvers promptly) d =
      pairRequest.validator (pairSchema.withResolvers belatedly) d := by
    intro d
    rw [hvalidator, Validation.findings_withResolvers, Validation.findings_withResolvers]
  exact ⟨h₁, h₂, hv, Request.runIn_schedule h₁ h₂ hv (fun _ => .serial) Plan.mode⟩

-- the order of the errors does depend on the schedule
example :
    (pairRequest.run (pairSchema.withResolvers promptly)).errors.map (·.message) =
      ["left", "right"] ∧
    (pairRequest.run (pairSchema.withResolvers belatedly)).errors.map (·.message) =
      ["right", "left"] := by
  decide +kernel

end GraphQL
