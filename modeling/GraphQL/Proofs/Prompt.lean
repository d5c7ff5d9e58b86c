/-
GraphQL.Proofs.Prompt — work that never waits.

A fetch that never suspends is over in the round in which it starts. Where all
fetches are of this kind no job gets a turn before the one before it has ended, and
the joins, which differ in what they do with turns and with faults, all come to
doing one job after the other.

* `Job.both_of_prompt`, `Job.bothOk_of_prompt` — taking turns with a job that never
  waits is going on after it.
* `Job.pass` — what a job comes to when nobody else has a turn: the errors it raises,
  its value and the length of the log after it; nothing if it meets a fault.
* `Job.pass_inOrder`, `Job.pass_allOk`, `Job.pass_all` — the three joins come to the
  same, `Pass.gather`.
* `Environment.prompt_objectJob` — if no resolver suspends, no job of an execution
  does.
-/
import GraphQL.Proofs.Steps

namespace GraphQL

/-! ## Fetches -/

namespace Fetch

/-- A fetch that never waits for a later round. -/
inductive Prompt : Fetch → Prop
  | finish (o : Outcome) : Prompt (.finish o)
  | defer {work : Fetch} (h : Prompt work) : Prompt (.defer work)
  | log {entry : String} {next : Nat → Fetch} (h : ∀ n, Prompt (next n)) :
      Prompt (.log entry next)

/-- The outcome of a fetch that has `n` log entries before it, and the number of log
entries after it. -/
def outcomeFrom : Fetch → Nat → Outcome × Nat
  | .finish o, n => (o, n)
  | .defer work, n => work.outcomeFrom n
  | .suspend next, n => next.outcomeFrom n
  | .log _ next, n => (next (n + 1)).outcomeFrom (n + 1)

/-- The job of a fetch ends in its outcome and leaves the log as the fetch does. -/
theorem run_job (f : Fetch) (path : Path) (n : Nat) :
    (((f.job path).run n).2, n + Job.logSize ((f.job path).run n).1) = f.outcomeFrom n := by
  induction f generalizing n with
  | finish o => rfl
  | defer work ih => exact ih n
  | suspend next ih =>
    have hgrowth : Job.logGrowth (.resumed path) = 0 := rfl
    simp only [job, Job.run, outcomeFrom, hgrowth, Nat.add_zero, Job.logSize_cons,
      Nat.zero_add]
    exact ih n
  | log entry next ih =>
    have hgrowth : Job.logGrowth (.logged entry) = 1 := rfl
    simp only [job, Job.run, outcomeFrom, hgrowth, Job.logSize_cons, ← Nat.add_assoc]
    exact ih (n + 1) (n + 1)

end Fetch

/-! ## Jobs -/

namespace Job

variable {α β ε : Type}

/-- A job that never waits for a later round. -/
inductive Prompt : Job α → Prop
  | done (a : α) : Prompt (.done a)
  | emit {e : Event} {k : Nat → Job α} (h : ∀ n, Prompt (k n)) : Prompt (.emit e k)

namespace Prompt

theorem map {j : Job α} (h : j.Prompt) (f : α → β) : (j.map f).Prompt := by
  induction h with
  | done a => exact .done (f a)
  | emit _ ih => exact .emit ih

theorem bind {j : Job α} (h : j.Prompt) {f : α → Job β} (hf : ∀ a, (f a).Prompt) :
    (j.bind f).Prompt := by
  induction h with
  | done a => exact hf a
  | emit _ ih => exact .emit ih

theorem raiseAll {j : Job α} (h : j.Prompt) (errors : List ResponseError) :
    (raiseAll errors j).Prompt := by
  induction errors with
  | nil => exact h
  | cons e errors ih => exact .emit fun _ => ih

end Prompt

/-! ## Joins of prompt jobs -/

/-- The turns of two jobs of which the left one never waits. -/
theorem both_of_prompt {left : Job α} (h : left.Prompt) (right : Job β) :
    both left right = left.bind fun a => right.map (a, ·) := by
  induction h with
  | done a => rfl
  | emit _ ih =>
    simp only [both, bind]
    congr 1
    funext n
    exact ih n

/-- Of two jobs that stop at a failure, where the left one never waits. -/
theorem bothOk_of_prompt {left : Job (Except ε α)} (h : left.Prompt)
    (right : Job (Except ε β)) :
    bothOk left right = left.bind fun
      | .error e => .done (.error e)
      | .ok a => right.map fun r => r.map (a, ·) := by
  induction h with
  | done r => cases r <;> rfl
  | emit _ ih =>
    simp only [bothOk, bind]
    congr 1
    funext n
    exact ih n

namespace Prompt

theorem all {js : List (Job α)} (h : ∀ j ∈ js, j.Prompt) : (all js).Prompt := by
  induction js with
  | nil => exact .done []
  | cons j js ih =>
    have hj : j.Prompt := h j List.mem_cons_self
    have hjs : (Job.all js).Prompt := ih fun j' hj' => h j' (List.mem_cons_of_mem j hj')
    rw [Job.all, both_of_prompt hj]
    exact (hj.bind fun a => hjs.map _).map _

theorem inOrder {js : List (Job (Except ε α))} (h : ∀ j ∈ js, j.Prompt) :
    (inOrder js).Prompt := by
  induction js with
  | nil => exact .done (Except.ok [])
  | cons j js ih =>
    have hj : j.Prompt := h j List.mem_cons_self
    have hjs : (Job.inOrder js).Prompt := ih fun j' hj' => h j' (List.mem_cons_of_mem j hj')
    rw [Job.inOrder]
    refine hj.bind fun r => ?_
    cases r with
    | error e => exact .done _
    | ok a => exact hjs.map _

theorem allOk {js : List (Job (Except ε α))} (h : ∀ j ∈ js, j.Prompt) : (allOk js).Prompt := by
  induction js with
  | nil => exact .done (Except.ok [])
  | cons j js ih =>
    have hj : j.Prompt := h j List.mem_cons_self
    have hjs : (Job.allOk js).Prompt := ih fun j' hj' => h j' (List.mem_cons_of_mem j hj')
    rw [Job.allOk, bothOk_of_prompt hj]
    refine (hj.bind fun r => ?_).map _
    cases r with
    | error e => exact .done _
    | ok a => exact hjs.map _

end Prompt

end Job

theorem Fetch.Prompt.job {f : Fetch} (h : f.Prompt) (path : Path) : (f.job path).Prompt := by
  induction h with
  | finish o => exact .done o
  | defer _ ih => exact ih
  | log _ ih => exact .emit ih

/-! ## Passes -/

theorem Job.logSize_append (es fs : List Event) :
    logSize (es ++ fs) = logSize es + logSize fs := by
  simp [logSize]

/-- Work without rounds. It takes on the length of the log and passes it on; a fault
leaves nothing. -/
abbrev Pass := StateT Nat Option

/-- Passes one after the other: their errors in order, and their values. -/
def Pass.gather {α : Type} (xs : List (Pass (List ResponseError × α))) :
    Pass (List ResponseError × List α) :=
  (fun as => (as.flatMap Prod.fst, as.map Prod.snd)) <$> xs.mapM id

theorem Pass.gather_cons {α : Type} (x : Pass (List ResponseError × α))
    (xs : List (Pass (List ResponseError × α))) :
    gather (x :: xs) =
      x >>= fun a => gather xs >>= fun as => pure (a.1 ++ as.1, a.2 :: as.2) := by
  simp [gather, List.mapM_cons]

namespace Job

variable {α β : Type}

/-- What a job comes to that has every turn to itself. -/
def pass (j : Job (Except Fault α)) : Pass (List ResponseError × α) := fun n =>
  match (j.run n).2 with
  | .ok a => some ((Event.errors (j.run n).1, a), n + logSize (j.run n).1)
  | .error _ => none

variable {j : Job (Except Fault α)} {js : List (Job (Except Fault α))} {n : Nat}

theorem pass_of_ok {es : List Event} {a : α} (h : j.run n = (es, .ok a)) :
    j.pass.run n = some ((Event.errors es, a), n + logSize es) := by
  simp only [StateT.run, pass, h]

theorem pass_of_error {es : List Event} {f : Fault} (h : j.run n = (es, .error f)) :
    j.pass.run n = none := by
  simp only [StateT.run, pass, h]

/-- Mapping the value of a job maps the value of its pass. -/
theorem pass_map (f : α → β) (j : Job (Except Fault α)) :
    (j.map fun r => r.map f).pass = (fun x => (x.1, f x.2)) <$> j.pass := by
  funext n
  change (j.map fun r => r.map f).pass.run n = ((fun x => (x.1, f x.2)) <$> j.pass).run n
  rw [StateT.run_map]
  rcases hrun : j.run n with ⟨es, r⟩
  have hmap : (j.map fun r => r.map f).run n = (es, r.map f) := by rw [run_map, hrun]
  cases r with
  | error e => rw [pass_of_error hmap, pass_of_error hrun]; rfl
  | ok a => rw [pass_of_ok hmap, pass_of_ok hrun]; rfl

/-- A job and what follows it: the errors of both in order. -/
theorem pass_bind (j : Job β) (f : β → Job (Except Fault α)) (n : Nat) :
    (j.bind f).pass.run n =
      ((f (j.run n).2).pass.run (n + logSize (j.run n).1)).map fun x =>
        ((Event.errors (j.run n).1 ++ x.1.1, x.1.2), x.2) := by
  rcases hj : j.run n with ⟨es, b⟩
  rcases hf : (f b).run (n + logSize es) with ⟨fs, r⟩
  have hall : (j.bind f).run n = (es ++ fs, r) := by rw [run_bind, hj, hf]
  cases r with
  | error e => rw [pass_of_error hall, pass_of_error hf]; rfl
  | ok a =>
    rw [pass_of_ok hall, pass_of_ok hf, Event.errors_append, logSize_append, ← Nat.add_assoc]
    rfl

/-- Errors raised in advance come first. -/
theorem pass_raiseAll (errors : List ResponseError) (j : Job (Except Fault α)) :
    (raiseAll errors j).pass = (fun x => (errors ++ x.1, x.2)) <$> j.pass := by
  funext n
  change (raiseAll errors j).pass.run n = ((fun x => (errors ++ x.1, x.2)) <$> j.pass).run n
  rw [StateT.run_map]
  have hsize : logSize (errors.map .raised) = 0 := by
    induction errors with
    | nil => rfl
    | cons e errors ih => rw [List.map_cons, logSize_cons, ih]; rfl
  rcases hj : j.run n with ⟨es, r⟩
  have hall : (raiseAll errors j).run n = (errors.map .raised ++ es, r) := by
    rw [raiseAll, run_emitAll, hsize, Nat.add_zero, hj]
  cases r with
  | error e => rw [pass_of_error hall, pass_of_error hj]; rfl
  | ok a =>
    rw [pass_of_ok hall, pass_of_ok hj, Event.errors_append, Event.errors_raised,
      logSize_append, hsize, Nat.zero_add]
    rfl

/-- Jobs run in order come to their passes in order. -/
theorem pass_inOrder (js : List (Job (Except Fault α))) :
    (inOrder js).pass = Pass.gather (js.map pass) := by
  induction js with
  | nil => rfl
  | cons j js ih =>
    funext n
    change (inOrder (j :: js)).pass.run n = (Pass.gather (j.pass :: js.map pass)).run n
    rw [Pass.gather_cons, ← ih, StateT.run_bind]
    rcases hrun : j.run n with ⟨es, r⟩
    cases r with
    | error e =>
      have hall : (inOrder (j :: js)).run n = (es, .error e) := by
        simp [inOrder, run_bind, hrun, run]
      rw [pass_of_error hall, pass_of_error hrun]
      rfl
    | ok a =>
      rw [pass_of_ok hrun]
      rcases hrest : (inOrder js).run (n + logSize es) with ⟨fs, rs⟩
      have hall : (inOrder (j :: js)).run n = (es ++ fs, rs.map (a :: ·)) := by
        simp [inOrder, run_bind, hrun, hrest]
      cases rs with
      | error e =>
        rw [pass_of_error hall]
        simp [pass_of_error hrest]
      | ok as =>
        rw [pass_of_ok hall]
        simp [pass_of_ok hrest, logSize_append, Nat.add_assoc]

/-- Of jobs that never wait, those taking turns until one fails run as those in order. -/
theorem run_allOk_of_prompt (h : ∀ j ∈ js, j.Prompt) (n : Nat) :
    (allOk js).run n = (inOrder js).run n := by
  induction js generalizing n with
  | nil => rfl
  | cons j js ih =>
    have hj : j.Prompt := h j List.mem_cons_self
    have hjs : ∀ m, (allOk js).run m = (inOrder js).run m :=
      ih fun j' hj' => h j' (List.mem_cons_of_mem j hj')
    rw [allOk, bothOk_of_prompt hj, run_map, run_bind, inOrder, run_bind]
    rcases j.run n with ⟨es, r⟩
    cases r with
    | error e => rfl
    | ok a =>
      simp only [run_map, hjs]
      rcases (inOrder js).run (n + logSize es) with ⟨fs, rs⟩
      cases rs <;> rfl

/-- Jobs taking turns until one fails come to their passes in order, if none waits. -/
theorem pass_allOk (h : ∀ j ∈ js, j.Prompt) : (allOk js).pass = Pass.gather (js.map pass) := by
  rw [← pass_inOrder]
  funext n
  simp only [pass, run_allOk_of_prompt h]

/-- Jobs taking turns come to their passes in order, if none waits. -/
theorem pass_all (h : ∀ j ∈ js, j.Prompt) :
    ((all js).map Environment.firstFault).pass = Pass.gather (js.map pass) := by
  induction js with
  | nil => rfl
  | cons j js ih =>
    have hj : j.Prompt := h j List.mem_cons_self
    have hjs := ih fun j' hj' => h j' (List.mem_cons_of_mem j hj')
    funext n
    change ((all (j :: js)).map Environment.firstFault).pass.run n =
      (Pass.gather (j.pass :: js.map pass)).run n
    rw [Pass.gather_cons, ← hjs, StateT.run_bind]
    rcases hrun : j.run n with ⟨es, r⟩
    rcases hrest : (all js).run (n + logSize es) with ⟨fs, rs⟩
    have hall : ((all (j :: js)).map Environment.firstFault).run n =
        (es ++ fs, Environment.firstFault (r :: rs)) := by
      simp [all, both_of_prompt hj, run_bind, hrun, hrest]
    have hothers : ((all js).map Environment.firstFault).run (n + logSize es) =
        (fs, Environment.firstFault rs) := by
      rw [run_map, hrest]
    cases r with
    | error e =>
      rw [pass_of_error hall, pass_of_error hrun]
      rfl
    | ok a =>
      rw [pass_of_ok hrun]
      have hcons : Environment.firstFault (.ok a :: rs) =
          (Environment.firstFault rs).map (a :: ·) := by
        simp only [Environment.firstFault, List.mapM_cons]
        cases rs.mapM id <;> rfl
      cases hrs : Environment.firstFault rs with
      | error e =>
        rw [hcons, hrs] at hall
        rw [hrs] at hothers
        rw [pass_of_error hall]
        simp [pass_of_error hothers]
      | ok as =>
        rw [hcons, hrs] at hall
        rw [hrs] at hothers
        rw [pass_of_ok hall]
        simp [pass_of_ok hothers, logSize_append, Nat.add_assoc]

end Job

/-! ## Executions without waiting -/

/-- No resolver of the schema suspends. -/
def Schema.Prompt (s : Schema) : Prop :=
  ∀ type name d, s.field? type name = some d → ∀ call, (d.resolver call).Prompt

namespace Environment

variable {env : Environment} {descend : SubSelection → NodeJob}

theorem prompt_fetchField {d : FieldDefinition} (hd : ∀ call, (d.resolver call).Prompt)
    (source : Json) (p : Place) : (env.fetchField source d p).Prompt := by
  unfold fetchField
  split
  · exact .done _
  · split
    · exact .done _
    · exact .emit fun _ => ((hd _).job p.path).map _

mutual

theorem prompt_resolvePending (h : ∀ sub, (descend sub).Prompt) :
    ∀ n, (resolvePending descend n).Prompt
  | .pending sub => by
    rw [resolvePending]
    exact h sub
  | .list p items => by
    rw [resolvePending]
    exact (Job.Prompt.allOk (prompt_resolvePendingItems h items)).map _
  | .leaf p v => by
    rw [resolvePending]
    exact .done _
  | .null p reported => by
    rw [resolvePending]
    exact .done _
  | .object p children => by
    rw [resolvePending]
    exact .done _

theorem prompt_resolvePendingItems (h : ∀ sub, (descend sub).Prompt) :
    ∀ ns, ∀ j ∈ resolvePendingItems descend ns, j.Prompt
  | [] => by simp [resolvePendingItems]
  | n :: ns => by
    rw [resolvePendingItems]
    intro j hj
    rcases List.mem_cons.1 hj with rfl | hj
    · exact prompt_resolvePending h n
    · exact prompt_resolvePendingItems h ns j hj

end

theorem prompt_fieldJob (hs : env.schema.Prompt) (h : ∀ sub, (descend sub).Prompt)
    (source : Json) (parent : Place) (g : FieldGroup) :
    (env.fieldJob descend source parent g).Prompt := by
  unfold fieldJob
  split
  · exact .done _
  · split
    · exact .done _
    · split
      · exact .done _
      · next object _ _ d hd =>
        refine (prompt_fetchField (hs _ _ d hd) source _).bind fun x => .raiseAll ?_ _
        split
        · exact .done _
        · next n _ => exact (prompt_resolvePending h n).map _

/-- No job of an execution waits if no resolver does. -/
theorem prompt_objectJob (hs : env.schema.Prompt) (levels : Nat) (mode : Mode)
    (sub : SubSelection) : (env.objectJob levels mode sub).Prompt := by
  induction levels generalizing mode sub with
  | zero => exact .done _
  | succ levels ih =>
    have hfields : ∀ j ∈ sub.groups.map
        (env.fieldJob (env.objectJob levels .parallel) sub.source sub.place), j.Prompt := by
      intro j hj
      obtain ⟨g, _, rfl⟩ := List.mem_map.1 hj
      exact prompt_fieldJob hs (fun sub => ih .parallel sub) sub.source sub.place g
    unfold objectJob
    cases mode with
    | parallel => exact ((Job.Prompt.all hfields).map _).map _
    | serial => exact (Job.Prompt.inOrder hfields).map _

end Environment

end GraphQL
