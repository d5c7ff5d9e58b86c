/-
GraphQL.Execution.Job — cooperative work and the order in which it happens.

A `Job` is work that emits events, suspends some times and ends in a value. Jobs
run in rounds on one thread: in a round a job goes on until it suspends or ends.
`Job.both` gives two jobs their turns in order, round after round, and ends in
the round in which the last of them does; `Job.all` does so for a list, and
`Job.allOk` stops everything at the first failure. `Job.inOrder` does not start
a job before the one before it has ended.

Nothing here depends on time: the trace of a job is a function of the job. What
one part of a request can see of another is the number of log entries so far,
which an emitting job is told.

`run_map` and `run_bind` give the trace of a job from the traces of its parts:
mapping adds no event, and of two jobs in sequence the second starts with the log
as the first leaves it.
-/
import GraphQL.Failure
import GraphQL.Resolver

namespace GraphQL

/-- What happens during an execution. -/
inductive Event where
  /-- A resolver is called. -/
  | invoked (call : ResolverCall)
  /-- Suspended work of the field at a path goes on. -/
  | resumed (path : Path)
  /-- A resolver writes to the log. -/
  | logged (entry : String)
  /-- An error is added to the response. -/
  | raised (error : ResponseError)
deriving DecidableEq

namespace Event

/-- The error of an event that raises one. -/
def error? : Event → Option ResponseError
  | .raised e => some e
  | _ => none

/-- The log entry of an event that writes one. -/
def entry? : Event → Option String
  | .logged s => some s
  | _ => none

end Event

/-- Work that emits events, may suspend, and ends in a value. -/
inductive Job (α : Type) where
  | done (value : α)
  /-- Emit an event; the rest is told the length of the log after it. -/
  | emit (event : Event) (next : Nat → Job α)
  /-- Go on in the next round. -/
  | suspend (next : Job α)

namespace Job

variable {α β ε : Type}

/-! ## Running -/

/-- The log entries that an event adds. -/
def logGrowth (e : Event) : Nat := if e.entry?.isSome then 1 else 0

/-- The events of a job in order and its value; `n` log entries are there already. -/
def run : Job α → Nat → List Event × α
  | .done a, _ => ([], a)
  | .emit e k, n =>
    let n' := n + logGrowth e
    let r := (k n').run n'
    (e :: r.1, r.2)
  | .suspend j, n => j.run n

/-! ## One after the other -/

/-- Apply a function to the value of a job. -/
def map (f : α → β) : Job α → Job β
  | .done a => .done (f a)
  | .emit e k => .emit e fun n => (k n).map f
  | .suspend j => .suspend (j.map f)

/-- Go on with a job that depends on the value of this one, in the same round. -/
def bind : Job α → (α → Job β) → Job β
  | .done a, f => f a
  | .emit e k, f => .emit e fun n => (k n).bind f
  | .suspend j, f => .suspend (j.bind f)

/-- Emit events, then go on. -/
def emitAll (es : List Event) (j : Job α) : Job α :=
  es.foldr (fun e j => .emit e fun _ => j) j

/-- Raise errors, then go on. -/
def raiseAll (errors : List ResponseError) (j : Job α) : Job α :=
  emitAll (errors.map .raised) j

/-- Run jobs one after the other until one fails. -/
def inOrder : List (Job (Except ε α)) → Job (Except ε (List α))
  | [] => .done (.ok [])
  | j :: js =>
    j.bind fun
      | .error e => .done (.error e)
      | .ok a => (inOrder js).map fun r => r.map (a :: ·)

/-! ## Taking turns -/

/-- The turn of the right job after the left one has suspended; `resume` takes
both to the next round. -/
def afterLeft (left : Job α) (resume : Job β → Job (α × β)) : Job β → Job (α × β)
  | .done b => .suspend (left.map (·, b))
  | .emit e k => .emit e fun n => afterLeft left resume (k n)
  | .suspend right => .suspend (resume right)

/-- Two jobs taking turns, the left one first. -/
def both : Job α → Job β → Job (α × β)
  | .done a, right => right.map (a, ·)
  | .emit e k, right => .emit e fun n => both (k n) right
  | .suspend left, right => afterLeft left (both left) right

/-- Jobs taking turns in order. -/
def all : List (Job α) → Job (List α)
  | [] => .done []
  | j :: js => (both j (all js)).map fun r => r.1 :: r.2

/-- The turn of the right job after the left one has suspended; its failure ends both. -/
def afterLeftOk (left : Job (Except ε α))
    (resume : Job (Except ε β) → Job (Except ε (α × β))) :
    Job (Except ε β) → Job (Except ε (α × β))
  | .done (.error e) => .done (.error e)
  | .done (.ok b) => .suspend (left.map fun r => r.map (·, b))
  | .emit e k => .emit e fun n => afterLeftOk left resume (k n)
  | .suspend right => .suspend (resume right)

/-- Two jobs taking turns until one fails. -/
def bothOk : Job (Except ε α) → Job (Except ε β) → Job (Except ε (α × β))
  | .done (.error e), _ => .done (.error e)
  | .done (.ok a), right => right.map fun r => r.map (a, ·)
  | .emit e k, right => .emit e fun n => bothOk (k n) right
  | .suspend left, right => afterLeftOk left (bothOk left) right

/-- Jobs taking turns in order until one fails. -/
def allOk : List (Job (Except ε α)) → Job (Except ε (List α))
  | [] => .done (.ok [])
  | j :: js => (bothOk j (allOk js)).map fun r => r.map fun p => p.1 :: p.2

/-! ## Values of joined jobs -/

/-- Mapping changes the value and no event. -/
@[simp] theorem run_map (f : α → β) (j : Job α) (n : Nat) :
    (j.map f).run n = ((j.run n).1, f (j.run n).2) := by
  induction j generalizing n with
  | done a => rfl
  | emit e k ih => simp only [map, run, ih]
  | suspend j ih => simp only [map, run, ih]

/-! ## Traces -/

/-- The log entries that some events add. -/
def logSize (es : List Event) : Nat := (es.filterMap Event.entry?).length

@[simp] theorem logSize_nil : logSize [] = 0 := rfl

@[simp] theorem logSize_cons (e : Event) (es : List Event) :
    logSize (e :: es) = logGrowth e + logSize es := by
  cases e <;> simp [logSize, logGrowth, List.filterMap_cons, Event.entry?, Nat.add_comm]

/-- A job and what follows it: the events of both in order, the second knowing
the log as the first leaves it. -/
theorem run_bind (j : Job α) (f : α → Job β) (n : Nat) :
    (j.bind f).run n =
      ((j.run n).1 ++ ((f (j.run n).2).run (n + logSize (j.run n).1)).1,
        ((f (j.run n).2).run (n + logSize (j.run n).1)).2) := by
  induction j generalizing n with
  | done a => simp [bind, run]
  | emit e k ih => simp [bind, run, ih, Nat.add_assoc]
  | suspend j ih => simp only [bind, run, ih]

/-- Emitted events come first. -/
theorem run_emitAll (es : List Event) (j : Job α) (n : Nat) :
    (emitAll es j).run n = (es ++ (j.run (n + logSize es)).1, (j.run (n + logSize es)).2) := by
  induction es generalizing n with
  | nil => simp [emitAll]
  | cons e es ih =>
    have h : emitAll (e :: es) j = .emit e fun _ => emitAll es j := rfl
    rw [h]
    simp [run, ih, Nat.add_assoc]

end Job

end GraphQL
