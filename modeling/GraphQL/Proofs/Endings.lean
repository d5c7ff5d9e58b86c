/-
GraphQL.Proofs.Endings — every way in which a job can end.

`Job.run` takes one schedule: the joins give turns in order, and an emitting job
is told how long the log really is. A statement about a part of a job cannot know
either, since its siblings write to the log between its own events. `Job.Ends`
therefore lets the answers to a job's emissions be any numbers: `j.Ends es a`
says that `j` can end in `a` having emitted `es`.

* `Job.ends_run` — what a job does when it is run is one of its endings.
* `Job.ends_map`, `Job.ends_bind`, `Job.ends_raiseAll` — the endings of jobs in
  sequence, from those of their parts.
* `Job.joined_all`, `Job.joined_inOrder`, `Job.joined_allOk` — the three joins
  have one rule, `Job.Joined`: either every job has ended in a value, the values
  are in the order of the jobs and the events are some interleaving of theirs, or
  one of the jobs has failed. Whatever holds of a level by this rule does not
  depend on how its fields took turns.
* `Fetch.ends_of_job` — what a fetch does as a job is an ending of the fetch, and
  no error is raised on the way.
-/
import Mathlib.Data.Multiset.Filter
import GraphQL.Execution.Fetching

namespace GraphQL

/-! ## Interleavings -/

/-- The third list merges the first two, each in its own order. -/
inductive Interleaves {α : Type} : List α → List α → List α → Prop
  | nil : Interleaves [] [] []
  | left {x : α} {l r m : List α} (h : Interleaves l r m) : Interleaves (x :: l) r (x :: m)
  | right {x : α} {l r m : List α} (h : Interleaves l r m) : Interleaves l (x :: r) (x :: m)

namespace Interleaves

variable {α : Type}

theorem left_nil (l : List α) : Interleaves l [] l := by
  induction l with
  | nil => exact .nil
  | cons x l ih => exact .left ih

theorem nil_right (r : List α) : Interleaves [] r r := by
  induction r with
  | nil => exact .nil
  | cons x r ih => exact .right ih

/-- One list after the other is an interleaving. -/
theorem append (l r : List α) : Interleaves l r (l ++ r) := by
  induction l with
  | nil => exact nil_right r
  | cons x l ih => exact .left ih

/-- An interleaving has the elements of both lists. -/
theorem perm {l r m : List α} (h : Interleaves l r m) : m.Perm (l ++ r) := by
  induction h with
  | nil => exact .refl _
  | @left x l r m _ ih => exact ih.cons x
  | @right x l r m _ ih => exact (ih.cons x).trans List.perm_middle.symm

theorem mem_iff {l r m : List α} (h : Interleaves l r m) {x : α} : x ∈ m ↔ x ∈ l ∨ x ∈ r := by
  rw [h.perm.mem_iff, List.mem_append]

end Interleaves

namespace Job

variable {α β ε : Type}

/-! ## Endings -/

/-- A job can end in a value after some events, whatever it is told about the
length of the log on the way. -/
inductive Ends : Job α → List Event → α → Prop
  | done (a : α) : Ends (.done a) [] a
  | emit {e : Event} {k : Nat → Job α} {es : List Event} {a : α} (n : Nat)
      (h : Ends (k n) es a) : Ends (.emit e k) (e :: es) a
  | suspend {j : Job α} {es : List Event} {a : α} (h : Ends j es a) : Ends (.suspend j) es a

/-- What a job does when it is run is one of its endings. -/
theorem ends_run (j : Job α) (n : Nat) : j.Ends (j.run n).1 (j.run n).2 := by
  induction j generalizing n with
  | done a => exact .done a
  | emit e k ih => exact .emit _ (ih _ _)
  | suspend j ih => exact .suspend (ih n)

theorem ends_done {a b : α} {es : List Event} (h : (Job.done a).Ends es b) :
    es = [] ∧ b = a := by
  cases h
  exact ⟨rfl, rfl⟩

/-! ## Jobs in sequence -/

/-- A mapped job ends as the job does, in the mapped value. -/
theorem ends_map {f : α → β} {j : Job α} {es : List Event} {b : β} (h : (j.map f).Ends es b) :
    ∃ a, j.Ends es a ∧ b = f a := by
  induction j generalizing es with
  | done a =>
    obtain ⟨rfl, rfl⟩ := ends_done h
    exact ⟨a, .done a, rfl⟩
  | emit e k ih =>
    cases h with
    | emit n h =>
      obtain ⟨a, ha, hb⟩ := ih n h
      exact ⟨a, .emit n ha, hb⟩
  | suspend j ih =>
    cases h with
    | suspend h =>
      obtain ⟨a, ha, hb⟩ := ih h
      exact ⟨a, .suspend ha, hb⟩

/-- Two jobs in sequence: the events of the first, then those of the second. -/
theorem ends_bind {j : Job α} {f : α → Job β} {es : List Event} {b : β}
    (h : (j.bind f).Ends es b) :
    ∃ es₁ a es₂, j.Ends es₁ a ∧ (f a).Ends es₂ b ∧ es = es₁ ++ es₂ := by
  induction j generalizing es with
  | done a => exact ⟨[], a, es, .done a, h, rfl⟩
  | emit e k ih =>
    cases h with
    | emit n h =>
      obtain ⟨es₁, a, es₂, h₁, h₂, rfl⟩ := ih n h
      exact ⟨e :: es₁, a, es₂, .emit n h₁, h₂, rfl⟩
  | suspend j ih =>
    cases h with
    | suspend h =>
      obtain ⟨es₁, a, es₂, h₁, h₂, rfl⟩ := ih h
      exact ⟨es₁, a, es₂, .suspend h₁, h₂, rfl⟩

/-- Events emitted in advance come first. -/
theorem ends_emitAll {before : List Event} {j : Job α} {es : List Event} {a : α}
    (h : (emitAll before j).Ends es a) : ∃ es', j.Ends es' a ∧ es = before ++ es' := by
  induction before generalizing es with
  | nil => exact ⟨es, h, rfl⟩
  | cons e before ih =>
    have hcons : emitAll (e :: before) j = .emit e fun _ => emitAll before j := rfl
    rw [hcons] at h
    cases h with
    | emit n h =>
      obtain ⟨es', h', rfl⟩ := ih h
      exact ⟨es', h', rfl⟩

/-- Errors raised in advance come first. -/
theorem ends_raiseAll {errors : List ResponseError} {j : Job α} {es : List Event} {a : α}
    (h : (raiseAll errors j).Ends es a) :
    ∃ es', j.Ends es' a ∧ es = errors.map .raised ++ es' :=
  ends_emitAll h

/-! ## Two jobs taking turns -/

theorem ends_afterLeft {left : Job α} {resume : Job β → Job (α × β)}
    (hresume : ∀ k es p, (resume k).Ends es p →
      ∃ es₁ es₂, left.Ends es₁ p.1 ∧ k.Ends es₂ p.2 ∧ Interleaves es₁ es₂ es)
    {right : Job β} {es : List Event} {p : α × β} (h : (afterLeft left resume right).Ends es p) :
    ∃ es₁ es₂, left.Ends es₁ p.1 ∧ right.Ends es₂ p.2 ∧ Interleaves es₁ es₂ es := by
  induction right generalizing es with
  | done b =>
    cases h with
    | suspend h =>
      obtain ⟨a, ha, rfl⟩ := ends_map h
      exact ⟨es, [], ha, .done b, .left_nil es⟩
  | emit e k ih =>
    cases h with
    | emit n h =>
      obtain ⟨es₁, es₂, h₁, h₂, hes⟩ := ih n h
      exact ⟨es₁, e :: es₂, h₁, .emit n h₂, .right hes⟩
  | suspend right _ =>
    cases h with
    | suspend h =>
      obtain ⟨es₁, es₂, h₁, h₂, hes⟩ := hresume _ _ _ h
      exact ⟨es₁, es₂, h₁, .suspend h₂, hes⟩

/-- Two jobs taking turns end as each of them does, their events interleaved. -/
theorem ends_both {left : Job α} {right : Job β} {es : List Event} {p : α × β}
    (h : (both left right).Ends es p) :
    ∃ es₁ es₂, left.Ends es₁ p.1 ∧ right.Ends es₂ p.2 ∧ Interleaves es₁ es₂ es := by
  induction left generalizing right es p with
  | done a =>
    obtain ⟨b, hb, rfl⟩ := ends_map h
    exact ⟨[], es, .done a, hb, .nil_right es⟩
  | emit e k ih =>
    cases h with
    | emit n h =>
      obtain ⟨es₁, es₂, h₁, h₂, hes⟩ := ih n h
      exact ⟨e :: es₁, es₂, .emit n h₁, h₂, .left hes⟩
  | suspend left ih =>
    obtain ⟨es₁, es₂, h₁, h₂, hes⟩ := ends_afterLeft (fun _ _ _ => ih) h
    exact ⟨es₁, es₂, .suspend h₁, h₂, hes⟩

/-- What can come of two jobs taking turns until one fails. -/
inductive BothOk (left : Job (Except ε α)) (right : Job (Except ε β)) :
    List Event → Except ε (α × β) → Prop
  | ok {es₁ es₂ es : List Event} {a : α} {b : β} (hl : left.Ends es₁ (.ok a))
      (hr : right.Ends es₂ (.ok b)) (hes : Interleaves es₁ es₂ es) :
      BothOk left right es (.ok (a, b))
  | left {es₁ es : List Event} {e : ε} (hl : left.Ends es₁ (.error e)) (hes : es₁ ⊆ es) :
      BothOk left right es (.error e)
  | right {es₂ es : List Event} {e : ε} (hr : right.Ends es₂ (.error e)) (hes : es₂ ⊆ es) :
      BothOk left right es (.error e)

namespace BothOk

variable {left : Job (Except ε α)} {right : Job (Except ε β)} {es : List Event}
  {r : Except ε (α × β)} {e : Event} {n : Nat}

theorem emit_left {k : Nat → Job (Except ε α)} (h : BothOk (k n) right es r) :
    BothOk (.emit e k) right (e :: es) r := by
  cases h with
  | ok hl hr hes => exact .ok (.emit n hl) hr (.left hes)
  | left hl hes => exact .left (.emit n hl) (List.cons_subset_cons e hes)
  | right hr hes => exact .right hr (List.subset_cons_of_subset e hes)

theorem emit_right {k : Nat → Job (Except ε β)} (h : BothOk left (k n) es r) :
    BothOk left (.emit e k) (e :: es) r := by
  cases h with
  | ok hl hr hes => exact .ok hl (.emit n hr) (.right hes)
  | left hl hes => exact .left hl (List.subset_cons_of_subset e hes)
  | right hr hes => exact .right (.emit n hr) (List.cons_subset_cons e hes)

theorem suspend_left (h : BothOk left right es r) : BothOk (.suspend left) right es r := by
  cases h with
  | ok hl hr hes => exact .ok (.suspend hl) hr hes
  | left hl hes => exact .left (.suspend hl) hes
  | right hr hes => exact .right hr hes

theorem suspend_right (h : BothOk left right es r) : BothOk left (.suspend right) es r := by
  cases h with
  | ok hl hr hes => exact .ok hl (.suspend hr) hes
  | left hl hes => exact .left hl hes
  | right hr hes => exact .right (.suspend hr) hes

/-- The right job has ended before the left one. -/
theorem map_left {b : β} (h : (left.map fun x => x.map (·, b)).Ends es r) :
    BothOk left (.done (.ok b)) es r := by
  obtain ⟨x, hx, rfl⟩ := ends_map h
  cases x with
  | error e => exact .left hx (List.Subset.refl es)
  | ok a => exact .ok hx (.done _) (.left_nil es)

/-- The left job has ended before the right one. -/
theorem map_right {a : α} (h : (right.map fun x => x.map (a, ·)).Ends es r) :
    BothOk (.done (.ok a)) right es r := by
  obtain ⟨x, hx, rfl⟩ := ends_map h
  cases x with
  | error e => exact .right hx (List.Subset.refl es)
  | ok b => exact .ok (.done _) hx (.nil_right es)

end BothOk

theorem bothOk_afterLeftOk {left : Job (Except ε α)}
    {resume : Job (Except ε β) → Job (Except ε (α × β))}
    (hresume : ∀ k es r, (resume k).Ends es r → BothOk left k es r)
    {right : Job (Except ε β)} {es : List Event} {r : Except ε (α × β)}
    (h : (afterLeftOk left resume right).Ends es r) : BothOk left right es r := by
  induction right generalizing es with
  | done x =>
    cases x with
    | error e =>
      obtain ⟨rfl, rfl⟩ := ends_done h
      exact .right (.done _) (List.Subset.refl [])
    | ok b =>
      cases h with
      | suspend h => exact .map_left h
  | emit e k ih =>
    cases h with
    | emit n h => exact .emit_right (ih n h)
  | suspend right _ =>
    cases h with
    | suspend h => exact .suspend_right (hresume _ _ _ h)

/-- Two jobs taking turns until one fails: both have ended in values, or one has failed. -/
theorem bothOk_ends {left : Job (Except ε α)} {right : Job (Except ε β)} {es : List Event}
    {r : Except ε (α × β)} (h : (bothOk left right).Ends es r) : BothOk left right es r := by
  induction left generalizing right es r with
  | done x =>
    cases x with
    | error e =>
      obtain ⟨rfl, rfl⟩ := ends_done h
      exact .left (.done _) (List.Subset.refl [])
    | ok a => exact .map_right h
  | emit e k ih =>
    cases h with
    | emit n h => exact .emit_left (ih n h)
  | suspend left ih => exact .suspend_left (bothOk_afterLeftOk (fun _ _ _ => ih) h)

/-! ## Joins -/

/-- What can come of a list of jobs, however they are joined: all have ended in
values, in the order of the jobs, and the events are an interleaving of theirs; or
one of them has failed, and its events are among those of all. -/
inductive Joined : List (Job (Except ε α)) → List Event → Except ε (List α) → Prop
  | nil : Joined [] [] (.ok [])
  | cons {j : Job (Except ε α)} {js : List (Job (Except ε α))} {es₁ es₂ es : List Event}
      {a : α} {as : List α} (hj : j.Ends es₁ (.ok a)) (hjs : Joined js es₂ (.ok as))
      (hes : Interleaves es₁ es₂ es) : Joined (j :: js) es (.ok (a :: as))
  | error {j : Job (Except ε α)} {js : List (Job (Except ε α))} {es₁ es : List Event} {e : ε}
      (hmem : j ∈ js) (hj : j.Ends es₁ (.error e)) (hes : es₁ ⊆ es) : Joined js es (.error e)

namespace Joined

/-- A failure of the later jobs is one of all. -/
theorem error_cons {j : Job (Except ε α)} {js : List (Job (Except ε α))} {es es' : List Event}
    {e : ε} (h : Joined js es (.error e)) (hes : es ⊆ es') : Joined (j :: js) es' (.error e) := by
  cases h with
  | error hmem hj hes₁ =>
    exact .error (List.mem_cons_of_mem _ hmem) hj (List.Subset.trans hes₁ hes)

/-- A failure is one of a job. -/
theorem exists_error {js : List (Job (Except ε α))} {es : List Event} {e : ε}
    (h : Joined js es (.error e)) : ∃ j ∈ js, ∃ es₁ ⊆ es, j.Ends es₁ (.error e) := by
  cases h with
  | error hmem hj hes => exact ⟨_, hmem, _, hes, hj⟩

/-- Where all have ended in values, each has. -/
theorem ok_of_mem {js : List (Job (Except ε α))} {es : List Event} {as : List α}
    (h : Joined js es (.ok as)) {j : Job (Except ε α)} (hj : j ∈ js) :
    ∃ es₁ a, j.Ends es₁ (.ok a) := by
  induction js generalizing es as with
  | nil => simp at hj
  | cons j' js ih =>
    cases h with
    | cons hj' hjs _ =>
      rcases List.mem_cons.1 hj with rfl | hj
      · exact ⟨_, _, hj'⟩
      · exact ih hjs hj

end Joined

/-- Jobs taking turns end as each of them does. -/
theorem joined_all {js : List (Job (Except ε α))} {es : List Event}
    {rs : List (Except ε α)} (h : (all js).Ends es rs) : Joined js es (rs.mapM id) := by
  induction js generalizing es rs with
  | nil =>
    obtain ⟨rfl, rfl⟩ := ends_done h
    exact .nil
  | cons j js ih =>
    obtain ⟨p, hp, rfl⟩ := ends_map h
    obtain ⟨es₁, es₂, hj, hjs, hes⟩ := ends_both hp
    have hrest := ih hjs
    rw [List.mapM_cons]
    cases hx : p.1 with
    | error e =>
      rw [hx] at hj
      exact .error List.mem_cons_self hj fun x hx => hes.mem_iff.2 (.inl hx)
    | ok a =>
      rw [hx] at hj
      cases hy : p.2.mapM id with
      | error e =>
        rw [hy] at hrest
        exact hrest.error_cons fun x hx => hes.mem_iff.2 (.inr hx)
      | ok as =>
        rw [hy] at hrest
        exact .cons hj hrest hes

/-- Jobs run one after the other end as each of them does. -/
theorem joined_inOrder {js : List (Job (Except ε α))} {es : List Event}
    {r : Except ε (List α)} (h : (inOrder js).Ends es r) : Joined js es r := by
  induction js generalizing es r with
  | nil =>
    obtain ⟨rfl, rfl⟩ := ends_done h
    exact .nil
  | cons j js ih =>
    obtain ⟨es₁, x, es₂, hj, hrest, rfl⟩ := ends_bind h
    cases x with
    | error e =>
      obtain ⟨rfl, rfl⟩ := ends_done hrest
      exact .error List.mem_cons_self hj (List.subset_append_left es₁ [])
    | ok a =>
      obtain ⟨y, hy, rfl⟩ := ends_map hrest
      cases y with
      | error e => exact (ih hy).error_cons (List.subset_append_right es₁ es₂)
      | ok as => exact .cons hj (ih hy) (.append es₁ es₂)

/-- Jobs taking turns until one fails end as each of them does. -/
theorem joined_allOk {js : List (Job (Except ε α))} {es : List Event}
    {r : Except ε (List α)} (h : (allOk js).Ends es r) : Joined js es r := by
  induction js generalizing es r with
  | nil =>
    obtain ⟨rfl, rfl⟩ := ends_done h
    exact .nil
  | cons j js ih =>
    obtain ⟨x, hx, rfl⟩ := ends_map h
    cases bothOk_ends hx with
    | ok hl hr hes => exact .cons hl (ih hr) hes
    | left hl hes => exact .error List.mem_cons_self hl hes
    | right hr hes => exact (ih hr).error_cons hes

end Job

/-! ## Fetches -/

/-- A fetch can end in an outcome, whatever it is told about the length of the log
and however often it suspends or defers on the way. -/
inductive Fetch.Ends : Fetch → Outcome → Prop
  | finish (o : Outcome) : Ends (.finish o) o
  | defer {work : Fetch} {o : Outcome} (h : Ends work o) : Ends (.defer work) o
  | suspend {next : Fetch} {o : Outcome} (h : Ends next o) : Ends (.suspend next) o
  | log {entry : String} {next : Nat → Fetch} {o : Outcome} (n : Nat) (h : Ends (next n) o) :
      Ends (.log entry next) o

/-- The errors raised by some events, in order. -/
def Event.errors (es : List Event) : List ResponseError := es.filterMap Event.error?

@[simp] theorem Event.errors_append (es fs : List Event) :
    Event.errors (es ++ fs) = Event.errors es ++ Event.errors fs :=
  List.filterMap_append

@[simp] theorem Event.errors_raised (errors : List ResponseError) :
    Event.errors (errors.map .raised) = errors := by
  induction errors with
  | nil => rfl
  | cons e errors ih =>
    rw [List.map_cons, Event.errors, List.filterMap_cons]
    exact congrArg (e :: ·) ih

/-- An error raised by joined jobs is raised by one of them. -/
theorem Job.Joined.mem_errors {α ε : Type} {js : List (Job (Except ε α))} {es : List Event}
    {as : List α} (h : Joined js es (.ok as)) {e : ResponseError} (he : e ∈ Event.errors es) :
    ∃ j ∈ js, ∃ es₁ a, j.Ends es₁ (.ok a) ∧ e ∈ Event.errors es₁ := by
  induction js generalizing es as with
  | nil =>
    cases h
    simp [Event.errors] at he
  | cons j js ih =>
    cases h with
    | cons hj hjs hes =>
      obtain ⟨event, hevent, heq⟩ := List.mem_filterMap.1 he
      rcases hes.mem_iff.1 hevent with hl | hr
      · exact ⟨j, List.mem_cons_self, _, _, hj, List.mem_filterMap.2 ⟨event, hl, heq⟩⟩
      · obtain ⟨j', hj', hrest⟩ := ih hjs (List.mem_filterMap.2 ⟨event, hr, heq⟩)
        exact ⟨j', List.mem_cons_of_mem _ hj', hrest⟩

/-- What a fetch does as a job is an ending of the fetch, and no error is raised on
the way. -/
theorem Fetch.ends_of_job {f : Fetch} {path : Path} {es : List Event} {o : Outcome}
    (h : (f.job path).Ends es o) : f.Ends o ∧ Event.errors es = [] := by
  induction f generalizing es with
  | finish o' =>
    obtain ⟨rfl, rfl⟩ := Job.ends_done h
    exact ⟨.finish o, rfl⟩
  | defer work ih =>
    obtain ⟨hend, hes⟩ := ih h
    exact ⟨.defer hend, hes⟩
  | suspend next ih =>
    cases h with
    | suspend h =>
      cases h with
      | emit n h =>
        obtain ⟨hend, hes⟩ := ih h
        exact ⟨.suspend hend, hes⟩
  | log entry next ih =>
    cases h with
    | emit n h =>
      obtain ⟨hend, hes⟩ := ih n h
      exact ⟨.log n hend, hes⟩

end GraphQL
