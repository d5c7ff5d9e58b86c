/-
GraphQL.Proofs.FirstTurns — what jobs do before any of them goes on after a suspension.

Jobs that take turns have their first turns in order, and nothing that has suspended goes on
before the next round. So if every job makes certain calls in its first turn only, joined jobs make
them one job after the other, and all of them before anything is resumed.

`Job.Opens starts fails due j` says so of one job: the events `starts` that it emits are those of
`due`, it emits them in its first turn, and nothing is resumed in that turn. A failure may come
before they are through, as `Job.allOk` does not give the other jobs a turn then. `Opens` passes
through all ways of combining jobs.

A job may be stopped by the failure of another one, so what can be seen of it are some first events
(`Job.Begins`). These compose like endings do (`Job.Merged`).

* `Job.merged_all`, `Job.merged_allOk`, `Job.merged_inOrder` — the joins have one rule.
* `Job.Opens.all`, `Job.Opens.allOk` — of joined jobs what is due is due in order.
* `Job.Opens.startsFirst` — what it means for the events that can be seen.
-/
import GraphQL.Proofs.Emissions

namespace GraphQL

theorem filter_eq_nil_of_forall {α : Type} {p : α → Bool} {xs : List α}
    (h : ∀ x ∈ xs, p x = false) : xs.filter p = [] :=
  List.filter_eq_nil_iff.2 fun x hx => by simp [h x hx]

namespace Interleaves

variable {α : Type} {l r m : List α}

theorem filter (p : α → Bool) (h : Interleaves l r m) :
    Interleaves (l.filter p) (r.filter p) (m.filter p) := by
  induction h with
  | nil => exact .nil
  | @left x l r m _ ih =>
    cases hx : p x with
    | true => simpa only [List.filter_cons_of_pos hx] using ih.left
    | false => simpa [hx] using ih
  | @right x l r m _ ih =>
    cases hx : p x with
    | true => simpa only [List.filter_cons_of_pos hx] using ih.right
    | false => simpa [hx] using ih

theorem sublist_left (h : Interleaves l r m) : l.Sublist m := by
  induction h with
  | nil => exact .slnil
  | left _ ih => exact ih.cons_cons _
  | right _ ih => exact ih.cons _

theorem sublist_right (h : Interleaves l r m) : r.Sublist m := by
  induction h with
  | nil => exact .slnil
  | left _ ih => exact ih.cons _
  | right _ ih => exact ih.cons_cons _

theorem eq_left (h : Interleaves l [] m) : m = l := by
  generalize hr : ([] : List α) = r at h
  induction h with
  | nil => rfl
  | left _ ih => rw [ih hr]
  | right => cases hr

theorem eq_right (h : Interleaves [] r m) : m = r := by
  generalize hl : ([] : List α) = l at h
  induction h with
  | nil => rfl
  | left => cases hl
  | right _ ih => rw [ih hl]

end Interleaves

namespace Job

variable {α β ε : Type}

/-! ## First events -/

/-- Some first events of a job, whatever it is told about the length of the log. -/
inductive Begins : Job α → List Event → Prop
  /-- The job is stopped, or not started at all. -/
  | stopped (j : Job α) : Begins j []
  | emit {e : Event} {k : Nat → Job α} {es : List Event} (n : Nat) (h : Begins (k n) es) :
      Begins (.emit e k) (e :: es)
  | suspend {j : Job α} {es : List Event} (h : Begins j es) : Begins (.suspend j) es

theorem Ends.begins {j : Job α} {es : List Event} {a : α} (h : j.Ends es a) : j.Begins es := by
  induction h with
  | done => exact .stopped _
  | emit n _ ih => exact .emit n ih
  | suspend _ ih => exact .suspend ih

theorem Always.of_begins {P : Event → Prop} {j : Job α} (h : j.Always P) {es : List Event}
    (hb : j.Begins es) : ∀ e ∈ es, P e := by
  induction hb with
  | stopped => simp
  | emit n _ ih =>
    cases h with
    | emit he h => exact List.forall_mem_cons.2 ⟨he, ih (h n)⟩
  | suspend _ ih =>
    cases h with
    | suspend h => exact ih h

theorem Always.mono {P Q : Event → Prop} {j : Job α} (h : j.Always P) (hPQ : ∀ e, P e → Q e) :
    j.Always Q := by
  induction h with
  | done a => exact .done a
  | emit he _ ih => exact .emit (hPQ _ he) ih
  | suspend _ ih => exact .suspend ih

/-! ### One after the other -/

theorem begins_done {a : α} {es : List Event} (h : (Job.done a).Begins es) : es = [] := by
  cases h
  rfl

theorem begins_map {f : α → β} {j : Job α} {es : List Event} (h : (j.map f).Begins es) :
    j.Begins es := by
  induction j generalizing es with
  | done a =>
    obtain rfl := begins_done h
    exact .stopped _
  | emit e k ih =>
    cases h with
    | stopped => exact .stopped _
    | emit n h => exact .emit n (ih n h)
  | suspend j ih =>
    cases h with
    | stopped => exact .stopped _
    | suspend h => exact .suspend (ih h)

/-- The first job has been stopped, or it has ended and the second one has begun. -/
theorem begins_bind {f : α → Job β} {j : Job α} {es : List Event} (h : (j.bind f).Begins es) :
    j.Begins es ∨ ∃ es₁ a es₂, j.Ends es₁ a ∧ (f a).Begins es₂ ∧ es = es₁ ++ es₂ := by
  induction j generalizing es with
  | done a => exact .inr ⟨[], a, es, .done a, h, rfl⟩
  | emit e k ih =>
    cases h with
    | stopped => exact .inl (.stopped _)
    | emit n h =>
      rcases ih n h with h | ⟨es₁, a, es₂, h₁, h₂, rfl⟩
      · exact .inl (.emit n h)
      · exact .inr ⟨e :: es₁, a, es₂, .emit n h₁, h₂, rfl⟩
  | suspend j ih =>
    cases h with
    | stopped => exact .inl (.stopped _)
    | suspend h =>
      rcases ih h with h | ⟨es₁, a, es₂, h₁, h₂, rfl⟩
      · exact .inl (.suspend h)
      · exact .inr ⟨es₁, a, es₂, .suspend h₁, h₂, rfl⟩

/-- Raised errors come first, unless the job has been stopped before. -/
theorem begins_raiseAll {errors : List ResponseError} {j : Job α} {es : List Event}
    (h : (raiseAll errors j).Begins es) :
    ∃ raised es', es = raised ++ es' ∧ raised ⊆ errors.map .raised ∧ j.Begins es' := by
  induction errors generalizing es with
  | nil => exact ⟨[], es, rfl, List.nil_subset _, h⟩
  | cons e errors ih =>
    have hcons : raiseAll (e :: errors) j = .emit (.raised e) fun _ => raiseAll errors j := rfl
    rw [hcons] at h
    cases h with
    | stopped => exact ⟨[], [], rfl, List.nil_subset _, .stopped _⟩
    | emit n h =>
      obtain ⟨raised, es', rfl, hraised, hj⟩ := ih h
      exact ⟨.raised e :: raised, es', rfl, List.cons_subset_cons _ hraised, hj⟩

/-! ### Taking turns -/

/-- Two jobs have begun, their events interleaved. -/
def BothBegin (left : Job α) (right : Job β) (es : List Event) : Prop :=
  ∃ es₁ es₂, left.Begins es₁ ∧ right.Begins es₂ ∧ Interleaves es₁ es₂ es

namespace BothBegin

variable {left : Job α} {right : Job β} {es : List Event} {e : Event} {n : Nat}

theorem stopped (left : Job α) (right : Job β) : BothBegin left right [] :=
  ⟨[], [], .stopped _, .stopped _, .nil⟩

theorem left_only (h : left.Begins es) (right : Job β) : BothBegin left right es :=
  ⟨es, [], h, .stopped _, .left_nil es⟩

theorem right_only (left : Job α) (h : right.Begins es) : BothBegin left right es :=
  ⟨[], es, .stopped _, h, .nil_right es⟩

theorem emit_left {k : Nat → Job α} (h : BothBegin (k n) right es) :
    BothBegin (.emit e k) right (e :: es) := by
  obtain ⟨es₁, es₂, h₁, h₂, hes⟩ := h
  exact ⟨e :: es₁, es₂, .emit n h₁, h₂, .left hes⟩

theorem emit_right {k : Nat → Job β} (h : BothBegin left (k n) es) :
    BothBegin left (.emit e k) (e :: es) := by
  obtain ⟨es₁, es₂, h₁, h₂, hes⟩ := h
  exact ⟨es₁, e :: es₂, h₁, .emit n h₂, .right hes⟩

theorem suspend_left (h : BothBegin left right es) : BothBegin (.suspend left) right es := by
  obtain ⟨es₁, es₂, h₁, h₂, hes⟩ := h
  exact ⟨es₁, es₂, .suspend h₁, h₂, hes⟩

theorem suspend_right (h : BothBegin left right es) : BothBegin left (.suspend right) es := by
  obtain ⟨es₁, es₂, h₁, h₂, hes⟩ := h
  exact ⟨es₁, es₂, h₁, .suspend h₂, hes⟩

end BothBegin

theorem begins_afterLeft {left : Job α} {resume : Job β → Job (α × β)}
    (hresume : ∀ k es, (resume k).Begins es → BothBegin left k es) {right : Job β}
    {es : List Event} (h : (afterLeft left resume right).Begins es) : BothBegin left right es := by
  induction right generalizing es with
  | done b =>
    cases h with
    | stopped => exact .stopped _ _
    | suspend h => exact .left_only (begins_map h) _
  | emit e k ih =>
    cases h with
    | stopped => exact .stopped _ _
    | emit n h => exact .emit_right (ih n h)
  | suspend right _ =>
    cases h with
    | stopped => exact .stopped _ _
    | suspend h => exact .suspend_right (hresume _ _ h)

theorem begins_both {left : Job α} {right : Job β} {es : List Event}
    (h : (both left right).Begins es) : BothBegin left right es := by
  induction left generalizing right es with
  | done a => exact .right_only _ (begins_map h)
  | emit e k ih =>
    cases h with
    | stopped => exact .stopped _ _
    | emit n h => exact .emit_left (ih n h)
  | suspend left ih => exact .suspend_left (begins_afterLeft (fun _ _ => ih) h)

theorem begins_afterLeftOk {left : Job (Except ε α)}
    {resume : Job (Except ε β) → Job (Except ε (α × β))}
    (hresume : ∀ k es, (resume k).Begins es → BothBegin left k es) {right : Job (Except ε β)}
    {es : List Event} (h : (afterLeftOk left resume right).Begins es) :
    BothBegin left right es := by
  induction right generalizing es with
  | done r =>
    cases r with
    | error e =>
      obtain rfl := begins_done h
      exact .stopped _ _
    | ok b =>
      cases h with
      | stopped => exact .stopped _ _
      | suspend h => exact .left_only (begins_map h) _
  | emit e k ih =>
    cases h with
    | stopped => exact .stopped _ _
    | emit n h => exact .emit_right (ih n h)
  | suspend right _ =>
    cases h with
    | stopped => exact .stopped _ _
    | suspend h => exact .suspend_right (hresume _ _ h)

theorem begins_bothOk {left : Job (Except ε α)} {right : Job (Except ε β)} {es : List Event}
    (h : (bothOk left right).Begins es) : BothBegin left right es := by
  induction left generalizing right es with
  | done r =>
    cases r with
    | error e =>
      obtain rfl := begins_done h
      exact .stopped _ _
    | ok a => exact .right_only _ (begins_map h)
  | emit e k ih =>
    cases h with
    | stopped => exact .stopped _ _
    | emit n h => exact .emit_left (ih n h)
  | suspend left ih => exact .suspend_left (begins_afterLeftOk (fun _ _ => ih) h)

/-! ### Joins -/

/-- Jobs have begun, their events interleaved. -/
inductive Merged : List (Job α) → List Event → Prop
  | nil : Merged [] []
  | cons {j : Job α} {js : List (Job α)} {es₁ es₂ es : List Event} (hj : j.Begins es₁)
      (hjs : Merged js es₂) (hes : Interleaves es₁ es₂ es) : Merged (j :: js) es

theorem merged_stopped (js : List (Job α)) : Merged js [] := by
  induction js with
  | nil => exact .nil
  | cons j js ih => exact .cons (.stopped j) ih .nil

theorem merged_all {js : List (Job α)} {es : List Event} (h : (all js).Begins es) :
    Merged js es := by
  induction js generalizing es with
  | nil =>
    obtain rfl := begins_done h
    exact .nil
  | cons j js ih =>
    obtain ⟨es₁, es₂, hj, hjs, hes⟩ := begins_both (begins_map h)
    exact .cons hj (ih hjs) hes

theorem merged_allOk {js : List (Job (Except ε α))} {es : List Event}
    (h : (allOk js).Begins es) : Merged js es := by
  induction js generalizing es with
  | nil =>
    obtain rfl := begins_done h
    exact .nil
  | cons j js ih =>
    obtain ⟨es₁, es₂, hj, hjs, hes⟩ := begins_bothOk (begins_map h)
    exact .cons hj (ih hjs) hes

theorem merged_inOrder {js : List (Job (Except ε α))} {es : List Event}
    (h : (inOrder js).Begins es) : Merged js es := by
  induction js generalizing es with
  | nil =>
    obtain rfl := begins_done h
    exact .nil
  | cons j js ih =>
    rcases begins_bind h with h | ⟨es₁, r, es₂, hj, hrest, rfl⟩
    · exact .cons h (merged_stopped js) (.left_nil es)
    · refine .cons hj.begins ?_ (.append es₁ es₂)
      cases r with
      | error e =>
        obtain rfl := begins_done hrest
        exact merged_stopped js
      | ok a => exact ih (begins_map hrest)

/-- A job that never emits events of a kind has not emitted any so far. -/
theorem Always.filter_eq_nil {p : Event → Bool} {j : Job α} {es : List Event}
    (h : j.Always (p · = false)) (hb : j.Begins es) : es.filter p = [] :=
  filter_eq_nil_of_forall (h.of_begins hb)

theorem Merged.filter_eq_nil {p : Event → Bool} {js : List (Job α)} {es : List Event}
    (h : Merged js es) (hjs : ∀ j ∈ js, j.Always (p · = false)) : es.filter p = [] := by
  induction h with
  | nil => rfl
  | cons hj _ hes ih =>
    obtain ⟨hfirst, hjs⟩ := List.forall_mem_cons.1 hjs
    have hfilter := hes.filter p
    rw [hfirst.filter_eq_nil hj, ih hjs] at hfilter
    exact hfilter.eq_left

/-- If of any two jobs one never emits events of a kind, all those of the kind are of one job. -/
theorem Merged.filter_eq {p : Event → Bool} {js : List (Job α)} {es : List Event}
    (h : Merged js es)
    (hone : js.Pairwise fun j j' => j.Always (p · = false) ∨ j'.Always (p · = false)) :
    es.filter p = [] ∨
      ∃ j ∈ js, ∃ es', j.Begins es' ∧ es'.Sublist es ∧ es.filter p = es'.filter p := by
  induction h with
  | nil => exact .inl rfl
  | @cons j js es₁ es₂ es hj hjs hes ih =>
    obtain ⟨hfirst, hone⟩ := List.pairwise_cons.1 hone
    have hfilter := hes.filter p
    by_cases hnever : j.Always (p · = false)
    · rw [hnever.filter_eq_nil hj] at hfilter
      rcases ih hone with hnil | ⟨j', hmem, es', hes', hsub, heq⟩
      · exact .inl (hfilter.eq_right.trans hnil)
      · exact .inr ⟨j', List.mem_cons_of_mem _ hmem, es', hes', hsub.trans hes.sublist_right,
          hfilter.eq_right.trans heq⟩
    · rw [hjs.filter_eq_nil fun j' hmem => (hfirst j' hmem).resolve_left hnever] at hfilter
      exact .inr ⟨j, List.mem_cons_self, es₁, hj, hes.sublist_left, hfilter.eq_left⟩

end Job

/-! ## First turns -/

/-- The event says that suspended work goes on. -/
def Event.resumes : Event → Bool
  | .resumed _ => true
  | _ => false

namespace Job

variable {α β ε : Type}

/-- The events of one kind that a job emits are those that are due. It emits them in its first turn,
before it suspends, and nothing is resumed in that turn. It may only fail before it is through. -/
inductive Opens (starts : Event → Bool) (fails : α → Prop) : List Event → Job α → Prop
  | done (a : α) : Opens starts fails [] (.done a)
  | failed {a : α} (due : List Event) (ha : fails a) : Opens starts fails due (.done a)
  | start {e : Event} {k : Nat → Job α} {due : List Event} (he : starts e = true)
      (hr : e.resumes = false) (h : ∀ n, Opens starts fails due (k n)) :
      Opens starts fails (e :: due) (.emit e k)
  | other {e : Event} {k : Nat → Job α} {due : List Event} (he : starts e = false)
      (hr : e.resumes = false) (h : ∀ n, Opens starts fails due (k n)) :
      Opens starts fails due (.emit e k)
  | suspend {j : Job α} (h : j.Always (starts · = false)) : Opens starts fails [] (.suspend j)

/-- A job that cannot fail. -/
abbrev Never (α : Type) : α → Prop := fun _ => False

/-- The value is a failure. -/
def IsError : Except ε α → Prop := fun r => ∃ e, r = .error e

/-- Nothing is resumed in the first turn of a job. -/
def Quiet (j : Job α) : Prop := j.Opens (fun _ => false) (Never α) []

namespace Opens

variable {starts : Event → Bool} {fails : α → Prop} {due due₁ due₂ : List Event}

/-! ### One after the other -/

theorem map {j : Job α} (h : j.Opens starts fails due) {fails' : β → Prop} {f : α → β}
    (hf : ∀ a, fails a → fails' (f a)) : (j.map f).Opens starts fails' due := by
  induction h with
  | done a => exact .done _
  | failed due ha => exact .failed due (hf _ ha)
  | start he hr _ ih => exact .start he hr ih
  | other he hr _ ih => exact .other he hr ih
  | suspend h => exact .suspend (h.map f)

/-- What follows a job must not start anything. -/
theorem bind {j : Job α} (h : j.Opens starts (Never α) due) {fails' : β → Prop} {f : α → Job β}
    (hf : ∀ a, (f a).Opens starts fails' []) (hnone : ∀ a, (f a).Always (starts · = false)) :
    (j.bind f).Opens starts fails' due := by
  induction h with
  | done a => exact hf a
  | failed due ha => exact ha.elim
  | start he hr _ ih => exact .start he hr ih
  | other he hr _ ih => exact .other he hr ih
  | suspend h => exact .suspend (h.bind hnone)

theorem raiseAll {j : Job α} (h : j.Opens starts fails due)
    (hraised : ∀ e, starts (.raised e) = false) (errors : List ResponseError) :
    (raiseAll errors j).Opens starts fails due := by
  induction errors with
  | nil => exact h
  | cons e errors ih => exact .other (hraised e) rfl fun _ => ih

/-! ### Taking turns -/

theorem afterLeft {left : Job α} {resume : Job β → Job (α × β)}
    (hleft : left.Always (starts · = false))
    (hresume : ∀ right : Job β, right.Always (starts · = false) →
      (resume right).Always (starts · = false)) {right : Job β}
    (h : right.Opens starts (Never β) due) :
    (afterLeft left resume right).Opens starts (Never (α × β)) due := by
  induction h with
  | done b => exact .suspend (hleft.map _)
  | failed due hb => exact hb.elim
  | start he hr _ ih => exact .start he hr ih
  | other he hr _ ih => exact .other he hr ih
  | suspend h => exact .suspend (hresume _ h)

/-- Of two jobs taking turns the first turns come first, the left one before the right one. -/
theorem both {left : Job α} {right : Job β} (hl : left.Opens starts (Never α) due₁)
    (hr : right.Opens starts (Never β) due₂) :
    (both left right).Opens starts (Never (α × β)) (due₁ ++ due₂) := by
  induction hl with
  | done a => exact hr.map fun _ h => h
  | failed due ha => exact ha.elim
  | start he hres _ ih => exact .start he hres ih
  | other he hres _ ih => exact .other he hres ih
  | suspend h =>
    refine hr.afterLeft h fun right hright => ?_
    exact h.both hright

theorem afterLeftOk {left : Job (Except ε α)}
    {resume : Job (Except ε β) → Job (Except ε (α × β))}
    (hleft : left.Always (starts · = false))
    (hresume : ∀ right : Job (Except ε β), right.Always (starts · = false) →
      (resume right).Always (starts · = false)) {right : Job (Except ε β)}
    (h : right.Opens starts IsError due) :
    (afterLeftOk left resume right).Opens starts IsError due := by
  induction h with
  | done r =>
    cases r with
    | error e => exact .done _
    | ok b => exact .suspend (hleft.map _)
  | failed due hr =>
    obtain ⟨e, rfl⟩ := hr
    exact .failed due ⟨e, rfl⟩
  | start he hr _ ih => exact .start he hr ih
  | other he hr _ ih => exact .other he hr ih
  | suspend h => exact .suspend (hresume _ h)

/-- A failure of the left one in its first turn leaves the right one out. -/
theorem bothOk {left : Job (Except ε α)} {right : Job (Except ε β)}
    (hl : left.Opens starts IsError due₁) (hr : right.Opens starts IsError due₂) :
    (bothOk left right).Opens starts IsError (due₁ ++ due₂) := by
  induction hl with
  | done r =>
    cases r with
    | error e => exact .failed _ ⟨e, rfl⟩
    | ok a =>
      refine hr.map ?_
      rintro _ ⟨e, rfl⟩
      exact ⟨e, rfl⟩
  | failed due hfail =>
    obtain ⟨e, rfl⟩ := hfail
    exact .failed _ ⟨e, rfl⟩
  | start he hres _ ih => exact .start he hres ih
  | other he hres _ ih => exact .other he hres ih
  | suspend h =>
    refine hr.afterLeftOk h fun right hright => ?_
    exact h.bothOk hright

/-! ### Joins -/

variable {ι : Type} {xs : List ι} {dueOf : ι → List Event}

theorem all {f : ι → Job α} (h : ∀ x ∈ xs, (f x).Opens starts (Never α) (dueOf x)) :
    (Job.all (xs.map f)).Opens starts (Never (List α)) (xs.flatMap dueOf) := by
  induction xs with
  | nil => exact .done _
  | cons x xs ih =>
    obtain ⟨hx, hxs⟩ := List.forall_mem_cons.1 h
    exact (hx.both (ih hxs)).map fun _ h => h

theorem allOk {f : ι → Job (Except ε α)} (h : ∀ x ∈ xs, (f x).Opens starts IsError (dueOf x)) :
    (Job.allOk (xs.map f)).Opens starts IsError (xs.flatMap dueOf) := by
  induction xs with
  | nil => exact .done _
  | cons x xs ih =>
    obtain ⟨hx, hxs⟩ := List.forall_mem_cons.1 h
    refine (hx.bothOk (ih hxs)).map ?_
    rintro _ ⟨e, rfl⟩
    exact ⟨e, rfl⟩

/-! ### Jobs that start nothing -/

/-- A job that never starts anything and is quiet opens with nothing due. -/
theorem of_quiet {j : Job α} (h : j.Quiet) (hnone : j.Always (starts · = false)) :
    j.Opens starts fails [] := by
  unfold Quiet at h
  generalize ([] : List Event) = none at h
  induction h with
  | done a => exact .done a
  | failed due ha => exact ha.elim
  | start he => cases he
  | other _ hr _ ih =>
    cases hnone with
    | emit he hnone => exact .other he hr fun n => ih n (hnone n)
  | suspend _ =>
    cases hnone with
    | suspend hnone => exact .suspend hnone

end Opens

namespace Quiet

/-- Nothing is an event of no kind. -/
theorem always_none (j : Job α) : j.Always fun _ => false = false := by
  induction j with
  | done a => exact .done a
  | emit e k ih => exact .emit rfl ih
  | suspend j ih => exact .suspend ih

/-- Where nothing is started it does not matter what is due, nor which values are failures. -/
theorem of_opens {fails : α → Prop} {due : List Event} {j : Job α}
    (h : j.Opens (fun _ => false) fails due) : j.Quiet := by
  induction h with
  | done a | failed => exact Opens.done _
  | start he => cases he
  | other he hr _ ih => exact Opens.other he hr ih
  | suspend h => exact Opens.suspend h

theorem suspend (j : Job α) : (Job.suspend j).Quiet := Opens.suspend (always_none j)

theorem map {j : Job α} (h : j.Quiet) (f : α → β) : (j.map f).Quiet := Opens.map h fun _ h => h

theorem bind {j : Job α} (h : j.Quiet) {f : α → Job β} (hf : ∀ a, (f a).Quiet) :
    (j.bind f).Quiet := Opens.bind h hf fun a => always_none (f a)

theorem raiseAll {j : Job α} (h : j.Quiet) (errors : List ResponseError) :
    (raiseAll errors j).Quiet := Opens.raiseAll h (fun _ => rfl) errors

theorem all {ι : Type} {xs : List ι} {f : ι → Job α} (h : ∀ x ∈ xs, (f x).Quiet) :
    (Job.all (xs.map f)).Quiet := of_opens (Opens.all h)

theorem allOk {ι : Type} {xs : List ι} {f : ι → Job (Except ε α)} (h : ∀ x ∈ xs, (f x).Quiet) :
    (Job.allOk (xs.map f)).Quiet :=
  of_opens (Opens.allOk fun x hx => Opens.of_quiet (h x hx) (always_none _))

theorem inOrder {js : List (Job (Except ε α))} (h : ∀ j ∈ js, j.Quiet) :
    (Job.inOrder js).Quiet := by
  induction js with
  | nil => exact Opens.done _
  | cons j js ih =>
    obtain ⟨hj, hjs⟩ := List.forall_mem_cons.1 h
    refine hj.bind fun r => ?_
    cases r with
    | error e => exact Opens.done _
    | ok a => exact (ih hjs).map _

end Quiet

/-! ## What can be seen -/

/-- The events of a kind come in the order in which they are due, and nothing is resumed before the
last of them. Once anything else has happened they have all happened. -/
def StartsFirst (starts : Event → Bool) (due es : List Event) : Prop :=
  ∃ before after, es = before ++ after ∧ (∀ e ∈ before, e.resumes = false) ∧
    (∀ e ∈ after, starts e = false) ∧ before.filter starts <+: due ∧
      (after ≠ [] → before.filter starts = due)

namespace StartsFirst

variable {starts : Event → Bool} {due es : List Event} {e : Event}

theorem stopped (starts : Event → Bool) (due : List Event) : StartsFirst starts due [] :=
  ⟨[], [], rfl, by simp, by simp, List.nil_prefix, fun h => absurd rfl h⟩

/-- After the last event that is due anything else may happen. -/
theorem rest (h : ∀ e ∈ es, starts e = false) : StartsFirst starts [] es :=
  ⟨[], es, rfl, by simp, h, List.nil_prefix, fun _ => rfl⟩

theorem start (h : StartsFirst starts due es) (he : starts e = true) (hr : e.resumes = false) :
    StartsFirst starts (e :: due) (e :: es) := by
  obtain ⟨before, after, rfl, hbefore, hafter, hdue, hall⟩ := h
  refine ⟨e :: before, after, rfl, List.forall_mem_cons.2 ⟨hr, hbefore⟩, hafter, ?_, fun hne => ?_⟩
  · rw [List.filter_cons_of_pos he]
    exact List.cons_prefix_cons.2 ⟨rfl, hdue⟩
  · rw [List.filter_cons_of_pos he, hall hne]

theorem other (h : StartsFirst starts due es) (he : starts e = false) (hr : e.resumes = false) :
    StartsFirst starts due (e :: es) := by
  obtain ⟨before, after, rfl, hbefore, hafter, hdue, hall⟩ := h
  have hfilter : (e :: before).filter starts = before.filter starts :=
    List.filter_cons_of_neg (by simp [he])
  exact ⟨e :: before, after, rfl, List.forall_mem_cons.2 ⟨hr, hbefore⟩, hafter, hfilter ▸ hdue,
    fun hne => hfilter ▸ hall hne⟩

/-- Other events may be left out. -/
theorem filter (h : StartsFirst starts due es) {p : Event → Bool}
    (hp : ∀ e, starts e = true → p e = true) : StartsFirst starts due (es.filter p) := by
  obtain ⟨before, after, rfl, hbefore, hafter, hdue, hall⟩ := h
  have hfilter : (before.filter p).filter starts = before.filter starts := by
    rw [List.filter_filter]
    refine List.filter_congr fun e _ => ?_
    cases he : starts e with
    | false => rfl
    | true => rw [hp e he, Bool.and_true]
  refine ⟨before.filter p, after.filter p, List.filter_append .., fun e he => ?_, fun e he => ?_,
    hfilter ▸ hdue, fun hne => ?_⟩
  · exact hbefore e (List.mem_filter.1 he).1
  · exact hafter e (List.mem_filter.1 he).1
  · refine hfilter ▸ hall fun hnil => hne ?_
    rw [hnil, List.filter_nil]

theorem isPrefix (h : StartsFirst starts due es) : es.filter starts <+: due := by
  obtain ⟨before, after, rfl, -, hafter, hdue, -⟩ := h
  rwa [List.filter_append, filter_eq_nil_of_forall hafter, List.append_nil]

/-- By the time anything is resumed all that is due has happened. -/
theorem filter_eq (h : StartsFirst starts due es) (he : e ∈ es) (hr : e.resumes = true) :
    es.filter starts = due := by
  obtain ⟨before, after, rfl, hbefore, hafter, -, hall⟩ := h
  have hne : after ≠ [] := by
    rintro rfl
    rw [List.append_nil] at he
    simp [hbefore e he] at hr
  rw [List.filter_append, hall hne, filter_eq_nil_of_forall hafter, List.append_nil]

/-- And none of it happens afterwards. -/
theorem pairwise (h : StartsFirst starts due es) :
    es.Pairwise fun e e' => e.resumes = true → starts e' = false := by
  obtain ⟨before, after, rfl, hbefore, hafter, -, -⟩ := h
  refine List.pairwise_append.2 ⟨?_, ?_, fun e he e' _ hr => by simp [hbefore e he] at hr⟩
  · exact List.pairwise_of_forall_mem_list fun e he _ _ hr => by simp [hbefore e he] at hr
  · exact List.pairwise_of_forall_mem_list fun _ _ e' he' _ => hafter e' he'

end StartsFirst

/-- What a job that opens so can be seen to do. -/
theorem Opens.startsFirst {starts : Event → Bool} {fails : α → Prop} {due es : List Event}
    {j : Job α} (h : j.Opens starts fails due) (hb : j.Begins es) : StartsFirst starts due es := by
  induction h generalizing es with
  | done a =>
    obtain rfl := begins_done hb
    exact .stopped _ _
  | failed due ha =>
    obtain rfl := begins_done hb
    exact .stopped _ _
  | start he hr _ ih =>
    cases hb with
    | stopped => exact .stopped _ _
    | emit n hb => exact (ih n hb).start he hr
  | other he hr _ ih =>
    cases hb with
    | stopped => exact .stopped _ _
    | emit n hb => exact (ih n hb).other he hr
  | suspend h =>
    cases hb with
    | stopped => exact .stopped _ _
    | suspend hb => exact .rest (h.of_begins hb)

end Job

end GraphQL
