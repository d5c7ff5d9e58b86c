/-
GraphQL.Proofs.OnePass — execution as one recursion.

An execution goes over its values several times: a fetched value is completed to a node
with objects left pending, the pending objects are resolved in jobs that take turns,
and the finished tree is folded into data. `Plan.onePass` does all of it at once. It
has no events, no turns, no pending nodes and no result tree: for an object value it
resolves the fields collected for its concrete type one by one, completes what comes
back by the type of the field, and has the answer of a position (`Answer`) when it
leaves it.

* `Environment.stands_answerValue` — completing a value and resolving what is pending
  in it comes to the answer of the value, by induction on the type.
* `Environment.stands_answerObject` — the job of an object comes to its answer, by
  induction on the levels.
* `Plan.onePass_mono` — a response of the recursion does not depend on how many levels
  it is granted.
* `Plan.runIn_refines_onePass` — if no resolver suspends, every plan has the response of
  the recursion in either mode, or both meet a fault.
-/
import GraphQL.Proofs.Prompt
import GraphQL.Proofs.Conformance
import GraphQL.Proofs.Resolvers

namespace GraphQL

/-! ## Answers -/

/-- What a position comes to. -/
structure Answer where
  /-- The errors raised at the position: those of its fetch, then those of its completion. -/
  raised : List ResponseError
  /-- The errors raised below it, position by position. -/
  below : List ResponseError
  /-- The errors of nulls at the position and below it that nothing has reported. -/
  nulls : List ResponseError
  /-- Its value; none if it fails upward. -/
  value? : Option Json

namespace Answer

/-- A value and no errors. -/
def value (v : Json) : Answer := ⟨[], [], [], some v⟩

/-- A null. Where null is excluded it fails upward, which is an error unless one has
been reported for it. -/
def null (p : Place) (reported : Bool) : Answer :=
  if p.isNonNull then
    { raised := []
      below := []
      nulls :=
        if reported then []
        else [p.error ("Cannot return null for non-nullable field \"" ++ p.coordinates ++ "\".")]
      value? := none }
  else .value .null

/-- A null with the error that is the reason for it. -/
def reject (p : Place) (message : String) : Answer :=
  { null p true with raised := [p.error message] }

/-- The value of a position with parts. If a part has failed the position is null, or
fails upward where null is excluded. -/
def absorb (p : Place) : Option Json → Option Json
  | some v => some v
  | none => if p.isNonNull then none else some .null

/-- A list from its items. All errors of completing them come before those below them. -/
def list (p : Place) (items : List Answer) : Answer :=
  { raised := items.flatMap raised
    below := items.flatMap below
    nulls := items.flatMap nulls
    value? := absorb p ((items.mapM value?).map .arr) }

/-- An object from its fields under their keys. -/
def object (p : Place) (fields : List (String × Answer)) : Answer :=
  { raised := []
    below := fields.flatMap fun f => f.2.raised ++ f.2.below
    nulls := fields.flatMap fun f => f.2.nulls
    value? := absorb p ((fields.mapM fun (f : String × Answer) =>
      f.2.value?.map (f.1, ·)).map .obj) }

end Answer

/-! ## The recursion -/

namespace Environment

/-- Answers the groups collected for an object value of a concrete type at a place. -/
abbrev Descend := String → Place → FieldGroups → Json → Pass Answer

variable (env : Environment)

/-- Resolve a field of an object value with its coerced arguments. -/
def answerFetch (source : Json) (d : FieldDefinition) (p : Place) (g : FieldGroup) :
    Pass Fetched :=
  match coerceArgumentValues env.schema env.scope.vars d.arguments.items g.arguments with
  | .error e =>
    pure (.failed (p.error ("Argument error on field \"" ++ g.name ++ "\": " ++ e.message)))
  | .ok arguments => do
    let outcome ← modifyGet (d.resolver (env.call source arguments p)).outcomeFrom
    pure (.ofOutcome p g.position outcome)

/-- Serialize a leaf. -/
def answerLeaf (p : Place) : Except Misfit Json → Answer
  | .ok .null => .null p false
  | .ok v => .value v
  | .error e => .reject p e.message

/-- Complete a value that is not null at a named type. The sub-selections of the group
are collected for the concrete type of an object value. -/
def answerNamed (descend : Descend) (g : FieldGroup) (name : String) (p : Place) (v : Json) :
    Pass Answer :=
  match env.schema.type? name with
  | some (.scalar t) => pure (answerLeaf p (t.coercion.toResult v))
  | some (.enum t) => pure (answerLeaf p (t.toResult v))
  | some (.object t) => descend t.name p (env.scope.subGroups g t.name) v
  | some (.interface _) | some (.union _) =>
    match env.schema.concreteType? name v with
    | some t => descend t.name p (env.scope.subGroups g t.name) v
    | none => pure (.reject p
        ("Could not determine the concrete type of abstract type \"" ++ name ++ "\"."))
  | some (.inputObject _) | none => failure

/-- Complete a value at a position whose type, outer non-null wrappers aside, is `type`. -/
def answerValue (descend : Descend) (g : FieldGroup) :
    (type : TypeExpr) → Place → Json → Bool → Pass Answer
  | .nonNull t, p, v, reported => answerValue descend g t p v reported
  | .list t, p, v, reported =>
    match v with
    | .null => pure (.null p reported)
    | .arr items => do
      let answers ← items.zipIdx.mapM fun x =>
        answerValue descend g t (p.item x.2 t) x.1 false
      pure (.list p answers)
    | v => pure (.reject p
        ("Expected a list for field \"" ++ p.coordinates ++ "\", found " ++ v.text ++ "."))
  | .named name, p, v, reported =>
    match v with
    | .null => pure (.null p reported)
    | v => env.answerNamed descend g name p v

/-- Resolve a field of an object value and complete what comes back; none if the type of
the object does not declare it. -/
def answerField (descend : Descend) (object : String) (source : Json) (parent : Place)
    (g : FieldGroup) : Pass (Option (String × Answer)) :=
  if g.name = "__typename" then
    pure (some (g.key, .value (.str object)))
  else
    match env.schema.field? object g.name with
    | none => pure none
    | some d => do
      let p := parent.field g.key g object d.type
      let x ← env.answerFetch source d p g
      let a ← env.answerValue descend g d.type p x.value (!x.errors.isEmpty)
      pure (some (g.key, { a with raised := x.errors ++ a.raised }))

/-- Resolve the fields of an object value in order. -/
def answerObject : (levels : Nat) → Descend
  | 0, _, _, _, _ => failure
  | n + 1, object, p, gs, source => do
    let fields ← gs.mapM (env.answerField (answerObject n) object source p)
    pure (.object p (fields.filterMap id))

end Environment

/-- Execute a plan in one recursion of at most so many levels; none if it meets a fault. -/
def Plan.onePass (p : Plan) (levels : Nat) (s : Schema) (source : Json) (data : RequestData) :
    Option Response :=
  let groups := (Scope.ofDocument s p.document p.vars).groups p.root p.operation.selections
  (((p.environment s data).answerObject levels p.root (.root p.root) groups source).run 0).map
    fun r => ⟨some (r.1.value?.getD .null), r.1.below ++ r.1.nulls⟩

/-! ## More levels

The bound on the levels only matters where the recursion exceeds it.
-/

/-- The second pass comes to whatever the first one comes to. -/
def Pass.Le {α : Type} (x y : Pass α) : Prop := ∀ n r, x.run n = some r → y.run n = some r

namespace Pass.Le

variable {α β : Type}

theorem refl (x : Pass α) : Le x x := fun _ _ h => h

theorem failure (x : Pass α) : Le failure x := fun _ _ h => nomatch h

theorem bind {x y : Pass α} (h : Le x y) {f g : α → Pass β} (hfg : ∀ a, Le (f a) (g a)) :
    Le (x >>= f) (y >>= g) := by
  intro n r hr
  rw [StateT.run_bind] at hr ⊢
  obtain ⟨a, ha, hf⟩ := Option.bind_eq_some_iff.1 hr
  exact Option.bind_eq_some_iff.2 ⟨a, h n a ha, hfg a.1 a.2 r hf⟩

theorem mapM {f g : α → Pass β} (hfg : ∀ a, Le (f a) (g a)) (xs : List α) :
    Le (xs.mapM f) (xs.mapM g) := by
  induction xs with
  | nil => exact .refl _
  | cons x xs ih =>
    rw [List.mapM_cons, List.mapM_cons]
    exact (hfg x).bind fun a => ih.bind fun as => .refl _

end Pass.Le

namespace Environment

variable {env : Environment} {descend descend' : Descend}

theorem le_answerNamed (h : ∀ o p gs v, Pass.Le (descend o p gs v) (descend' o p gs v))
    (g : FieldGroup) (name : String) (p : Place) (v : Json) :
    Pass.Le (env.answerNamed descend g name p v) (env.answerNamed descend' g name p v) := by
  unfold answerNamed
  cases env.schema.type? name with
  | none => exact .failure _
  | some t =>
    cases t with
    | scalar t => exact .refl _
    | enum t => exact .refl _
    | object t => exact h _ _ _ _
    | interface t | union t =>
      cases env.schema.concreteType? name v with
      | none => exact .refl _
      | some o => exact h _ _ _ _
    | inputObject t => exact .failure _

theorem le_answerValue (h : ∀ o p gs v, Pass.Le (descend o p gs v) (descend' o p gs v))
    (g : FieldGroup) (t : TypeExpr) : ∀ (p : Place) (v : Json) (reported : Bool),
      Pass.Le (env.answerValue descend g t p v reported)
        (env.answerValue descend' g t p v reported) := by
  induction t with
  | named name =>
    intro p v reported
    cases v with
    | null => exact .refl _
    | _ => exact le_answerNamed h g name p _
  | nonNull t ih => exact ih
  | list t ih =>
    intro p v reported
    cases v with
    | arr items => exact (Pass.Le.mapM (fun x => ih _ _ _) _).bind fun as => .refl _
    | _ => exact .refl _

theorem le_answerField (h : ∀ o p gs v, Pass.Le (descend o p gs v) (descend' o p gs v))
    (object : String) (source : Json) (parent : Place) (g : FieldGroup) :
    Pass.Le (env.answerField descend object source parent g)
      (env.answerField descend' object source parent g) := by
  unfold answerField
  split
  · exact .refl _
  · split
    · exact .refl _
    · exact (Pass.Le.refl _).bind fun x => (le_answerValue h g _ _ _ _).bind fun a => .refl _

/-- An answer within some levels is the answer within any more. -/
theorem le_answerObject {levels levels' : Nat} (h : levels ≤ levels') (object : String)
    (p : Place) (gs : FieldGroups) (v : Json) :
    Pass.Le (env.answerObject levels object p gs v) (env.answerObject levels' object p gs v) := by
  induction levels generalizing levels' object p gs v with
  | zero => exact .failure _
  | succ levels ih =>
    obtain ⟨more, rfl⟩ : ∃ more, levels' = more + 1 := ⟨levels' - 1, by omega⟩
    have hbelow : ∀ o p gs v,
        Pass.Le (env.answerObject levels o p gs v) (env.answerObject more o p gs v) :=
      fun o p gs v => ih (by omega) o p gs v
    rw [answerObject, answerObject]
    exact (Pass.Le.mapM (le_answerField hbelow object v p) gs).bind fun fields => .refl _

end Environment

theorem Plan.onePass_mono {p : Plan} {levels levels' : Nat} (h : levels ≤ levels') {s : Schema}
    {source : Json} {data : RequestData} {a : Response}
    (ha : p.onePass levels s source data = some a) :
    p.onePass levels' s source data = some a := by
  obtain ⟨r, hr, rfl⟩ := Option.map_eq_some_iff.1 ha
  exact Option.map_eq_some_iff.2 ⟨r, Environment.le_answerObject h _ _ _ _ 0 r hr, rfl⟩

/-! ## Passes that agree -/

/-- Both passes come to nothing, or to related values with the same log. -/
def Pass.Agree {α β : Type} (R : α → β → Prop) (x : Pass α) (y : Pass β) : Prop :=
  ∀ n, Option.Rel (fun a b => R a.1 b.1 ∧ a.2 = b.2) (x.run n) (y.run n)

namespace Pass.Agree

variable {α β γ δ : Type} {R : α → β → Prop} {S : γ → δ → Prop}

theorem pure {a : α} {b : β} (h : R a b) : Agree R (pure a) (pure b) :=
  fun _ => .some ⟨h, rfl⟩

theorem refl (x : Pass α) : Agree (· = ·) x x := by
  intro n
  cases x.run n with
  | none => exact .none
  | some a => exact .some ⟨rfl, rfl⟩

theorem failure : Agree R failure failure :=
  fun _ => .none

theorem bind {x : Pass α} {y : Pass β} (h : Agree R x y) {f : α → Pass γ} {g : β → Pass δ}
    (hfg : ∀ a b, R a b → Agree S (f a) (g b)) : Agree S (x >>= f) (y >>= g) := by
  intro n
  rw [StateT.run_bind, StateT.run_bind]
  have hn := h n
  generalize x.run n = rx, y.run n = ry at hn
  cases hn with
  | none => exact .none
  | @some a b hab =>
    obtain ⟨hR, hlog⟩ := hab
    have hrest := hfg a.1 b.1 hR a.2
    rw [Option.bind_eq_bind, Option.bind_some, Option.bind_eq_bind, Option.bind_some, ← hlog]
    exact hrest

/-- What follows a pass that agrees with a fault is left out. -/
theorem bind_of_failure {y : Pass β} (h : Agree R (Alternative.failure : Pass α) y)
    (g : β → Pass δ) : Agree S (Alternative.failure : Pass γ) (y >>= g) := by
  intro n
  rw [StateT.run_bind]
  have hn := h n
  generalize hx : (Alternative.failure : Pass α).run n = rx, y.run n = ry at hn
  cases hn with
  | none => exact .none
  | some _ => simp [StateT.run, Alternative.failure, StateT.failure] at hx

theorem map {x : Pass α} {y : Pass β} (h : Agree R x y) {f : α → γ} {g : β → δ}
    (hfg : ∀ a b, R a b → S (f a) (g b)) : Agree S (f <$> x) (g <$> y) := by
  rw [map_eq_pure_bind, map_eq_pure_bind]
  exact h.bind fun a b hab => .pure (hfg a b hab)

end Pass.Agree

/-! ## Nodes and answers -/

/-- What a position contributes to the data, from its value. -/
def Settled.ofValue? : Option Json → Settled
  | some v => .value v
  | none => .collapsed

/-- A resolved node, with the errors raised on the way, stands for an answer that has
raised errors of its own. -/
structure Stands (raised : List ResponseError) (x : List ResponseError × Node) (a : Answer) :
    Prop where
  raised : a.raised = raised
  below : a.below = x.1
  settle : x.2.settle = .ok (a.nulls, .ofValue? a.value?)

/-- The same of the items of a list. -/
structure ItemsStand (raised : List ResponseError) (x : List ResponseError × List Node)
    (as : List Answer) : Prop where
  raised : as.flatMap Answer.raised = raised
  below : as.flatMap Answer.below = x.1
  settle : Node.settleItems x.2 = .ok (as.flatMap Answer.nulls, as.mapM Answer.value?)

namespace Stands

variable {p : Place} {es : List ResponseError}

theorem value (v : Json) (hv : v ≠ .null) : Stands [] ([], .leaf p v) (.value v) where
  raised := rfl
  below := rfl
  settle := Node.settle_leaf_of_ne_null p hv

theorem settleNull_eq (p : Place) (reported : Bool) :
    Node.settleNull p reported =
      ((Answer.null p reported).nulls, .ofValue? (Answer.null p reported).value?) := by
  unfold Node.settleNull Answer.null
  split <;> rfl

theorem null (p : Place) (reported : Bool) :
    Stands [] ([], .null p reported) (.null p reported) where
  raised := by unfold Answer.null; split <;> rfl
  below := by unfold Answer.null; split <;> rfl
  settle := congrArg Except.ok (settleNull_eq p reported)

theorem reject (p : Place) (message : String) :
    Stands [p.error message] ([], .null p true) (.reject p message) where
  raised := rfl
  below := (null p true).below
  settle := (null p true).settle

theorem settleParts_eq (p : Place) (parts : Option Json) :
    Node.settleParts p parts = .ofValue? (Answer.absorb p parts) := by
  unfold Node.settleParts Answer.absorb
  cases parts with
  | some v => rfl
  | none => cases hp : p.isNonNull <;> rfl

theorem list {ns : List Node} {fs : List ResponseError} {as : List Answer}
    (h : ItemsStand es (fs, ns) as) : Stands es (fs, .list p ns) (.list p as) where
  raised := h.raised
  below := h.below
  settle := by
    rw [Node.settle, h.settle, Except.map, settleParts_eq]
    rfl

end Stands

namespace ItemsStand

theorem nil : ItemsStand [] ([], []) [] := ⟨rfl, rfl, rfl⟩

theorem joinPart_eq {α : Type} (mk : Json → α) (v? : Option Json) (rest : Option (List α)) :
    Node.joinPart mk (.ofValue? v?) rest =
      v?.bind fun v => rest.bind fun vs => some (mk v :: vs) := by
  cases v? <;> cases rest <;> rfl

theorem cons {es es' fs fs' : List ResponseError} {n : Node} {ns : List Node} {a : Answer}
    {as : List Answer} (h : Stands es (fs, n) a) (hs : ItemsStand es' (fs', ns) as) :
    ItemsStand (es ++ es') (fs ++ fs', n :: ns) (a :: as) where
  raised := by rw [List.flatMap_cons, h.raised, hs.raised]
  below := by rw [List.flatMap_cons, h.below, hs.below]
  settle := by
    rw [Node.settleItems, h.settle, hs.settle]
    simp only [Except.map, joinPart_eq, List.flatMap_cons, List.mapM_cons]
    rfl

end ItemsStand

/-! ## Values -/

namespace Environment

variable {env : Environment} {jobs : SubSelection → NodeJob} {descend : Descend}

/-- What is pending in a completed value resolved. -/
def resolved (jobs : SubSelection → NodeJob) (c : Completion Node) :
    Pass (List ResponseError × Node) :=
  match c.outcome with
  | .ok n => (resolvePending jobs n).pass
  | .error _ => failure

/-- What is pending in completed items resolved in order. -/
def resolvedItems (jobs : SubSelection → NodeJob) (c : Completion (List Node)) :
    Pass (List ResponseError × List Node) :=
  match c.outcome with
  | .ok ns => Pass.gather (ns.map fun n => (resolvePending jobs n).pass)
  | .error _ => failure

/-- Completing all items before resolving what is pending in the first comes to the same
as item after item. -/
theorem resolvedItems_each_cons {α : Type} (f : Nat → α → Completion Node) (i : Nat) (x : α)
    (xs : List α) :
    resolvedItems jobs (.each f i (x :: xs)) =
      resolved jobs (f i x) >>= fun a => resolvedItems jobs (.each f (i + 1) xs) >>= fun as =>
        pure (a.1 ++ as.1, a.2 :: as.2) := by
  cases hx : (f i x).outcome with
  | error e =>
    simp only [resolvedItems, resolved, Completion.each, hx]
    rfl
  | ok n =>
    cases hxs : (Completion.each f (i + 1) xs).outcome with
    | error e =>
      simp only [resolvedItems, resolved, Completion.each, hx, hxs, Except.map]
      funext m
      change none = ((resolvePending jobs n).pass.run m).bind fun _ => none
      rw [Option.bind_fun_none]
    | ok ns =>
      simp only [resolvedItems, resolved, Completion.each, hx, hxs, Except.map]
      exact Pass.gather_cons _ _

/-- A list is resolved when its items are. -/
theorem resolved_list (hjobs : ∀ sub, (jobs sub).Prompt) (p : Place)
    (c : Completion (List Node)) :
    resolved jobs (c.map (.list p)) =
      (fun x => (x.1, .list p x.2)) <$> resolvedItems jobs c := by
  cases hc : c.outcome with
  | error e =>
    simp only [resolved, resolvedItems, Completion.map, hc, Except.map]
    rfl
  | ok ns =>
    have hmap : (c.map (Node.list p)).outcome = .ok (Node.list p ns) := by
      simp only [Completion.map, hc]
      rfl
    simp only [resolved, resolvedItems, hc, hmap]
    rw [resolvePending, Job.pass_map, Job.pass_allOk (prompt_resolvePendingItems hjobs ns),
      resolvePendingItems_eq, List.map_map]
    rfl

/-- The jobs of pending objects and a recursion come to the same. -/
def Mirrors (jobs : SubSelection → NodeJob) (descend : Descend) : Prop :=
  ∀ object p gs v, Pass.Agree (Stands [])
    (jobs ⟨v, p.withConcreteType object, gs⟩).pass (descend object p gs v)

variable {g : FieldGroup} {p : Place} {v : Json}

theorem stands_reject (message : String) :
    Pass.Agree (Stands (reject p message).errors) (resolved jobs (reject p message))
      (pure (.reject p message)) := by
  change Pass.Agree _ (pure ([], Node.null p true)) _
  exact .pure (.reject p message)

theorem stands_null (reported : Bool) :
    Pass.Agree (Stands []) (resolved jobs (.ok (.null p reported))) (pure (.null p reported)) := by
  change Pass.Agree _ (pure ([], Node.null p reported)) _
  exact .pure (.null p reported)

theorem stands_leaf (r : Except Misfit Json) :
    Pass.Agree (Stands (leaf p r).errors) (resolved jobs (leaf p r)) (pure (answerLeaf p r)) := by
  cases r with
  | error e => exact stands_reject e.message
  | ok w =>
    change Pass.Agree _ (pure ([], Node.leaf p w)) _
    by_cases hw : w = .null
    · subst hw
      -- A leaf that serializes to null is folded like a null.
      have hnull := Stands.null p false
      exact .pure ⟨hnull.raised, hnull.below, hnull.settle⟩
    · have hanswer : answerLeaf p (.ok w) = .value w := by
        cases w with
        | null => exact absurd rfl hw
        | _ => rfl
      rw [hanswer]
      exact .pure (.value w hw)

theorem stands_pendingObject (h : Mirrors jobs descend) (hg : p.group? = some g)
    (object : String) (v : Json) :
    Pass.Agree (Stands []) (resolved jobs (.ok (env.pendingObject p object v)))
      (descend object p (env.scope.subGroups g object) v) := by
  have hpending : env.pendingObject p object v =
      .pending ⟨v, p.withConcreteType object, env.scope.subGroups g object⟩ := by
    have hgroup : (p.withConcreteType object).group? = some g := hg
    simp only [pendingObject, hgroup]
  rw [hpending]
  exact h object p (env.scope.subGroups g object) v

theorem stands_answerNamed (h : Mirrors jobs descend) (hg : p.group? = some g) (name : String)
    (v : Json) :
    Pass.Agree (Stands (env.completeNamed p name v).errors)
      (resolved jobs (env.completeNamed p name v)) (env.answerNamed descend g name p v) := by
  unfold completeNamed answerNamed
  cases env.schema.type? name with
  | none => exact .failure
  | some t =>
    cases t with
    | scalar t => exact stands_leaf _
    | enum t => exact stands_leaf _
    | object t => exact stands_pendingObject h hg t.name v
    | interface t | union t =>
      cases env.schema.concreteType? name v with
      | none => exact stands_reject _
      | some o => exact stands_pendingObject h hg o.name v
    | inputObject t => exact .failure

/-- Items completed by one rule, one after the other. -/
theorem stands_items {f : Nat → Json → Completion Node} {answer : Json × Nat → Pass Answer}
    (h : ∀ x i, Pass.Agree (Stands (f i x).errors) (resolved jobs (f i x)) (answer (x, i)))
    (xs : List Json) (i : Nat) :
    Pass.Agree (ItemsStand (Completion.each f i xs).errors)
      (resolvedItems jobs (.each f i xs)) ((xs.zipIdx i).mapM answer) := by
  induction xs generalizing i with
  | nil => exact .pure .nil
  | cons x xs ih =>
    rw [List.zipIdx_cons, List.mapM_cons]
    cases hx : (f i x).outcome with
    | error e =>
      have hfirst : resolved jobs (f i x) = failure := by simp only [resolved, hx]
      have hall : resolvedItems jobs (.each f i (x :: xs)) = failure := by
        simp only [resolvedItems, Completion.each, hx]
      have hagree := h x i
      rw [hfirst] at hagree
      rw [hall]
      exact hagree.bind_of_failure _
    | ok n =>
      have herrors : (Completion.each f i (x :: xs)).errors =
          (f i x).errors ++ (Completion.each f (i + 1) xs).errors := by
        simp only [Completion.each, hx]
      rw [herrors, resolvedItems_each_cons]
      refine (h x i).bind fun a b hab => (ih (i + 1)).bind fun as bs habs => .pure ?_
      exact .cons hab habs

variable (env) in
/-- Completing a value and resolving what is pending in it comes to the answer of the
value. -/
theorem stands_answerValue (hjobs : ∀ sub, (jobs sub).Prompt) (h : Mirrors jobs descend)
    (t : TypeExpr) : ∀ (p : Place) (v : Json) (reported : Bool), p.group? = some g →
      Pass.Agree (Stands (env.completeValue t p v reported).errors)
        (resolved jobs (env.completeValue t p v reported))
        (env.answerValue descend g t p v reported) := by
  induction t with
  | named name =>
    intro p v reported hg
    cases v with
    | null => exact stands_null reported
    | _ => exact stands_answerNamed h hg name _
  | nonNull t ih => exact ih
  | list t ih =>
    intro p v reported hg
    cases v with
    | null => exact stands_null reported
    | arr items =>
      let complete (i : Nat) (x : Json) := env.completeValue t (p.item i t) x false
      have hitems : Pass.Agree (ItemsStand (Completion.each complete 0 items).errors)
          (resolvedItems jobs (.each complete 0 items)) (items.zipIdx.mapM fun x =>
            env.answerValue descend g t (p.item x.2 t) x.1 false) :=
        stands_items (fun x i => ih (p.item i t) x false hg) items 0
      have hlist := hitems.map (S := Stands _) (f := fun x => (x.1, Node.list p x.2))
        (g := Answer.list p) fun _ _ hx => .list hx
      rw [map_eq_pure_bind (Answer.list p)] at hlist
      rw [← resolved_list hjobs] at hlist
      exact hlist
    | _ => exact stands_reject _

/-! ## Fields -/

/-- What a field of an object comes to in a job stands for its entry in the answer. -/
inductive FieldStands (g : FieldGroup) :
    List ResponseError × Option Node → Option (String × Answer) → Prop
  | none : FieldStands g ([], none) none
  | some {es : List ResponseError} {n : Node} {a : Answer} (below : es = a.raised ++ a.below)
      (settle : n.settle = .ok (a.nulls, .ofValue? a.value?)) :
      FieldStands g (es, some n) (some (g.key, a))

/-- Fetching a field comes to its fetch in the recursion, and raises nothing itself. -/
theorem run_fetchField (source : Json) (d : FieldDefinition) (hg : p.group? = some g) (n : Nat) :
    (env.answerFetch source d p g).run n =
      some (((env.fetchField source d p).run n).2,
        n + Job.logSize ((env.fetchField source d p).run n).1) := by
  simp only [fetchField, answerFetch, hg]
  cases coerceArgumentValues env.schema env.scope.vars d.arguments.items g.arguments with
  | error e => rfl
  | ok arguments =>
    have hjob := (d.resolver (env.call source arguments p)).run_job p.path n
    have hgrowth : Job.logGrowth (.invoked (env.call source arguments p)) = 0 := rfl
    simp only [call, FieldDefinition.resolver] at hjob hgrowth
    simp only [Job.run, Job.run_map, hgrowth, Nat.add_zero, Job.logSize_cons, Nat.zero_add,
      StateT.run_bind, StateT.run_modifyGet, call, FieldDefinition.resolver, ← hjob]
    rfl

/-- The job of a declared field: its fetch, and what the value comes to. -/
theorem pass_declared (source : Json) (d : FieldDefinition) (hg : p.group? = some g) :
    ((env.fetchField source d p).bind fun x =>
      let a := env.completeValue d.type p x.value (!x.errors.isEmpty)
      Job.raiseAll (x.errors ++ a.errors) <|
        match a.outcome with
        | .error f => .done (.error f)
        | .ok node => (resolvePending jobs node).map fun r => r.map some).pass =
      env.answerFetch source d p g >>= fun x =>
        let a := env.completeValue d.type p x.value (!x.errors.isEmpty)
        (fun y => (x.errors ++ a.errors ++ y.1, some y.2)) <$> resolved jobs a := by
  funext n
  have hquiet : Event.errors ((env.fetchField source d p).run n).1 = [] :=
    (fetchEnds_of_ends (Job.ends_run (env.fetchField source d p) n)).errors_eq
  refine (Job.pass_bind _ _ n).trans ?_
  change _ = (env.answerFetch source d p g >>= _).run n
  rw [StateT.run_bind, run_fetchField source d hg n, hquiet]
  generalize ((env.fetchField source d p).run n).2 = x
  generalize n + Job.logSize ((env.fetchField source d p).run n).1 = m
  simp only [List.nil_append, Option.bind_eq_bind, Option.bind_some, Job.pass_raiseAll,
    Option.map_id']
  cases hc : (env.completeValue d.type p x.value (!x.errors.isEmpty)).outcome with
  | error e =>
    simp only [resolved, hc]
    rfl
  | ok node =>
    simp only [resolved, hc, Job.pass_map, StateT.run_map, Option.map_eq_map, Option.map_map]
    rfl

theorem stands_answerField (hjobs : ∀ sub, (jobs sub).Prompt) (h : Mirrors jobs descend)
    (object : String) (source : Json) (p : Place) (g : FieldGroup) :
    Pass.Agree (FieldStands g)
      (env.fieldJob jobs source (p.withConcreteType object) g).pass
      (env.answerField descend object source p g) := by
  have htype : (p.withConcreteType object).concreteType? = some object := rfl
  unfold fieldJob answerField
  rw [htype]
  by_cases hname : g.name = "__typename"
  · simp only [hname, if_true]
    change Pass.Agree _ (pure ([], some (Node.leaf _ (.str object)))) _
    exact .pure (.some rfl (Node.settle_leaf_of_ne_null _ (by simp)))
  · simp only [hname, if_false]
    cases env.schema.field? object g.name with
    | none =>
      change Pass.Agree _ (pure ([], none)) _
      exact .pure .none
    | some d =>
      let at_ := p.field g.key g object d.type
      have hgroup : at_.group? = some g := rfl
      refine Eq.subst (motive := fun x => Pass.Agree (FieldStands g) x _)
        (pass_declared source d hgroup).symm ?_
      refine (Pass.Agree.refl _).bind fun x y hxy => ?_
      subst hxy
      have hvalue := env.stands_answerValue hjobs h d.type at_ x.value
        (!x.errors.isEmpty) hgroup
      rw [← map_eq_pure_bind]
      refine hvalue.map fun y a hy => ?_
      refine .some ?_ hy.settle
      simp [hy.raised, hy.below]

/-! ## Objects -/

/-- What the fields of an object come to in jobs stands for their entries in the answer. -/
structure FieldsStand (gs : FieldGroups) (x : List ResponseError × List (Option Node))
    (fields : List (String × Answer)) : Prop where
  below : fields.flatMap (fun f => f.2.raised ++ f.2.below) = x.1
  settle : Node.settleChildren (children gs x.2) =
    .ok (fields.flatMap fun f => f.2.nulls, fields.mapM fun f => f.2.value?.map (f.1, ·))

theorem FieldsStand.cons {gs : FieldGroups} {x : List ResponseError × Option Node}
    {xs : List ResponseError × List (Option Node)} {f? : Option (String × Answer)}
    {fields : List (String × Answer)} (h : FieldStands g x f?) (hs : FieldsStand gs xs fields) :
    FieldsStand (g :: gs) (x.1 ++ xs.1, x.2 :: xs.2) (f?.toList ++ fields) := by
  cases h with
  | none =>
    refine ⟨hs.below, ?_⟩
    simp only [children_cons]
    exact hs.settle
  | @some es n a hbelow hsettle =>
    refine ⟨by simp [hs.below, hbelow], ?_⟩
    simp only [children_cons, Option.map_some, Option.toList_some, List.singleton_append,
      Node.settleChildren, hsettle, hs.settle, Except.map, ItemsStand.joinPart_eq,
      List.flatMap_cons, List.mapM_cons]
    cases a.value? <;> rfl

variable (env) in
theorem stands_fields (hjobs : ∀ sub, (jobs sub).Prompt) (h : Mirrors jobs descend)
    (object : String) (source : Json) (p : Place) (gs : FieldGroups) :
    Pass.Agree (FieldsStand gs)
      (Pass.gather ((gs.map (env.fieldJob jobs source (p.withConcreteType object))).map Job.pass))
      ((fun fields => fields.filterMap id) <$>
        gs.mapM (env.answerField descend object source p)) := by
  induction gs with
  | nil => exact .pure ⟨rfl, rfl⟩
  | cons g gs ih =>
    rw [List.map_cons, List.map_cons, Pass.gather_cons, List.mapM_cons]
    have hcons : ∀ (x : Pass (Option (String × Answer)))
        (xs : Pass (List (Option (String × Answer)))),
        ((fun fields => fields.filterMap id) <$> (x >>= fun f => xs >>= fun fs => pure (f :: fs)))
          = x >>= fun f => ((fun fields => fields.filterMap id) <$> xs) >>= fun fs =>
            pure (f.toList ++ fs) := by
      intro x xs
      simp only [map_bind, map_pure, bind_map_left]
      congr 1
      funext f
      cases f <;> rfl
    rw [hcons]
    refine (stands_answerField hjobs h object source p g).bind fun x f? hx => ?_
    exact ih.bind fun xs fields hxs => .pure (.cons hx hxs)

variable (env) in
/-- The job of an object comes to the answer of the object, in either mode. -/
theorem stands_answerObject (hs : env.schema.Prompt) (levels : Nat) (mode : Mode)
    (object : String) (p : Place) (gs : FieldGroups) (v : Json) :
    Pass.Agree (Stands []) (env.objectJob levels mode ⟨v, p.withConcreteType object, gs⟩).pass
      (env.answerObject levels object p gs v) := by
  induction levels generalizing mode object p gs v with
  | zero => exact .failure
  | succ levels ih =>
    have hjobs : ∀ sub, (env.objectJob levels .parallel sub).Prompt :=
      prompt_objectJob hs levels .parallel
    have hmirrors : Mirrors (env.objectJob levels .parallel) (env.answerObject levels) :=
      ih .parallel
    have hprompt : ∀ j ∈ gs.map (env.fieldJob (env.objectJob levels .parallel) v
        (p.withConcreteType object)), j.Prompt := by
      intro j hj
      obtain ⟨g, _, rfl⟩ := List.mem_map.1 hj
      exact prompt_fieldJob hs hjobs v _ g
    have hjoin : (env.objectJob (levels + 1) mode ⟨v, p.withConcreteType object, gs⟩).pass =
        (fun x => (x.1, .object (p.withConcreteType object) (children gs x.2))) <$>
          Pass.gather ((gs.map (env.fieldJob (env.objectJob levels .parallel) v
            (p.withConcreteType object))).map Job.pass) := by
      unfold objectJob
      cases mode with
      | parallel => rw [Job.pass_map, Job.pass_all hprompt]
      | serial => rw [Job.pass_map, Job.pass_inOrder]
    have hfields := env.stands_fields hjobs hmirrors object v p gs
    rw [hjoin, answerObject]
    have hanswer : (do
        let fields ← gs.mapM (env.answerField (env.answerObject levels) object v p)
        pure (Answer.object p (fields.filterMap id)) : Pass Answer) =
        Answer.object p <$> ((fun fields => fields.filterMap id) <$>
          gs.mapM (env.answerField (env.answerObject levels) object v p)) := by
      rw [map_eq_pure_bind, bind_map_left]
    rw [hanswer]
    refine hfields.map fun x fields hx => ⟨rfl, hx.below, ?_⟩
    rw [Node.settle, hx.settle, Except.map, Stands.settleParts_eq]
    rfl

end Environment

/-! ## Plans -/

/-- If no resolver suspends, a plan comes to the response of the recursion, whichever mode
its fields are resolved in, or both meet a fault. -/
theorem Plan.result_runIn_eq_ok {s : Schema} (hs : s.Prompt) {p : Plan} {mode : Mode}
    {source : Json} {data : RequestData} {a : Response} :
    (p.runIn mode s source data).result = .ok a ↔
      p.onePass (Environment.levelsFor p.document) s source data = some a := by
  have hobject := (p.environment s data).stands_answerObject hs
    (Environment.levelsFor p.document) mode p.root (.root p.root)
    ((Scope.ofDocument s p.document p.vars).groups p.root p.operation.selections) source 0
  have hjob : (p.environment s data).objectJob (Environment.levelsFor p.document) mode
      ⟨source, (Place.root p.root).withConcreteType p.root,
        (Scope.ofDocument s p.document p.vars).groups p.root p.operation.selections⟩ =
      p.jobIn mode s source data := rfl
  rw [hjob] at hobject
  simp only [onePass, runIn]
  generalize ((p.environment s data).answerObject _ _ _ _ _).run 0 = answer at hobject ⊢
  rcases hrun : (p.jobIn mode s source data).run 0 with ⟨es, r⟩
  rw [Run.result_ofJob hrun]
  cases r with
  | error f =>
    rw [Job.pass_of_error hrun] at hobject
    cases hobject
    simp [Except.bind]
  | ok n =>
    rw [Job.pass_of_ok hrun] at hobject
    cases hobject with
    | @some _ b hab =>
      obtain ⟨⟨_, hbelow, hsettle⟩, _⟩ := hab
      have hdata : n.toData = .ok (b.1.value?.getD .null, b.1.nulls) := by
        rw [Node.toData, hsettle]
        cases b.1.value? <;> rfl
      simp only [Except.bind, Except.map, hdata, hbelow, Option.map_some, Except.ok.injEq,
        Option.some.injEq]

/-- If no resolver suspends, execution refines the recursion: a plan has a response exactly
if the recursion has it within the levels of an execution, and then the recursion has it
within any more. -/
theorem Plan.runIn_refines_onePass {s : Schema} (hs : s.Prompt) (p : Plan) (mode : Mode)
    (source : Json) (data : RequestData) (a : Response) :
    (p.runIn mode s source data).result = .ok a ↔
      ∀ levels, Environment.levelsFor p.document ≤ levels →
        p.onePass levels s source data = some a := by
  constructor
  · intro h levels hlevels
    exact onePass_mono hlevels ((result_runIn_eq_ok hs).1 h)
  · intro h
    exact (result_runIn_eq_ok hs).2 (h _ (Nat.le_refl _))

/-! ## Schemas that never wait -/

/-- A schema is prompt if the resolvers put on it are. -/
theorem Schema.prompt_withResolvers (s : Schema) {ρ : Resolvers}
    (h : ∀ type name r, ρ type name = some r → ∀ call, (r call).Prompt) :
    (s.withResolvers ρ).Prompt := by
  intro type name d hd call
  rw [field?_withResolvers] at hd
  obtain ⟨d', _, rfl⟩ := Option.map_eq_some_iff.1 hd
  have hresolver : (d'.withResolver (ρ type name)).resolver = (ρ type name).getD .property := rfl
  rw [hresolver]
  cases hr : ρ type name with
  | none => exact .finish _
  | some r => exact h type name r hr call

/-- Names are read late, with a complaint that counts the names read so far. -/
def blurredNames : Resolvers := fun _ name =>
  if name = "name" then
    some fun _ => .defer (.log "name" fun n =>
      .finish (.partialValue (.str "?") [.ofMessage ("blurred " ++ toString n)]))
  else none

/-- The things of the demonstration with their names. -/
def namedRequest : Request :=
  { demoRequest with text := "{ all: things { id name ... on Sailor { rank } } }" }

/-- The errors of the names come in the order of the things, that of the lost thing last. -/
def namedResponse : Response :=
  { data? := some (.obj [("all", .arr [
      .obj [("id", .str "s1"), ("name", .str "?"), ("rank", .str "MATE")], .null])])
    errors :=
      [⟨"blurred 1", [⟨1, 20⟩], some [.key "all", .index 0, .key "name"], none⟩,
       ⟨"blurred 2", [⟨1, 20⟩], some [.key "all", .index 1, .key "name"], none⟩,
       ⟨"Cannot return null for non-nullable field \"Ship.id\".", [⟨1, 17⟩],
         some [.key "all", .index 1, .key "id"], none⟩] }

theorem Plan.runIn_refines_onePass_demo :
    (demoSchema.withResolvers blurredNames).Prompt ∧
      ∃ p, namedRequest.plan (demoSchema.withResolvers blurredNames) = .ok p ∧
        ∀ levels, Environment.levelsFor p.document ≤ levels →
          p.onePass levels (demoSchema.withResolvers blurredNames) namedRequest.rootValue
            namedRequest.data =
          some namedResponse := by
  have hs : (demoSchema.withResolvers blurredNames).Prompt := by
    refine demoSchema.prompt_withResolvers fun type name r hr call => ?_
    unfold blurredNames at hr
    split at hr
    · obtain rfl := Option.some.inj hr
      exact .defer (.log fun n => .finish _)
    · simp at hr
  have hresult : (namedRequest.run (demoSchema.withResolvers blurredNames)).result =
      .ok namedResponse := by
    decide +kernel
  obtain ⟨p, hp, hrun⟩ := Request.runIn_eq_ok hresult
  exact ⟨hs, p, hp, (Plan.runIn_refines_onePass hs p p.mode _ _ _).1 hrun⟩

end GraphQL
