/-
GraphQL.Proofs.TwoRuns — two executions that differ in their resolvers.

Some paths are put out of view by a `Veil`: with a path, everything below it. Two
tables of resolvers agree in view if they give the same outcome to every call at a
path in view. What then happens below the veil is open, but nothing of it shows:

* `Environment.twins_objectJob` — two executions of a sub-selection, in any modes,
  either both meet a fault, or both give trees that are the same once every node
  out of view is pruned, having raised the same errors in view; only if something
  is out of view may one of them meet a fault alone.

With nothing out of view this says that schedules do not matter; with everything
below one position out of view, that a failure there stays there. The relation of
the two runs is `Alike`; `Alike.joined` carries it through the three joins, by
induction on the jobs, and the levels are an induction over the bound.
-/
import GraphQL.Proofs.Resolvers

namespace GraphQL

/-! ## What is in view -/

/-- Paths that are out of view: with a path, everything below it. -/
structure Veil where
  hides : Path → Bool
  below : ∀ a b, hides a = true → hides (a ++ b) = true

namespace Veil

/-- Everything is in view. -/
def clear : Veil := ⟨fun _ => false, fun _ _ h => h⟩

/-- A path is out of view, and what is below it. -/
def covering (q : Path) : Veil where
  hides a := q.isPrefixOf a
  below a b h := by
    rw [List.isPrefixOf_iff_prefix] at h ⊢
    exact h.trans (List.prefix_append a b)

/-- Whether an error is in view. -/
def shows (w : Veil) (e : ResponseError) : Bool := !e.path?.any w.hides

/-- The errors in view that some events raise, in any order. -/
def errors (w : Veil) (es : List Event) : Multiset ResponseError :=
  (Event.errors es).filter w.shows

variable (w : Veil)

theorem errors_append (es fs : List Event) : w.errors (es ++ fs) = w.errors es + w.errors fs := by
  rw [errors, Event.errors_append, List.filter_append, ← Multiset.coe_add]
  rfl

theorem errors_interleaves {es fs both : List Event} (h : Interleaves es fs both) :
    w.errors both = w.errors es + w.errors fs := by
  rw [← errors_append]
  exact Multiset.coe_eq_coe.2 ((h.perm.filterMap _).filter _)

/-- Nothing shows of what happens out of view. -/
theorem errors_eq_zero {a : Path} {es : List Event} (ha : w.hides a = true)
    (h : ∀ e ∈ Event.errors es, e.Under a) : w.errors es = 0 := by
  refine congrArg _ (List.filter_eq_nil_iff.2 fun e he => ?_)
  obtain ⟨b, hb⟩ := h e he
  simp [shows, hb, w.below a b ha]

end Veil

namespace Node

mutual

/-- The tree with a null in place of every position that is out of view. -/
def prune (w : Veil) : Node → Node
  | .leaf p v => if w.hides p.path then .null p.untyped true else .leaf p v
  | .null p reported => if w.hides p.path then .null p.untyped true else .null p reported
  | .object p children =>
    if w.hides p.path then .null p.untyped true else .object p (pruneChildren w children)
  | .list p items =>
    if w.hides p.path then .null p.untyped true else .list p (pruneItems w items)
  | .pending sub => if w.hides sub.place.path then .null sub.place.untyped true else .pending sub

/-- The children of an object, pruned. -/
def pruneChildren (w : Veil) : List (String × Node) → List (String × Node)
  | [] => []
  | (key, n) :: rest => (key, prune w n) :: pruneChildren w rest

/-- The items of a list, pruned. -/
def pruneItems (w : Veil) : List Node → List Node
  | [] => []
  | n :: rest => prune w n :: pruneItems w rest

end

variable {w : Veil}

theorem prune_of_hides {n : Node} (h : w.hides n.place.path = true) :
    n.prune w = .null n.place.untyped true := by
  cases n with
  | leaf p v => exact if_pos h
  | null p reported => exact if_pos h
  | object p children => rw [prune]; exact if_pos h
  | list p items => rw [prune]; exact if_pos h
  | pending sub => exact if_pos h

theorem prune_leaf {p : Place} (h : w.hides p.path = false) (v : Json) :
    prune w (.leaf p v) = .leaf p v := by
  rw [prune, h]
  rfl

theorem prune_null {p : Place} (h : w.hides p.path = false) (reported : Bool) :
    prune w (.null p reported) = .null p reported := by
  rw [prune, h]
  rfl

theorem prune_pending {sub : SubSelection} (h : w.hides sub.place.path = false) :
    prune w (.pending sub) = .pending sub := by
  rw [prune, h]
  rfl

theorem prune_list {p : Place} (h : w.hides p.path = false) (items : List Node) :
    prune w (.list p items) = .list p (items.map (prune w)) := by
  have hitems : ∀ ns, pruneItems w ns = ns.map (prune w) := by
    intro ns
    induction ns with
    | nil => rfl
    | cons n ns ih => rw [pruneItems, ih, List.map_cons]
  rw [prune, h, hitems]
  rfl

theorem prune_object {p : Place} (h : w.hides p.path = false) (children : List (String × Node)) :
    prune w (.object p children) = .object p (children.map fun c => (c.1, prune w c.2)) := by
  have hchildren : ∀ cs, pruneChildren w cs = cs.map fun c => (c.1, prune w c.2) := by
    intro cs
    induction cs with
    | nil => rfl
    | cons c cs ih => rw [pruneChildren, ih, List.map_cons]
  rw [prune, h, hchildren]
  rfl

end Node

/-! ## Endings that look alike -/

section

variable {α β γ δ ι : Type} {w : Veil} {view : α → β} {es₁ es₂ fs₁ fs₂ : List Event}
  {r₁ r₂ : Except Fault α}

/-- Two endings look alike: the same values to view and the same errors in view, or a
fault both times. One of them may meet a fault alone if something is out of view. -/
def Alike (w : Veil) (view : α → β) (es₁ : List Event) (r₁ : Except Fault α) (es₂ : List Event)
    (r₂ : Except Fault α) : Prop :=
  match r₁, r₂ with
  | .ok a₁, .ok a₂ => view a₁ = view a₂ ∧ w.errors es₁ = w.errors es₂
  | .error _, .error _ => True
  | _, _ => ∃ a, w.hides a = true

namespace Alike

/-- Endings that are the same look alike. -/
theorem refl (w : Veil) (view : α → β) (es : List Event) (r : Except Fault α) :
    Alike w view es r es r := by
  cases r with
  | ok a => exact ⟨rfl, rfl⟩
  | error f => exact trivial

/-- Out of view it is enough to look at two values. -/
theorem of_hides {a : Path} (ha : w.hides a = true)
    (h : ∀ a₁ a₂, r₁ = .ok a₁ → r₂ = .ok a₂ →
      view a₁ = view a₂ ∧ w.errors es₁ = w.errors es₂) : Alike w view es₁ r₁ es₂ r₂ := by
  cases r₁ with
  | ok a₁ =>
    cases r₂ with
    | ok a₂ => exact h a₁ a₂ rfl rfl
    | error f => exact ⟨a, ha⟩
  | error f =>
    cases r₂ with
    | ok a₂ => exact ⟨a, ha⟩
    | error f' => exact trivial

theorem map {view' : γ → δ} {f : α → γ} (h : Alike w view es₁ r₁ es₂ r₂)
    (hf : ∀ a₁ a₂, view a₁ = view a₂ → view' (f a₁) = view' (f a₂)) :
    Alike w view' es₁ (r₁.map f) es₂ (r₂.map f) := by
  cases r₁ with
  | ok a₁ =>
    cases r₂ with
    | ok a₂ => exact ⟨hf a₁ a₂ h.1, h.2⟩
    | error f => exact h
  | error f =>
    cases r₂ with
    | ok a₂ => exact h
    | error f' => exact trivial

theorem after (h : Alike w view es₁ r₁ es₂ r₂) (hfs : w.errors fs₁ = w.errors fs₂) :
    Alike w view (fs₁ ++ es₁) r₁ (fs₂ ++ es₂) r₂ := by
  cases r₁ with
  | ok a₁ =>
    cases r₂ with
    | ok a₂ => exact ⟨h.1, by rw [Veil.errors_append, Veil.errors_append, hfs, h.2]⟩
    | error f => exact h
  | error f =>
    cases r₂ with
    | ok a₂ => exact h
    | error f' => exact trivial

/-- Joined jobs look alike if job by job they do. -/
theorem joined {J₁ J₂ : ι → Job (Except Fault α)} {xs : List ι}
    (h : ∀ x ∈ xs, ∀ {es₁ r₁ es₂ r₂}, (J₁ x).Ends es₁ r₁ → (J₂ x).Ends es₂ r₂ →
      Alike w view es₁ r₁ es₂ r₂)
    {rs₁ rs₂ : Except Fault (List α)} (h₁ : Job.Joined (xs.map J₁) es₁ rs₁)
    (h₂ : Job.Joined (xs.map J₂) es₂ rs₂) : Alike w (List.map view) es₁ rs₁ es₂ rs₂ := by
  cases rs₁ with
  | ok as₁ =>
    cases rs₂ with
    | ok as₂ =>
      induction xs generalizing es₁ es₂ as₁ as₂ with
      | nil =>
        cases h₁
        cases h₂
        exact ⟨rfl, rfl⟩
      | cons x xs ih =>
        cases h₁ with
        | cons hj₁ hjs₁ hes₁ =>
          cases h₂ with
          | cons hj₂ hjs₂ hes₂ =>
            have hx := h x List.mem_cons_self hj₁ hj₂
            have hxs := ih (fun y hy => h y (List.mem_cons_of_mem x hy)) _ hjs₁ _ hjs₂
            refine ⟨?_, ?_⟩
            · rw [List.map_cons, List.map_cons, hx.1, hxs.1]
            · rw [w.errors_interleaves hes₁, w.errors_interleaves hes₂, hx.2, hxs.2]
    | error f =>
      obtain ⟨j, hj, es, _, hf⟩ := h₂.exists_error
      obtain ⟨x, hx, rfl⟩ := List.mem_map.1 hj
      obtain ⟨es', a, ha⟩ := h₁.ok_of_mem (List.mem_map_of_mem hx)
      exact h x hx ha hf
  | error f =>
    cases rs₂ with
    | ok as₂ =>
      obtain ⟨j, hj, es, _, hf⟩ := h₁.exists_error
      obtain ⟨x, hx, rfl⟩ := List.mem_map.1 hj
      obtain ⟨es', a, ha⟩ := h₂.ok_of_mem (List.mem_map_of_mem hx)
      exact h x hx hf ha
    | error f' => exact trivial

end Alike

end

/-! ## Resolvers that agree in view -/

/-- The resolver of a field of a type. -/
def Resolvers.resolver (ρ : Resolvers) (type name : String) : Resolver :=
  (ρ type name).getD .property

/-- Calls at paths in view have the same outcomes in two tables. -/
def Resolvers.AgreeIn (w : Veil) (ρ₁ ρ₂ : Resolvers) : Prop :=
  ∀ type name call o₁ o₂, w.hides call.site.path = false →
    (ρ₁.resolver type name call).Ends o₁ → (ρ₂.resolver type name call).Ends o₂ → o₁ = o₂

namespace Environment

variable {w : Veil} {env : Environment} {ρ₁ ρ₂ : Resolvers}
  {descend₁ descend₂ : SubSelection → NodeJob} {es₁ es₂ : List Event}

theorem Completed.withResolvers {t : TypeExpr} {p : Place} {m : Node} (h : Completed env t p m)
    (ρ : Resolvers) : Completed (env.withResolvers ρ) t p m := by
  have htype : ∀ name, (env.withResolvers ρ).schema.type? name =
      (env.schema.type? name).map (·.withResolvers ρ) :=
    Schema.type?_withResolvers env.schema ρ
  induction h with
  | nonNull _ ih => exact .nonNull ih
  | null t p reported => exact .null t p reported
  | list _ ih => exact .list ih
  | @scalar _ t _ _ _ ht hw => exact .scalar (t := t) (by rw [htype, ht]; rfl) hw
  | @enum _ e _ _ _ he hw => exact .enum (e := e) (by rw [htype, he]; rfl) hw
  | @object name o p v ho =>
    rw [← env.pendingObject_withResolvers ρ]
    have hpossible := Schema.possibleTypes_withResolvers env.schema ρ name
    exact .object (o := o.withResolvers ρ) (hpossible ▸ List.mem_map_of_mem ho)

/-- A fetch in view comes to the same in both runs. -/
theorem fetched_eq (hρ : ρ₁.AgreeIn w ρ₂) {type name : String} {source : Json} {d : FieldDefinition}
    {p : Place} (hp : w.hides p.path = false) {x₁ x₂ : Fetched}
    (h₁ : FetchEnds (env.withResolvers ρ₁) source (d.withResolver (ρ₁ type name)) p es₁ x₁)
    (h₂ : FetchEnds (env.withResolvers ρ₂) source (d.withResolver (ρ₂ type name)) p es₂ x₂) :
    x₁ = x₂ := by
  have harguments : ∀ {ρ written r},
      coerceArgumentValues (env.withResolvers ρ).schema (env.withResolvers ρ).scope.vars
        d.arguments.items written = r →
      coerceArgumentValues env.schema env.scope.vars d.arguments.items written = r :=
    fun h => (coerceArgumentValues_withResolvers env.schema _ _ _ _).symm.trans h
  cases h₁ with
  | fieldless hg₁ =>
    cases h₂ with
    | fieldless => rfl
    | misfit hg₂ | called hg₂ => simp [hg₁] at hg₂
  | misfit hg₁ ha₁ =>
    have ha₁ := harguments ha₁
    cases h₂ with
    | fieldless hg₂ => simp [hg₁] at hg₂
    | misfit hg₂ ha₂ =>
      obtain rfl := Option.some.inj (hg₁.symm.trans hg₂)
      obtain rfl := Except.error.inj (ha₁.symm.trans (harguments ha₂))
      rfl
    | called hg₂ ha₂ =>
      obtain rfl := Option.some.inj (hg₁.symm.trans hg₂)
      simp [harguments ha₂] at ha₁
  | called hg₁ ha₁ hf₁ =>
    have ha₁ := harguments ha₁
    cases h₂ with
    | fieldless hg₂ => simp [hg₁] at hg₂
    | misfit hg₂ ha₂ =>
      obtain rfl := Option.some.inj (hg₁.symm.trans hg₂)
      simp [harguments ha₂] at ha₁
    | called hg₂ ha₂ hf₂ =>
      obtain rfl := Option.some.inj (hg₁.symm.trans hg₂)
      obtain rfl := Except.ok.inj (ha₁.symm.trans (harguments ha₂))
      obtain rfl := hρ type name _ _ _ hp (Fetch.ends_of_job hf₁).1 (Fetch.ends_of_job hf₂).1
      rfl

/-! ## Two executions -/

/-- Descending in two runs: the trees are grown, the errors lie where they should, and
in view the two look alike. -/
structure Twins (w : Veil) (env₁ env₂ : Environment)
    (descend₁ descend₂ : SubSelection → NodeJob) : Prop where
  grows₁ : Grows env₁ descend₁
  grows₂ : Grows env₂ descend₂
  under₁ : StaysUnder descend₁
  under₂ : StaysUnder descend₂
  alike : ∀ {sub : SubSelection} {object : String} {es₁ es₂ : List Event}
    {r₁ r₂ : Except Fault Node}, sub.place.concreteType? = some object →
    w.hides sub.place.path = false → (descend₁ sub).Ends es₁ r₁ → (descend₂ sub).Ends es₂ r₂ →
    Alike w (Node.prune w) es₁ r₁ es₂ r₂

/-- Two nodes that were grown at one place out of view are pruned to the same. -/
theorem prune_eq_of_hides {env₁ env₂ : Environment} {t : TypeExpr} {p : Place} {n₁ n₂ : Node}
    (hp : w.hides p.path = true) (h₁ : Grown env₁ t p n₁) (h₂ : Grown env₂ t p n₂) :
    n₁.prune w = n₂.prune w := by
  have hplace₁ := place_of_grown h₁
  have hplace₂ := place_of_grown h₂
  have hpath : ∀ {n : Node}, n.place.untyped = p.untyped → w.hides n.place.path = true := by
    intro n hn
    have heq : n.place.untyped.path = p.untyped.path := by rw [hn]
    exact (congrArg w.hides heq).trans hp
  rw [Node.prune_of_hides (hpath hplace₁), Node.prune_of_hides (hpath hplace₂), hplace₁, hplace₂]

namespace Twins

section

variable (htwins : Twins w (env.withResolvers ρ₁) (env.withResolvers ρ₂) descend₁ descend₂)

include htwins

/-- What is pending in a completed node out of view does not matter. -/
theorem alike_of_hides {t : TypeExpr} {p : Place} {m : Node} (hp : w.hides p.path = true)
    (hm : Completed env t p m) {r₁ r₂ : Except Fault Node}
    (h₁ : (resolvePending descend₁ m).Ends es₁ r₁)
    (h₂ : (resolvePending descend₂ m).Ends es₂ r₂) :
    Alike w (Node.prune w) es₁ r₁ es₂ r₂ := by
  have hm₁ := hm.withResolvers ρ₁
  have hm₂ := hm.withResolvers ρ₂
  refine .of_hides hp fun n₁ n₂ hn₁ hn₂ => ?_
  subst hn₁ hn₂
  refine ⟨prune_eq_of_hides hp (grown_of_ends htwins.grows₁ hm₁ h₁)
    (grown_of_ends htwins.grows₂ hm₂ h₂), ?_⟩
  rw [w.errors_eq_zero hp (under_of_ends htwins.under₁ hm₁ h₁),
    w.errors_eq_zero hp (under_of_ends htwins.under₂ hm₂ h₂)]

/-- What is pending in a completed node is resolved alike. -/
theorem alike_of_completed {t : TypeExpr} {p : Place} {m : Node} (hm : Completed env t p m)
    {r₁ r₂ : Except Fault Node} (h₁ : (resolvePending descend₁ m).Ends es₁ r₁)
    (h₂ : (resolvePending descend₂ m).Ends es₂ r₂) :
    Alike w (Node.prune w) es₁ r₁ es₂ r₂ := by
  induction hm generalizing es₁ r₁ es₂ r₂ with
  | nonNull _ ih => exact ih h₁ h₂
  | null | scalar | enum =>
    obtain ⟨rfl, rfl⟩ := Job.ends_done h₁
    obtain ⟨rfl, rfl⟩ := Job.ends_done h₂
    exact .refl w _ _ _
  | @list t p items hitems ih =>
    cases hp : w.hides p.path with
    | true => exact htwins.alike_of_hides hp (.list hitems) h₁ h₂
    | false =>
      obtain ⟨rs₁, hrs₁, rfl⟩ := list_ends h₁
      obtain ⟨rs₂, hrs₂, rfl⟩ := list_ends h₂
      have hjoined : Alike w (List.map (Node.prune w)) es₁ rs₁ es₂ rs₂ := by
        refine .joined (fun m hm es₁ r₁ es₂ r₂ h₁ h₂ => ?_) hrs₁ hrs₂
        obtain ⟨i, hi⟩ := List.mem_iff_getElem?.1 hm
        exact ih i m hi h₁ h₂
      refine hjoined.map fun ns₁ ns₂ hns => ?_
      rw [Node.prune_list hp, Node.prune_list hp, hns]
  | @object name o p v ho =>
    cases hp : w.hides p.path with
    | true => exact htwins.alike_of_hides hp (.object ho) h₁ h₂
    | false => exact htwins.alike rfl hp (pending_ends h₁) (pending_ends h₂)

/-- A declared field comes to the same in view, whatever is below it. -/
theorem alike_of_declared (hρ : ρ₁.AgreeIn w ρ₂) {type name : String} {source : Json}
    {d : FieldDefinition} {p : Place} {r₁ r₂ : Except Fault Node}
    (h₁ : DeclaredEnds (env.withResolvers ρ₁) descend₁ source
      (d.withResolver (ρ₁ type name)) p es₁ r₁)
    (h₂ : DeclaredEnds (env.withResolvers ρ₂) descend₂ source
      (d.withResolver (ρ₂ type name)) p es₂ r₂) :
    Alike w (Node.prune w) es₁ r₁ es₂ r₂ := by
  cases hp : w.hides p.path with
  | true =>
    refine .of_hides hp fun n₁ n₂ hn₁ hn₂ => ?_
    subst hn₁ hn₂
    have hgrown₁ := grown_of_declared htwins.grows₁ h₁
    have hgrown₂ := grown_of_declared htwins.grows₂ h₂
    refine ⟨prune_eq_of_hides (t := d.type) hp hgrown₁ hgrown₂, ?_⟩
    rw [w.errors_eq_zero hp (under_of_declared htwins.under₁ h₁),
      w.errors_eq_zero hp (under_of_declared htwins.under₂ h₂)]
  | false =>
    have hcompleted : ∀ ρ x, (env.withResolvers ρ).completed (d.withResolver (ρ type name)) p x =
        env.completed d p x := fun ρ x =>
      env.completeValue_withResolvers ρ d.type p x.value (!x.errors.isEmpty)
    cases h₁ with
    | fault hx₁ hc₁ =>
      cases h₂ with
      | fault => exact trivial
      | node hx₂ hc₂ =>
        obtain rfl := fetched_eq hρ hp hx₁ hx₂
        rw [hcompleted] at hc₁ hc₂
        simp [hc₁] at hc₂
    | node hx₁ hc₁ hr₁ =>
      cases h₂ with
      | fault hx₂ hc₂ =>
        obtain rfl := fetched_eq hρ hp hx₁ hx₂
        rw [hcompleted] at hc₁ hc₂
        simp [hc₁] at hc₂
      | node hx₂ hc₂ hr₂ =>
        obtain rfl := fetched_eq hρ hp hx₁ hx₂
        rw [hcompleted] at hc₁ hc₂ ⊢
        rw [hcompleted]
        obtain rfl := Except.ok.inj (hc₁.symm.trans hc₂)
        refine (htwins.alike_of_completed (completed_of_completeValue hc₁) hr₁ hr₂).after ?_
        simp only [Veil.errors, Event.errors_append, hx₁.errors_eq, hx₂.errors_eq]

/-- A field of an object comes to the same in view. -/
theorem alike_of_field (hρ : ρ₁.AgreeIn w ρ₂) {source : Json} {parent : Place} {object : String}
    (hparent : parent.concreteType? = some object) {g : FieldGroup}
    {r₁ r₂ : Except Fault (Option Node)}
    (h₁ : ((env.withResolvers ρ₁).fieldJob descend₁ source parent g).Ends es₁ r₁)
    (h₂ : ((env.withResolvers ρ₂).fieldJob descend₂ source parent g).Ends es₂ r₂) :
    Alike w (Option.map (Node.prune w)) es₁ r₁ es₂ r₂ := by
  have hfield : ∀ ρ, (env.withResolvers ρ).schema.field? object g.name =
      (env.schema.field? object g.name).map (·.withResolver (ρ object g.name)) := fun ρ =>
    Schema.field?_withResolvers env.schema ρ object g.name
  by_cases hn : g.name = "__typename"
  · have hdone : ∀ ρ descend, (env.withResolvers ρ).fieldJob descend source parent g = .done
        (.ok (some (.leaf (parent.field g.key g object (.required "String")) (.str object)))) := by
      intro ρ descend
      simp only [fieldJob, hparent, if_pos hn]
    rw [hdone] at h₁ h₂
    obtain ⟨rfl, rfl⟩ := Job.ends_done h₁
    obtain ⟨rfl, rfl⟩ := Job.ends_done h₂
    exact .refl w _ _ _
  · cases hd : env.schema.field? object g.name with
    | none =>
      have hdone : ∀ ρ descend,
          (env.withResolvers ρ).fieldJob descend source parent g = .done (.ok none) := by
        intro ρ descend
        simp only [fieldJob, hparent, if_neg hn, hfield, hd, Option.map_none]
      rw [hdone] at h₁ h₂
      obtain ⟨rfl, rfl⟩ := Job.ends_done h₁
      obtain ⟨rfl, rfl⟩ := Job.ends_done h₂
      exact .refl w _ _ _
    | some d =>
      have hdeclared : ∀ {ρ descend es r},
          ((env.withResolvers ρ).fieldJob descend source parent g).Ends es r →
          ∃ r', DeclaredEnds (env.withResolvers ρ) descend source
            (d.withResolver (ρ object g.name)) (parent.field g.key g object d.type) es r' ∧
            r = r'.map some := by
        intro ρ descend es r h
        cases fieldEnds_of_ends h with
        | untyped ho => simp [hparent] at ho
        | typename _ hn' => exact absurd hn' hn
        | undeclared ho _ hd' =>
          obtain rfl := Option.some.inj (hparent.symm.trans ho)
          simp [hfield, hd] at hd'
        | declared ho _ hd' h =>
          obtain rfl := Option.some.inj (hparent.symm.trans ho)
          rw [hfield, hd] at hd'
          obtain rfl := Option.some.inj hd'
          exact ⟨_, h, rfl⟩
      obtain ⟨r₁', hr₁, rfl⟩ := hdeclared h₁
      obtain ⟨r₂', hr₂, rfl⟩ := hdeclared h₂
      exact (htwins.alike_of_declared hρ hr₁ hr₂).map fun n₁ n₂ hn =>
        congrArg some hn

end

end Twins

/-- The children of an object are pruned one by one. -/
theorem children_map (f : Node → Node) (gs : FieldGroups) (ns : List (Option Node)) :
    (children gs ns).map (fun c => (c.1, f c.2)) = children gs (ns.map (Option.map f)) := by
  induction gs generalizing ns with
  | nil => rfl
  | cons g gs ih =>
    cases ns with
    | nil => rfl
    | cons n ns =>
      rw [children_cons, List.map_append, ih, List.map_cons, children_cons]
      cases n <;> rfl

/-- Two executions of a sub-selection whose resolvers agree in view look alike, whatever
their modes: by induction on the levels. -/
theorem twins_objectJob (hρ : ρ₁.AgreeIn w ρ₂) (levels : Nat) (mode₁ mode₂ : Mode) :
    Twins w (env.withResolvers ρ₁) (env.withResolvers ρ₂)
      ((env.withResolvers ρ₁).objectJob levels mode₁)
      ((env.withResolvers ρ₂).objectJob levels mode₂) := by
  induction levels generalizing mode₁ mode₂ with
  | zero =>
    refine ⟨grown_objectJob _ _ _, grown_objectJob _ _ _, under_objectJob _ _ _,
      under_objectJob _ _ _, fun _ _ h₁ h₂ => ?_⟩
    obtain ⟨rfl, rfl⟩ := objectJob_zero h₁
    obtain ⟨rfl, rfl⟩ := objectJob_zero h₂
    exact .refl w _ _ _
  | succ levels ih =>
    refine ⟨grown_objectJob _ _ _, grown_objectJob _ _ _, under_objectJob _ _ _,
      under_objectJob _ _ _, fun {sub object es₁ es₂ r₁ r₂} hobject hp h₁ h₂ => ?_⟩
    obtain ⟨rs₁, hrs₁, rfl⟩ := joined_of_objectJob h₁
    obtain ⟨rs₂, hrs₂, rfl⟩ := joined_of_objectJob h₂
    have hjoined : Alike w (List.map (Option.map (Node.prune w))) es₁ rs₁ es₂ rs₂ :=
      .joined (fun g _ _ _ _ _ h₁ h₂ => (ih .parallel .parallel).alike_of_field hρ hobject h₁ h₂)
        hrs₁ hrs₂
    refine hjoined.map fun ns₁ ns₂ hns => ?_
    rw [Node.prune_object hp, Node.prune_object hp, children_map, children_map, hns]

end Environment

/-- Two runs of a plan whose resolvers agree in view, in any modes. -/
theorem Plan.alike_jobIn {w : Veil} {ρ₁ ρ₂ : Resolvers} (hρ : ρ₁.AgreeIn w ρ₂)
    (hroot : w.hides [] = false) (p : Plan) (s : Schema) (source : Json) (data : RequestData)
    {mode₁ mode₂ : Mode} {es₁ es₂ : List Event} {r₁ r₂ : Except Fault Node}
    (h₁ : (p.jobIn mode₁ (s.withResolvers ρ₁) source data).Ends es₁ r₁)
    (h₂ : (p.jobIn mode₂ (s.withResolvers ρ₂) source data).Ends es₂ r₂) :
    Alike w (Node.prune w) es₁ r₁ es₂ r₂ := by
  have henv : ∀ ρ, p.environment (s.withResolvers ρ) data =
      (p.environment s data).withResolvers ρ := fun _ => rfl
  rw [jobIn, henv, subSelection_withResolvers] at h₁ h₂
  exact (Environment.twins_objectJob hρ _ _ _).alike rfl hroot h₁ h₂

end GraphQL
