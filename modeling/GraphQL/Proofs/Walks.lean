/-
GraphQL.Proofs.Walks — where a walk over selections can get to.

Execution and normalization collect fields by one walk (`SelectionSet.occurrences`)
over different targets: an object type, or the object types still possible. `Walk`
says which rest of which selection set such a walk can stand at, and on which target.
It takes no notice of directives, nor of fragments that have been entered before, so
it holds for all variables.

* `Walk.exists_of_mem_occurrences` — a field is collected only where a walk stands at
  its selection.
* `Walk.fields_subset` — a walk within a document meets only fields of the document.
* `Scope.occurrences_simulated` — of two targets that type conditions restrict in the
  same way, each occurrence on the one is an occurrence on the other.
-/
import GraphQL.Proofs.ResultTree

namespace GraphQL

variable {τ σ : Type}

/-! ## Walks -/

/-- A walk over a selection set on a target can stand at a rest of a selection set on a
target. -/
inductive Walk (fragments : Registry Fragment) (restrict : String → τ → Option τ) :
    SelectionSet → τ → SelectionSet → τ → Prop
  | here (set : SelectionSet) (t : τ) : Walk fragments restrict set t set t
  | pastField {node : FieldNode} {sub rest set : SelectionSet} {t u : τ}
      (h : Walk fragments restrict rest t set u) :
      Walk fragments restrict (.field node sub rest) t set u
  | pastInline {head : InlineHead} {sub rest set : SelectionSet} {t u : τ}
      (h : Walk fragments restrict rest t set u) :
      Walk fragments restrict (.inline head sub rest) t set u
  | pastSpread {spread : Spread} {rest set : SelectionSet} {t u : τ}
      (h : Walk fragments restrict rest t set u) :
      Walk fragments restrict (.spread spread rest) t set u
  /-- Into an inline fragment without a condition. -/
  | into {head : InlineHead} {sub rest set : SelectionSet} {t u : τ}
      (hc : head.condition? = none) (h : Walk fragments restrict sub t set u) :
      Walk fragments restrict (.inline head sub rest) t set u
  /-- Into an inline fragment with a condition. -/
  | intoOn {head : InlineHead} {sub rest set : SelectionSet} {c : String} {t t' u : τ}
      (hc : head.condition? = some c) (ht : restrict c t = some t')
      (h : Walk fragments restrict sub t' set u) :
      Walk fragments restrict (.inline head sub rest) t set u
  /-- Into a named fragment. -/
  | intoFragment {spread : Spread} {rest set : SelectionSet} {f : Fragment} {t t' u : τ}
      (hf : fragments.get? spread.name = some f) (ht : restrict f.condition t = some t')
      (h : Walk fragments restrict f.selections t' set u) :
      Walk fragments restrict (.spread spread rest) t set u

/-- A walk over a selection set can stand at the selection of a field. -/
def Walk.Meets (fragments : Registry Fragment) (restrict : String → τ → Option τ)
    (set : SelectionSet) (t : τ) (o : Occurrence τ) : Prop :=
  ∃ rest, Walk fragments restrict set t (.field o.field.node o.field.selections rest) o.target

namespace Walk

variable {fragments : Registry Fragment} {restrict : String → τ → Option τ} {sc : Scope}
  {set : SelectionSet} {t : τ} {o : Occurrence τ}

theorem mem_occurrencesUnder {condition? : Option String} {directives : List Directive}
    {body : τ → List (Occurrence τ)}
    (h : o ∈ occurrencesUnder sc restrict condition? directives body t) :
    (condition? = none ∧ o ∈ body t) ∨
      ∃ c t', condition? = some c ∧ restrict c t = some t' ∧ o ∈ body t' := by
  unfold occurrencesUnder at h
  split at h
  · cases condition? with
    | none => exact .inl ⟨rfl, h⟩
    | some c =>
      cases ht : restrict c t with
      | none => simp [ht] at h
      | some t' =>
        simp only [ht] at h
        exact .inr ⟨c, t', rfl, ht, h⟩
  · simp at h

/-- The walk of a selection set, given what entering a fragment meets. -/
theorem meets_of_mem_occurrences {enter : String → τ → List (Occurrence τ)}
    (henter : ∀ name t o, o ∈ enter name t → ∃ f t', sc.fragments.get? name = some f ∧
      restrict f.condition t = some t' ∧ Meets sc.fragments restrict f.selections t' o)
    (h : o ∈ set.occurrences sc restrict enter t) : Meets sc.fragments restrict set t o := by
  induction set generalizing t with
  | nil => simp [SelectionSet.occurrences] at h
  | field node sub rest _ ih =>
    rw [SelectionSet.occurrences] at h
    rcases List.mem_append.1 h with h | h
    · split at h
      · obtain rfl := List.mem_singleton.1 h
        exact ⟨rest, .here _ t⟩
      · simp at h
    · obtain ⟨after, hwalk⟩ := ih h
      exact ⟨after, .pastField hwalk⟩
  | inline head sub rest ihs ih =>
    rw [SelectionSet.occurrences] at h
    rcases List.mem_append.1 h with h | h
    · rcases mem_occurrencesUnder h with ⟨hc, h⟩ | ⟨c, t', hc, ht, h⟩
      · obtain ⟨after, hwalk⟩ := ihs h
        exact ⟨after, .into hc hwalk⟩
      · obtain ⟨after, hwalk⟩ := ihs h
        exact ⟨after, .intoOn hc ht hwalk⟩
    · obtain ⟨after, hwalk⟩ := ih h
      exact ⟨after, .pastInline hwalk⟩
  | spread spread rest ih =>
    rw [SelectionSet.occurrences] at h
    rcases List.mem_append.1 h with h | h
    · split at h
      · obtain ⟨f, t', hf, ht, after, hwalk⟩ := henter _ _ _ h
        exact ⟨after, .intoFragment hf ht hwalk⟩
      · simp at h
    · obtain ⟨after, hwalk⟩ := ih h
      exact ⟨after, .pastSpread hwalk⟩

/-- Entering a fragment meets what a walk over it meets: by induction on how many
fragments may still be entered, those available being fragments of the scope. -/
theorem meets_of_mem_enterFragment {n : Nat} {available : List Fragment}
    (havailable : ∀ f ∈ available, f ∈ sc.fragments.items) {name : String}
    (h : o ∈ sc.enterFragment restrict n available name t) :
    ∃ f t', sc.fragments.get? name = some f ∧ restrict f.condition t = some t' ∧
      Meets sc.fragments restrict f.selections t' o := by
  induction n generalizing available name t o with
  | zero => simp [Scope.enterFragment] at h
  | succ n ih =>
    rw [Scope.enterFragment] at h
    split at h
    · simp at h
    · next f hf =>
      have hmem : f ∈ sc.fragments.items := havailable f (List.mem_of_find?_eq_some hf)
      have hname : f.name = name := by simpa using List.find?_some hf
      have hget : sc.fragments.get? name = some f := by
        rw [← hname]
        exact Registry.get?_of_mem hmem
      rcases mem_occurrencesUnder h with ⟨hc, _⟩ | ⟨c, t', hc, ht, h⟩
      · simp at hc
      · obtain rfl := Option.some.inj hc
        have hothers : ∀ g ∈ available.filter fun g => g.name != name,
            g ∈ sc.fragments.items := fun g hg => havailable g (List.mem_filter.1 hg).1
        exact ⟨f, t', hget, ht, meets_of_mem_occurrences (fun _ _ _ h => ih hothers h) h⟩

/-- A field is collected only where a walk stands at its selection. -/
theorem exists_of_mem_occurrences (h : o ∈ sc.occurrences restrict set t) :
    Meets sc.fragments restrict set t o :=
  meets_of_mem_occurrences
    (fun _ _ _ h => meets_of_mem_enterFragment (fun _ hf => hf) h) h

/-! ## Fields of a document -/

/-- A walk within some fields, those of the fragments included, stays within them. -/
theorem fields_subset {within : List Field} (hf : ∀ f ∈ fragments.items,
      f.selections.fields ⊆ within) {set' : SelectionSet} {t' : τ}
    (h : Walk fragments restrict set t set' t') (hset : set.fields ⊆ within) :
    set'.fields ⊆ within := by
  induction h with
  | here => exact hset
  | pastField _ ih =>
    rw [SelectionSet.fields] at hset
    exact ih fun f hf => hset (List.mem_cons_of_mem _ (List.mem_append_right _ hf))
  | pastInline _ ih =>
    rw [SelectionSet.fields] at hset
    exact ih fun f hf => hset (List.mem_append_right _ hf)
  | pastSpread _ ih => exact ih hset
  | into _ _ ih =>
    rw [SelectionSet.fields] at hset
    exact ih fun f hf => hset (List.mem_append_left _ hf)
  | intoOn _ _ _ ih =>
    rw [SelectionSet.fields] at hset
    exact ih fun f hf => hset (List.mem_append_left _ hf)
  | intoFragment hget _ _ ih => exact ih (hf _ (Registry.mem_of_get? hget).1)

end Walk

/-! ## Walks on related targets -/

section

variable {sc : Scope} {restrict : String → τ → Option τ} {restrict' : String → σ → Option σ}
  {R : τ → σ → Prop}

/-- Type conditions that let the first target pass let the second pass as well. -/
def Simulates (R : τ → σ → Prop) (restrict : String → τ → Option τ)
    (restrict' : String → σ → Option σ) : Prop :=
  ∀ c t u t', R t u → restrict c t = some t' → ∃ u', restrict' c u = some u' ∧ R t' u'

/-- Each occurrence of the first kind is met by the second walk on a related target. -/
def Simulated (R : τ → σ → Prop) (os : List (Occurrence τ)) (os' : List (Occurrence σ)) : Prop :=
  ∀ o ∈ os, ∃ o' ∈ os', o'.field = o.field ∧ R o.target o'.target

namespace Simulated

theorem nil (os' : List (Occurrence σ)) : Simulated R [] os' := fun o h => by simp at h

theorem append {os₁ os₂ : List (Occurrence τ)} {os₁' os₂' : List (Occurrence σ)}
    (h₁ : Simulated R os₁ os₁') (h₂ : Simulated R os₂ os₂') :
    Simulated R (os₁ ++ os₂) (os₁' ++ os₂') := by
  intro o ho
  rcases List.mem_append.1 ho with ho | ho
  · obtain ⟨o', ho', hrest⟩ := h₁ o ho
    exact ⟨o', List.mem_append_left _ ho', hrest⟩
  · obtain ⟨o', ho', hrest⟩ := h₂ o ho
    exact ⟨o', List.mem_append_right _ ho', hrest⟩

theorem under (hsim : Simulates R restrict restrict') {condition? : Option String}
    {directives : List Directive} {body : τ → List (Occurrence τ)}
    {body' : σ → List (Occurrence σ)} (hbody : ∀ t u, R t u → Simulated R (body t) (body' u))
    {t : τ} {u : σ} (h : R t u) :
    Simulated R (occurrencesUnder sc restrict condition? directives body t)
      (occurrencesUnder sc restrict' condition? directives body' u) := by
  unfold occurrencesUnder
  split
  · cases condition? with
    | none => exact hbody t u h
    | some c =>
      cases ht : restrict c t with
      | none =>
        simp only [ht]
        exact nil _
      | some t' =>
        obtain ⟨u', hu, hR⟩ := hsim c t u t' h ht
        simp only [ht, hu]
        exact hbody t' u' hR
  · exact nil _

theorem occurrences (hsim : Simulates R restrict restrict')
    {enter : String → τ → List (Occurrence τ)} {enter' : String → σ → List (Occurrence σ)}
    (henter : ∀ name t u, R t u → Simulated R (enter name t) (enter' name u))
    (set : SelectionSet) {t : τ} {u : σ} (h : R t u) :
    Simulated R (set.occurrences sc restrict enter t) (set.occurrences sc restrict' enter' u) := by
  induction set generalizing t u with
  | nil => exact nil _
  | field node sub rest _ ih =>
    rw [SelectionSet.occurrences, SelectionSet.occurrences]
    refine append ?_ (ih h)
    split
    · intro o ho
      obtain rfl := List.mem_singleton.1 ho
      exact ⟨_, List.mem_singleton_self _, rfl, h⟩
    · exact nil _
  | inline head sub rest ihs ih =>
    rw [SelectionSet.occurrences, SelectionSet.occurrences]
    exact append (under hsim (fun t u h => ihs h) h) (ih h)
  | spread spread rest ih =>
    rw [SelectionSet.occurrences, SelectionSet.occurrences]
    refine append ?_ (ih h)
    split
    · exact henter _ t u h
    · exact nil _

theorem enterFragment (hsim : Simulates R restrict restrict') (n : Nat)
    (available : List Fragment) (name : String) {t : τ} {u : σ} (h : R t u) :
    Simulated R (sc.enterFragment restrict n available name t)
      (sc.enterFragment restrict' n available name u) := by
  induction n generalizing available name t u with
  | zero => exact nil _
  | succ n ih =>
    rw [Scope.enterFragment, Scope.enterFragment]
    split
    · exact nil _
    · next f _ =>
      exact under hsim (fun t u h =>
        occurrences hsim (fun name t u h => ih _ name h) f.selections h) h

end Simulated

/-- Each occurrence on the one target is an occurrence on the other. -/
theorem Scope.occurrences_simulated (sc : Scope) (hsim : Simulates R restrict restrict')
    (set : SelectionSet) {t : τ} {u : σ} (h : R t u) :
    Simulated R (sc.occurrences restrict set t) (sc.occurrences restrict' set u) :=
  .occurrences hsim (fun name _ _ h => .enterFragment hsim _ _ name h) set h

end

end GraphQL
