/-
GraphQL.Proofs.Settling — one step of turning a tree into data.

`Node.settle` folds a result tree, its children and its items at once. The lemmas
here take one step of the fold apart: what a node settles to, from what its parts
settle to. Nothing else opens the fold.
-/
import GraphQL.Execution.Node

namespace GraphQL

namespace Node

variable {p : Place} {n : Node} {es : List ResponseError} {v : Json}

/-! ## Parts -/

theorem joinPart_eq_some {α : Type} {mk : Json → α} {c : Settled} {rest : Option (List α)}
    {parts : List α} :
    joinPart mk c rest = some parts ↔
      ∃ v vs, c = .value v ∧ rest = some vs ∧ parts = mk v :: vs := by
  cases c <;> cases rest <;> simp [joinPart, eq_comm]

theorem joinPart_eq_none {α : Type} {mk : Json → α} {c : Settled} {rest : Option (List α)} :
    joinPart mk c rest = none ↔ c = .collapsed ∨ rest = none := by
  cases c <;> cases rest <;> simp [joinPart]

theorem settleParts_eq_value {parts : Option Json} :
    settleParts p parts = .value v ↔
      parts = some v ∨ parts = none ∧ p.isNonNull = false ∧ v = .null := by
  cases parts <;> cases h : p.isNonNull <;> simp [settleParts, h, eq_comm]

theorem settleParts_eq_collapsed {parts : Option Json} :
    settleParts p parts = .collapsed ↔ parts = none ∧ p.isNonNull = true := by
  cases parts <;> cases h : p.isNonNull <;> simp [settleParts, h]

theorem settleNull_eq_value {reported : Bool} (h : settleNull p reported = (es, .value v)) :
    p.isNonNull = false ∧ v = .null := by
  cases hp : p.isNonNull
  · simp only [settleNull, hp] at h
    simp at h
    exact ⟨rfl, h.2.symm⟩
  · simp [settleNull, hp] at h

/-! ## Nodes -/

/-- A leaf that is not null settles to its value. -/
theorem settle_leaf_of_ne_null (p : Place) (h : v ≠ .null) :
    settle (.leaf p v) = .ok ([], .value v) := by
  cases v with
  | null => exact absurd rfl h
  | _ => rfl

theorem settle_object {children : List (String × Node)}
    {x : List ResponseError × Settled} (h : settle (.object p children) = .ok x) :
    ∃ r, settleChildren children = .ok r ∧ x = (r.1, settleParts p (r.2.map .obj)) := by
  rw [settle] at h
  cases hr : settleChildren children with
  | error f => simp [hr, Except.map] at h
  | ok r =>
    simp only [hr, Except.map, Except.ok.injEq] at h
    exact ⟨r, rfl, h.symm⟩

theorem settle_list {items : List Node} {x : List ResponseError × Settled}
    (h : settle (.list p items) = .ok x) :
    ∃ r, settleItems items = .ok r ∧ x = (r.1, settleParts p (r.2.map .arr)) := by
  rw [settle] at h
  cases hr : settleItems items with
  | error f => simp [hr, Except.map] at h
  | ok r =>
    simp only [hr, Except.map, Except.ok.injEq] at h
    exact ⟨r, rfl, h.symm⟩

theorem settleChildren_cons {key : String} {rest : List (String × Node)}
    {x : List ResponseError × Option (List (String × Json))}
    (h : settleChildren ((key, n) :: rest) = .ok x) :
    ∃ c r, settle n = .ok c ∧ settleChildren rest = .ok r ∧
      x = (c.1 ++ r.1, joinPart (key, ·) c.2 r.2) := by
  rw [settleChildren] at h
  cases hc : settle n with
  | error f => simp [hc] at h
  | ok c =>
    cases hr : settleChildren rest with
    | error f => simp [hc, hr, Except.map] at h
    | ok r =>
      simp only [hc, hr, Except.map, Except.ok.injEq] at h
      exact ⟨c, r, rfl, rfl, h.symm⟩

theorem settleItems_cons {rest : List Node} {x : List ResponseError × Option (List Json)}
    (h : settleItems (n :: rest) = .ok x) :
    ∃ c r, settle n = .ok c ∧ settleItems rest = .ok r ∧
      x = (c.1 ++ r.1, joinPart (fun v => v) c.2 r.2) := by
  rw [settleItems] at h
  cases hc : settle n with
  | error f => simp [hc] at h
  | ok c =>
    cases hr : settleItems rest with
    | error f => simp [hc, hr, Except.map] at h
    | ok r =>
      simp only [hc, hr, Except.map, Except.ok.injEq] at h
      exact ⟨c, r, rfl, rfl, h.symm⟩

/-- A non-null position never gives null. -/
theorem ne_null_of_settle (hn : n.place.isNonNull = true)
    (h : n.settle = .ok (es, .value v)) : v ≠ .null := by
  cases n with
  | leaf p w =>
    by_cases hw : w = .null
    · subst hw
      have hnull := settleNull_eq_value (Except.ok.inj h)
      simp [place, hnull.1] at hn
    · rw [settle_leaf_of_ne_null p hw] at h
      simp only [Except.ok.injEq, Prod.mk.injEq, Settled.value.injEq] at h
      exact h.2 ▸ hw
  | null p reported =>
    have hnull := settleNull_eq_value (Except.ok.inj h)
    simp [place, hnull.1] at hn
  | object p children =>
    obtain ⟨r, _, hx⟩ := settle_object h
    rcases settleParts_eq_value.1 (congrArg Prod.snd hx).symm with hr | ⟨_, hp, _⟩
    · obtain ⟨fields, _, rfl⟩ := Option.map_eq_some_iff.1 hr
      simp
    · simp [place, hp] at hn
  | list p items =>
    obtain ⟨r, _, hx⟩ := settle_list h
    rcases settleParts_eq_value.1 (congrArg Prod.snd hx).symm with hr | ⟨_, hp, _⟩
    · obtain ⟨vs, _, rfl⟩ := Option.map_eq_some_iff.1 hr
      simp
    · simp [place, hp] at hn
  | pending sub => simp [settle] at h

end Node

end GraphQL
