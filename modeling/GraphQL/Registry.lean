/-
GraphQL.Registry — named things in the order they were first registered.

A schema keeps its types, a type its fields and a field its arguments in
registration order. Registering a name a second time replaces the thing but
keeps its place. `Registry` carries the proof that no two items share a name,
so a lookup by name and a walk over the items never disagree.

The list-level operation is `Registry.put`; `Registry.insert` is `put` with
the invariant re-established.
-/

namespace GraphQL

/-- A thing that carries the name it is registered under. -/
class Named (α : Type) where
  name : α → String

/-- Named items in registration order, no name twice. -/
structure Registry (α : Type) [Named α] where
  items : List α
  nodup : (items.map Named.name).Nodup

namespace Registry

variable {α : Type} [Named α]

/-! ## Operations -/

/-- The registry without items. -/
def empty : Registry α := ⟨[], List.nodup_nil⟩

instance : Inhabited (Registry α) := ⟨empty⟩

/-- The names in registration order. -/
def names (r : Registry α) : List String := r.items.map Named.name

/-- The item registered under a name. -/
def get? (r : Registry α) (name : String) : Option α :=
  r.items.find? fun x => Named.name x == name

/-- Whether some item has the name. -/
def contains (r : Registry α) (name : String) : Bool := (r.get? name).isSome

/-- Replace the item of the same name in place, or append. -/
def put (x : α) : List α → List α
  | [] => [x]
  | y :: ys => if Named.name y = Named.name x then x :: ys else y :: put x ys

/-- Replacing keeps the names; appending adds the new one at the end. -/
theorem map_name_put (x : α) (ys : List α) :
    (put x ys).map Named.name =
      if Named.name x ∈ ys.map Named.name then ys.map Named.name
      else ys.map Named.name ++ [Named.name x] := by
  induction ys with
  | nil => simp [put]
  | cons y ys ih =>
    by_cases h : Named.name y = Named.name x
    · simp [put, h]
    · have h' : ¬ Named.name x = Named.name y := fun e => h e.symm
      by_cases hm : Named.name x ∈ ys.map Named.name
      · simp only [put, h, if_false, List.map_cons, ih, hm, if_true, List.mem_cons, or_true]
      · simp only [put, h, if_false, List.map_cons, ih, hm, List.mem_cons, h', or_self,
          List.cons_append]

theorem nodup_put (x : α) {ys : List α} (h : (ys.map Named.name).Nodup) :
    ((put x ys).map Named.name).Nodup := by
  rw [map_name_put]
  split
  · exact h
  · next hm => exact List.nodup_append.2 ⟨h, by simp, by
      intro a ha b hb; simp only [List.mem_singleton] at hb; subst hb
      intro e; exact hm (e ▸ ha)⟩

/-- Register an item: a known name is replaced in place, a new one goes last. -/
def insert (r : Registry α) (x : α) : Registry α := ⟨put x r.items, nodup_put x r.nodup⟩

/-- Register the items of a list one after the other. -/
def ofList (xs : List α) : Registry α := xs.foldl insert empty

/-! ## Lookups after a registration -/

theorem find?_put (x : α) (ys : List α) (n : String) :
    (put x ys).find? (fun y => Named.name y == n) =
      if Named.name x = n then some x else ys.find? (fun y => Named.name y == n) := by
  induction ys with
  | nil => by_cases h : Named.name x = n <;> simp [put, h]
  | cons y ys ih =>
    by_cases hy : Named.name y = Named.name x
    · by_cases h : Named.name x = n <;> simp [put, hy, h]
    · have hp : put x (y :: ys) = y :: put x ys := by simp [put, hy]
      by_cases hn : Named.name y = n
      · have h : ¬ Named.name x = n := fun e => hy (hn.trans e.symm)
        have hb : (Named.name y == n) = true := by simpa using hn
        simp only [hp, List.find?_cons, hb, h, if_false]
      · have hb : (Named.name y == n) = false := by simpa using hn
        simp only [hp, List.find?_cons, hb, ih]

@[simp] theorem get?_insert (r : Registry α) (x : α) (n : String) :
    (r.insert x).get? n = if Named.name x = n then some x else r.get? n :=
  find?_put x r.items n

@[simp] theorem get?_empty (n : String) : (empty : Registry α).get? n = none := rfl

/-- A lookup finds an item of the registry that has the name. -/
theorem mem_of_get? {r : Registry α} {n : String} {x : α} (h : r.get? n = some x) :
    x ∈ r.items ∧ Named.name x = n :=
  ⟨List.mem_of_find?_eq_some h, by simpa using List.find?_some h⟩

end Registry

end GraphQL
