/-
GraphQL.Entries — association lists in insertion order.

Objects of data, argument lists and the children of a result object are lists
of pairs. A key is looked up with `List.lookup`; `Entries.insert` replaces the
value of a known key in place and appends a new key, so the order of keys is
the order in which they first appeared.
-/

namespace GraphQL.Entries

variable {α : Type}

/-- Replace the value of a key in place, or append the pair. -/
def insert (key : String) (value : α) : List (String × α) → List (String × α)
  | [] => [(key, value)]
  | (k, v) :: rest => if k = key then (k, value) :: rest else (k, v) :: insert key value rest

/-- Insert pairs one after the other: the last value of a repeated key, in the
place of the first. -/
def ofPairs (pairs : List (String × α)) : List (String × α) :=
  pairs.foldl (fun acc p => insert p.1 p.2 acc) []

/-- The keys in order. -/
def keys (entries : List (String × α)) : List String := entries.map Prod.fst

/-- A new key goes last; a known one leaves the keys as they are. -/
theorem keys_insert (key : String) (value : α) (entries : List (String × α)) :
    keys (insert key value entries) =
      if key ∈ keys entries then keys entries else keys entries ++ [key] := by
  induction entries with
  | nil => simp [insert, keys]
  | cons p rest ih =>
    obtain ⟨k, v⟩ := p
    by_cases h : k = key
    · simp [insert, keys, h]
    · have h' : ¬ key = k := fun e => h e.symm
      simp only [keys] at ih
      by_cases hm : key ∈ rest.map Prod.fst
      · simp only [insert, keys, h, if_false, List.map_cons, ih, hm, if_true, List.mem_cons,
          or_true]
      · simp only [insert, keys, h, if_false, List.map_cons, ih, hm, List.mem_cons, h',
          or_self, List.cons_append]

/-- After an insertion the key has the new value and all others theirs. -/
theorem lookup_insert (key : String) (value : α) (entries : List (String × α)) (k : String) :
    (insert key value entries).lookup k = if k = key then some value else entries.lookup k := by
  induction entries with
  | nil =>
    by_cases h : k = key
    · simp [insert, h]
    · have hb : (k == key) = false := by simpa using h
      simp [insert, List.lookup_cons, h, hb]
  | cons p rest ih =>
    obtain ⟨k', v⟩ := p
    by_cases hp : k' = key
    · subst hp
      by_cases h : k = k'
      · simp [insert, h]
      · have hb : (k == k') = false := by simpa using h
        simp [insert, List.lookup_cons, h, hb]
    · by_cases hk : k = k'
      · subst hk
        simp [insert, hp]
      · have hb : (k == k') = false := by simpa using hk
        simp [insert, List.lookup_cons, hp, hb, ih]

end GraphQL.Entries
