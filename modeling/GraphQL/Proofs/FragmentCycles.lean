/-
GraphQL.Proofs.FragmentCycles — how deep selections nest.

A walk over a selection set gets to fields further inside it or, by a spread, to fields of
fragments. A field that is collected below itself therefore has a spread on the way that
leads back to where it was written: its document has cyclic fragments
(`Document.FragmentsCycle`). In all other documents the fields on a way down are different
ones, so there are at most as many as the document has.

* `SelectionSet.below_of_walk` — where a walk gets to, by induction on the walk.
* `Document.fragmentsCycle_of_below` — nothing is below itself unless fragments are cyclic.
* `Plan.Collects.length_le` — how far an execution can descend without cyclic fragments.
-/
import Mathlib.Logic.Relation
import GraphQL.Proofs.Collecting

namespace GraphQL

open Relation

/-! ## Cycles -/

/-- A fragment has a spread of another one somewhere in it. -/
def Fragment.Spreads (fragments : Registry Fragment) (f g : Fragment) : Prop :=
  ∃ name ∈ f.selections.spreads, fragments.get? name = some g

/-- Some fragment leads back to itself by spreads. -/
def Document.FragmentsCycle (d : Document) : Prop :=
  ∃ f, TransGen (Fragment.Spreads d.fragments) f f

/-! ## Selections below others -/

namespace SelectionSet

/-- A selection set that a walk over another one comes to below a field: it is further
inside, or it is inside a fragment that a spread leads to. -/
inductive Below (fragments : Registry Fragment) (set set' : SelectionSet) : Prop
  | inside (hfields : set'.fields.length < set.fields.length)
      (hspreads : set'.spreads ⊆ set.spreads)
  | spread {name : String} {f g : Fragment} (hname : name ∈ set.spreads)
      (hf : fragments.get? name = some f) (hg : ReflTransGen (Fragment.Spreads fragments) f g)
      (hspreads : set'.spreads ⊆ g.selections.spreads)

variable {fragments : Registry Fragment} {set set' set'' : SelectionSet}

namespace Below

theorem trans (h : Below fragments set set') (h' : Below fragments set' set'') :
    Below fragments set set'' := by
  cases h with
  | inside hfields hspreads =>
    cases h' with
    | inside hfields' hspreads' =>
      exact .inside (hfields'.trans hfields) (List.Subset.trans hspreads' hspreads)
    | spread hname hf hg hspreads' => exact .spread (hspreads hname) hf hg hspreads'
  | spread hname hf hg hspreads =>
    cases h' with
    | inside _ hspreads' =>
      exact .spread hname hf hg (List.Subset.trans hspreads' hspreads)
    | @spread name' f' _ hname' hf' hg' hspreads' =>
      have hleads : Fragment.Spreads fragments _ f' := ⟨name', hspreads hname', hf'⟩
      exact .spread hname hf ((hg.tail hleads).trans hg') hspreads'

/-- What is below a part of a selection set is below the set. -/
theorem of_part (hfields : set.fields.length ≤ set'.fields.length)
    (hspreads : set.spreads ⊆ set'.spreads) (h : Below fragments set set'') :
    Below fragments set' set'' := by
  cases h with
  | inside hfields' hspreads' =>
    exact .inside (hfields'.trans_le hfields) (List.Subset.trans hspreads' hspreads)
  | spread hname hf hg hspreads' => exact .spread (hspreads hname) hf hg hspreads'

/-- What is below the body of a fragment is below its spread. -/
theorem of_fragment {f : Fragment} {name : String} (hname : name ∈ set.spreads)
    (hf : fragments.get? name = some f) (h : Below fragments f.selections set') :
    Below fragments set set' := by
  cases h with
  | inside _ hspreads => exact .spread hname hf .refl hspreads
  | @spread name' f' _ hname' hf' hg hspreads =>
    have hleads : Fragment.Spreads fragments f f' := ⟨name', hname', hf'⟩
    exact .spread hname hf (.head hleads hg) hspreads

end Below

/-- The sub-selection of a field that a walk stands at is below the set walked over. -/
theorem below_of_walk {τ : Type} {restrict : String → τ → Option τ} {t t' : τ}
    {node : FieldNode} {sub rest : SelectionSet}
    (h : Walk fragments restrict set t (.field node sub rest) t') : Below fragments set sub := by
  generalize hat : SelectionSet.field node sub rest = stop at h
  induction h with
  | here =>
    subst hat
    refine .inside ?_ (List.subset_append_left _ _)
    rw [fields, List.length_cons, List.length_append]
    omega
  | pastField _ ih =>
    refine (ih hat).of_part ?_ (List.subset_append_right _ _)
    rw [fields, List.length_cons, List.length_append]
    omega
  | pastInline _ ih =>
    refine (ih hat).of_part ?_ (List.subset_append_right _ _)
    rw [fields, List.length_append]
    omega
  | pastSpread _ ih =>
    refine (ih hat).of_part ?_ (List.subset_cons_self _ _)
    rw [fields]
  | into _ _ ih =>
    refine (ih hat).of_part ?_ (List.subset_append_left _ _)
    rw [fields, List.length_append]
    omega
  | intoOn _ _ _ ih =>
    refine (ih hat).of_part ?_ (List.subset_append_left _ _)
    rw [fields, List.length_append]
    omega
  | intoFragment hf _ _ ih => exact .of_fragment List.mem_cons_self hf (ih hat)

end SelectionSet

/-- A selection set is below itself only if fragments are cyclic: it has a spread, and it is
written in a fragment that the spread leads to. -/
theorem Document.fragmentsCycle_of_below {d : Document} {set : SelectionSet}
    (h : SelectionSet.Below d.fragments set set) : d.FragmentsCycle := by
  cases h with
  | inside hfields _ => exact absurd hfields (Nat.lt_irrefl _)
  | @spread name f _ hname hf hg hspreads => exact ⟨f, .tail' hg ⟨name, hspreads hname, hf⟩⟩

/-! ## How far an execution can descend -/

namespace Plan

variable {p : Plan} {s : Schema} {route : List Visit} {object : String}
  {sets : List SelectionSet}

/-- Above a field that is collected at the end of a route there is a field for each visit on
the route, each with all further ones below it. -/
theorem Collects.exists_above (hp : p.Fits s) (h : p.Collects s route object sets)
    {g : FieldGroup} (hg : g ∈ (p.scope s).groupsOn object sets) {f : Field}
    (hf : f ∈ g.fields) :
    ∃ above : List Field, above.length = route.length ∧ f :: above ⊆ p.document.fields ∧
      (f :: above).Pairwise fun inner outer =>
        SelectionSet.Below p.document.fragments outer.selections inner.selections := by
  induction h generalizing g f with
  | root =>
    have hmem := Collects.root.mem_fields hp hg hf
    exact ⟨[], rfl, List.cons_subset.2 ⟨hmem, List.nil_subset _⟩, List.pairwise_singleton _ _⟩
  | @field route object sets g' d o h hg' hn hd ho ih =>
    have hmem := (h.field hg' hn hd ho).mem_fields hp hg hf
    obtain ⟨-, set, hset, rest, hwalk⟩ := Scope.mem_groupsOn hg hf
    obtain ⟨f', hf', rfl⟩ := List.mem_map.1 hset
    obtain ⟨above, hlength, habove, hbelow⟩ := ih hg' hf'
    have hf'f := SelectionSet.below_of_walk hwalk
    refine ⟨f' :: above, by simp [hlength], List.cons_subset.2 ⟨hmem, habove⟩, ?_⟩
    refine List.pairwise_cons.2 ⟨List.forall_mem_cons.2 ⟨hf'f, fun k hk => ?_⟩, hbelow⟩
    exact ((List.pairwise_cons.1 hbelow).1 k hk).trans hf'f

/-- Without cyclic fragments an execution descends through different fields of the
document. -/
theorem Collects.length_le (hp : p.Fits s) (hcycle : ¬ p.document.FragmentsCycle)
    (h : p.Collects s route object sets) : route.length ≤ p.document.fields.length := by
  cases h with
  | root => exact Nat.zero_le _
  | @field route _ _ g d o h hg hn hd ho =>
    obtain ⟨above, hlength, habove, hbelow⟩ := h.exists_above hp hg List.mem_cons_self
    have hne : ∀ {inner outer : Field},
        SelectionSet.Below p.document.fragments outer.selections inner.selections →
          inner ≠ outer := by
      rintro inner _ hself rfl
      exact hcycle (Document.fragmentsCycle_of_below hself)
    have hnodup : (g.first :: above).Nodup := hbelow.imp hne
    have hle := (hnodup.subperm habove).length_le
    simpa [hlength] using hle

end Plan

end GraphQL
