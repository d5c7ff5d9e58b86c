/-
GraphQL.Proofs.Merging — when merged selections are one field.

Selections of one response key are merged into one group, which is resolved by the
name and the arguments of its first selection. Nothing in collection compares them, and
no rule of validation does: of `a: left` and `a: right` on one object the second is
dropped (`Plan.not_coherent_of_valid`). What keeps the groups of an execution coherent is
the rule on overlapping selections, `Document.OverlapFree`, which is about the schema
and the document only: it takes no notice of directives, as their conditions may be variables.

* `Plan.Collects.overlaps` — any two selection sets that an execution merges overlap.
* `Plan.mergesCoherently_of_overlapFree` — without conflicts in overlapping selections
  every group of every execution is coherent, for all variables and resolvers.
-/
import GraphQL.Proofs.Collecting
import GraphQL.Normal

namespace GraphQL

/-! ## Coherent groups -/

/-- The selections of a group select one field: all have one name and, in any order, the
same arguments with equal literals. -/
def FieldGroup.Coherent (g : FieldGroup) : Prop :=
  ∀ f ∈ g.fields, ∀ f' ∈ g.fields, f.node.name = f'.node.name ∧
    argumentsMatch f.node.arguments f'.node.arguments = true

/-- Every group of every execution is coherent. -/
def Plan.MergesCoherently (p : Plan) (s : Schema) : Prop :=
  ∀ route object sets, p.Collects s route object sets →
    ∀ g ∈ (p.scope s).groupsOn object sets, g.Coherent

/-! ## Conflicts in valid documents -/

/-- Two items side by side. -/
def twinSchema : Schema :=
  let field (name : String) (type : TypeExpr) : FieldDefinition := ⟨name, .empty, type, none⟩
  ((Schema.ofQueryType "Query").register
    (.object ⟨"Item", .ofList [field "id" (.named "ID"), field "name" (.named "String")],
      []⟩)).register
    (.object ⟨"Query", .ofList [field "left" (.named "Item"), field "right" (.named "Item")], []⟩)

/-- Both items under one key. -/
def conflictRequest : Request := .ofText "{ a: left { id } a: right { name } }"

/-- A document can be valid and have selections of different fields merged. -/
theorem Plan.not_coherent_of_valid :
    ∃ p, conflictRequest.plan twinSchema = .ok p ∧
      Validation.findings twinSchema p.document = [] ∧ ¬ p.MergesCoherently twinSchema := by
  have hplan : ((conflictRequest.plan twinSchema).toOption.any fun p =>
      (Validation.findings twinSchema p.document).isEmpty &&
        ((p.scope twinSchema).groupsOn p.root [p.operation.selections]).any fun g =>
          g.fields.any fun f => g.fields.any fun f' => f.node.name != f'.node.name) = true := by
    decide +kernel
  cases hp : conflictRequest.plan twinSchema with
  | error e => simp [hp, Except.toOption] at hplan
  | ok p =>
    simp only [hp, Except.toOption, Option.any_some, Bool.and_eq_true, List.isEmpty_iff,
      List.any_eq_true, bne_iff_ne] at hplan
    obtain ⟨hvalid, g, hg, f, hf, f', hf', hne⟩ := hplan
    refine ⟨p, rfl, hvalid, fun hcoherent => hne ?_⟩
    exact (hcoherent [] p.root _ .root g hg f hf f' hf').1

/-! ## Overlapping selections -/

/-- A type condition keeps an object type that it covers. -/
def Schema.restrictTo (s : Schema) (condition object : String) : Option String :=
  if s.covers condition object then some object else none

namespace Document

/-- A selection that stands in a selection set for an object type, in the set itself or in a
fragment whose condition covers the type. No directive is asked, neither its own nor one of the
fragment: a selection with `@skip(if: true)` counts too. -/
def Selects (d : Document) (s : Schema) (object : String) (set : SelectionSet) (f : Field) :
    Prop :=
  ∃ rest, Walk d.fragments s.restrictTo set object (.field f.node f.selections rest) object

/-- Two selection sets that can be merged for an object type, in the operation with the
selections `top` on the type `root`: the selections of the operation with themselves, and
those of two selections with one response key in overlapping sets. -/
inductive Overlaps (d : Document) (s : Schema) (top : SelectionSet) (root : String) :
    String → SelectionSet → SelectionSet → Prop
  | top : Overlaps d s top root root top top
  | field {object : String} {set set' : SelectionSet} {f f' : Field} {e : FieldDefinition}
      {o : ObjectType} (h : Overlaps d s top root object set set')
      (hf : d.Selects s object set f) (hf' : d.Selects s object set' f')
      (hkey : f.node.responseKey = f'.node.responseKey)
      (he : s.field? object f.node.name = some e) (ho : o ∈ s.possibleTypes e.type.baseName) :
      Overlaps d s top root o.name f.selections f'.selections

/-- In overlapping selection sets, selections with one response key select one field with
the same arguments. -/
def OverlapFree (d : Document) (s : Schema) (top : SelectionSet) (root : String) : Prop :=
  ∀ object set set', d.Overlaps s top root object set set' → ∀ f f',
    d.Selects s object set f → d.Selects s object set' f' →
      f.node.responseKey = f'.node.responseKey →
        f.node.name = f'.node.name ∧ argumentsMatch f.node.arguments f'.node.arguments = true

variable {d : Document} {s : Schema}

theorem Selects.mem_fields {object : String} {set : SelectionSet} {f : Field}
    (h : d.Selects s object set f) (hset : set.fields ⊆ d.fields) :
    f ∈ d.fields ∧ f.selections.fields ⊆ d.fields := by
  obtain ⟨rest, hwalk⟩ := h
  have hsubset := hwalk.fields_subset (fun _ => fields_subset_of_mem_fragments) hset
  rw [SelectionSet.fields] at hsubset
  exact ⟨hsubset List.mem_cons_self,
    fun f' hf' => hsubset (List.mem_cons_of_mem _ (List.mem_append_left _ hf'))⟩

/-- There are no conflicts if no response key of the document stands for two fields. -/
theorem overlapFree_of_fields {top : SelectionSet} {root : String} (htop : top.fields ⊆ d.fields)
    (h : ∀ f ∈ d.fields, ∀ f' ∈ d.fields, f.node.responseKey = f'.node.responseKey →
      f.node.name = f'.node.name ∧ argumentsMatch f.node.arguments f'.node.arguments = true) :
    d.OverlapFree s top root := by
  have hwithin : ∀ {object set set'}, d.Overlaps s top root object set set' →
      set.fields ⊆ d.fields ∧ set'.fields ⊆ d.fields := by
    intro object set set' hoverlaps
    induction hoverlaps with
    | top => exact ⟨htop, htop⟩
    | field _ hf hf' _ _ _ ih => exact ⟨(hf.mem_fields ih.1).2, (hf'.mem_fields ih.2).2⟩
  intro object set set' hoverlaps f f' hf hf' hkey
  obtain ⟨hset, hset'⟩ := hwithin hoverlaps
  exact h f (hf.mem_fields hset).1 f' (hf'.mem_fields hset').1 hkey

end Document

/-! ## Executions without conflicts -/

namespace Plan

variable {s : Schema} {p : Plan}

/-- A selection of a collected group can be collected from one of the merged sets. -/
theorem selects_of_mem_groupsOn {object : String} {sets : List SelectionSet} {g : FieldGroup}
    (hg : g ∈ (p.scope s).groupsOn object sets) {f : Field} (hf : f ∈ g.fields) :
    f.node.responseKey = g.key ∧ ∃ set ∈ sets, p.document.Selects s object set f := by
  obtain ⟨hkey, set, hset, rest, hwalk⟩ := Scope.mem_groupsOn hg hf
  exact ⟨hkey, set, hset, rest, hwalk⟩

/-- In sets that overlap each other, a group is coherent. -/
theorem coherent_of_overlaps
    (h : p.document.OverlapFree s p.operation.selections p.root) {object : String}
    {sets : List SelectionSet}
    (hsets : ∀ set ∈ sets, ∀ set' ∈ sets,
      p.document.Overlaps s p.operation.selections p.root object set set')
    {g : FieldGroup} (hg : g ∈ (p.scope s).groupsOn object sets) : g.Coherent := by
  intro f hf f' hf'
  obtain ⟨hkey, set, hset, hselects⟩ := selects_of_mem_groupsOn hg hf
  obtain ⟨hkey', set', hset', hselects'⟩ := selects_of_mem_groupsOn hg hf'
  exact h object set set' (hsets set hset set' hset') f f' hselects hselects'
    (hkey.trans hkey'.symm)

/-- Any two selection sets that an execution merges overlap, if there are no conflicts
on the way to them: the field that leads to them is that of all selections of its key. -/
theorem Collects.overlaps (h : p.document.OverlapFree s p.operation.selections p.root)
    {route : List Visit} {object : String} {sets : List SelectionSet}
    (hc : p.Collects s route object sets) :
    ∀ set ∈ sets, ∀ set' ∈ sets,
      p.document.Overlaps s p.operation.selections p.root object set set' := by
  induction hc with
  | root =>
    intro set hset set' hset'
    obtain rfl := List.mem_singleton.1 hset
    obtain rfl := List.mem_singleton.1 hset'
    exact .top
  | @field route object sets g d o _ hg _ hd ho ih =>
    intro set hset set' hset'
    obtain ⟨f, hf, rfl⟩ := List.mem_map.1 hset
    obtain ⟨f', hf', rfl⟩ := List.mem_map.1 hset'
    obtain ⟨hkey, set₁, hset₁, hselects⟩ := selects_of_mem_groupsOn hg hf
    obtain ⟨hkey', set₂, hset₂, hselects'⟩ := selects_of_mem_groupsOn hg hf'
    have hname : f.node.name = g.name :=
      (coherent_of_overlaps h ih hg f hf g.first List.mem_cons_self).1
    exact .field (ih set₁ hset₁ set₂ hset₂) hselects hselects' (hkey.trans hkey'.symm)
      (hname ▸ hd) ho

/-- Without conflicts in overlapping selections every group of every execution is coherent.
The premise is about the document and the root type of the operation: the variables of the
plan and the resolvers of the schema do not occur in it. -/
theorem mergesCoherently_of_overlapFree
    (h : p.document.OverlapFree s p.operation.selections p.root) : p.MergesCoherently s :=
  fun _ _ _ hc _ hg => coherent_of_overlaps h (hc.overlaps h) hg

/-- The items of one side twice, under one key. -/
def agreeingRequest : Request :=
  .ofText "{ a: left { id } ...more } fragment more on Query { a: left { name } b: right { id } }"

theorem mergesCoherently_of_overlapFree_demo :
    ∃ p, agreeingRequest.plan twinSchema = .ok p ∧
      p.document.OverlapFree twinSchema p.operation.selections p.root ∧
      p.MergesCoherently twinSchema := by
  have hplan : ((agreeingRequest.plan twinSchema).toOption.any fun p =>
      p.document.fields.all fun f => p.document.fields.all fun f' =>
        f.node.responseKey != f'.node.responseKey || (f.node.name == f'.node.name &&
          argumentsMatch f.node.arguments f'.node.arguments)) = true := by
    decide +kernel
  cases hp : agreeingRequest.plan twinSchema with
  | error e => simp [hp, Except.toOption] at hplan
  | ok p =>
    have htop := Collects.fields_subset (fits_of_plan hp) .root _ List.mem_cons_self
    simp only [hp, Except.toOption, Option.any_some, List.all_eq_true, Bool.or_eq_true,
      bne_iff_ne, Bool.and_eq_true, beq_iff_eq] at hplan
    have hfree : p.document.OverlapFree twinSchema p.operation.selections p.root :=
      Document.overlapFree_of_fields htop fun f hf f' hf' hkey =>
        (hplan f hf f' hf').resolve_left fun hne => hne hkey
    exact ⟨p, rfl, hfree, mergesCoherently_of_overlapFree hfree⟩

end Plan

end GraphQL
