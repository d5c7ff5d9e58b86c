/-
GraphQL.Proofs.ValidationRules — what a document without findings obeys.

The rules of validation are stated here for the places of a document (`Rules`): a selection
set at a time, with the type that it is on as far as that is known (`Stands`). They are about
schema and document alone and do not mention the validator, which visits places in some order
and turns back at some of them.

The validator turns back at a field that it finds wrong, but also at some fields that it finds
nothing wrong with: at `__typename`, at fields whose type is not registered or an input
object, and at every field of an operation for which the schema has no root type. What is
written below such a field is not checked, and a document may break any rule there.

* `findings_eq_nil_iff_rules` — nothing is found exactly if the rules hold at the places that
  the validator gets to; for whole documents, `lawful_of_findings` needs that no selections
  have been passed over (`Overt`), and `findings_of_lawful` does not.
* `overt_of_outputFields` — when none are: a condition on the schema and on the root types.
* `passed_over` — one document for each of the three ways to hide a broken rule.
-/
import GraphQL.Proofs.ClosedSchemas
import GraphQL.Proofs.CycleSearch
import GraphQL.Proofs.FragmentInlining

namespace GraphQL

/-! ## Lookups -/

namespace Schema

variable {s : Schema}

/-- The name is registered for an object, an interface or a union. -/
def IsComposite (s : Schema) (name : String) : Prop :=
  ∃ t, s.type? name = some t ∧ t.isComposite = true

/-- What a field is declared as on the type it is selected on. The answer to `__typename` is
the engine's own, on every type. -/
def declaration? (s : Schema) (parent? : Option String) (node : FieldNode) :
    Option FieldDefinition :=
  if node.name = "__typename" then none else parent?.bind fun parent => s.field? parent node.name

theorem declaration?_eq_some {parent? : Option String} {node : FieldNode} {e : FieldDefinition} :
    s.declaration? parent? node = some e ↔ node.name ≠ "__typename" ∧
      ∃ parent, parent? = some parent ∧ s.field? parent node.name = some e := by
  unfold declaration?
  split
  · next hname => simp [hname]
  · next hname => simp [hname, Option.bind_eq_some_iff]

end Schema

theorem SelectionSet.isEmpty_iff {set : SelectionSet} : set.isEmpty = true ↔ set = .nil := by
  cases set <;> simp [isEmpty]

theorem SelectionSet.isEmpty_eq_false {set : SelectionSet} :
    set.isEmpty = false ↔ set ≠ .nil := by
  cases set <;> simp [isEmpty]

/-- A fragment of the name is defined in the document. -/
def Document.Defines (d : Document) (name : String) : Prop :=
  ∃ f, .fragment f ∈ d.definitions ∧ f.name = name

theorem Document.contains_fragments {d : Document} {name : String} :
    d.fragments.contains name = true ↔ d.Defines name := by
  rw [fragments, Registry.contains_ofList, List.any_eq_true]
  constructor
  · rintro ⟨f, hf, hname⟩
    obtain ⟨x, hx, hxf⟩ := List.mem_filterMap.1 hf
    cases x with
    | operation o => cases hxf
    | fragment f' =>
      obtain rfl := Option.some.inj hxf
      exact ⟨f', hx, beq_iff_eq.1 hname⟩
  · rintro ⟨f, hf, hname⟩
    exact ⟨f, List.mem_filterMap.2 ⟨_, hf, rfl⟩, beq_iff_eq.2 hname⟩

namespace Validation

variable {s : Schema} {d : Document}

/-! ## Places -/

/-- The composite type that the sub-selection of a field is on, if the field has one. -/
def fieldType? (s : Schema) (parent? : Option String) (node : FieldNode) : Option String :=
  (s.declaration? parent? node).bind fun e => conditionType? s e.type.baseName

/-- A selection set, or what is left of one, and the type it is on if that is known. -/
abbrev Places := SelectionSet → Option String → Prop

/-- The places of a document that one gets to from its definitions, going into a fragment on a
condition or into a field only where `goes` holds of the type that this leads to. -/
inductive Stands (s : Schema) (d : Document) (goes : Option String → Prop) : Places
  | operation {o : Operation} (ho : .operation o ∈ d.definitions) :
      Stands s d goes o.selections (rootTypeName? s o.kind)
  | fragment {f : Fragment} (hf : .fragment f ∈ d.definitions)
      (hgoes : goes (conditionType? s f.condition)) :
      Stands s d goes f.selections (conditionType? s f.condition)
  | pastField {node : FieldNode} {sub rest : SelectionSet} {parent? : Option String}
      (h : Stands s d goes (.field node sub rest) parent?) : Stands s d goes rest parent?
  | pastInline {head : InlineHead} {sub rest : SelectionSet} {parent? : Option String}
      (h : Stands s d goes (.inline head sub rest) parent?) : Stands s d goes rest parent?
  | pastSpread {spread : Spread} {rest : SelectionSet} {parent? : Option String}
      (h : Stands s d goes (.spread spread rest) parent?) : Stands s d goes rest parent?
  | intoField {node : FieldNode} {sub rest : SelectionSet} {parent? : Option String}
      (h : Stands s d goes (.field node sub rest) parent?)
      (hgoes : goes (fieldType? s parent? node)) : Stands s d goes sub (fieldType? s parent? node)
  | into {head : InlineHead} {sub rest : SelectionSet} {parent? : Option String}
      (h : Stands s d goes (.inline head sub rest) parent?) (hc : head.condition? = none) :
      Stands s d goes sub parent?
  | intoOn {head : InlineHead} {sub rest : SelectionSet} {parent? : Option String} {c : String}
      (h : Stands s d goes (.inline head sub rest) parent?) (hc : head.condition? = some c)
      (hgoes : goes (conditionType? s c)) : Stands s d goes sub (conditionType? s c)

/-- Every place of a document. -/
abbrev Anywhere (s : Schema) (d : Document) : Places := Stands s d fun _ => True

/-- The places of a document that are on known types, as far as the schema has root types. -/
abbrev Checked (s : Schema) (d : Document) : Places := Stands s d fun t? => t?.isSome = true

theorem anywhere_of_checked {set : SelectionSet} {parent? : Option String}
    (h : Checked s d set parent?) : Anywhere s d set parent? := by
  induction h with
  | operation ho => exact .operation ho
  | fragment hf _ => exact .fragment hf trivial
  | pastField _ ih => exact .pastField ih
  | pastInline _ ih => exact .pastInline ih
  | pastSpread _ ih => exact .pastSpread ih
  | intoField _ _ ih => exact .intoField ih trivial
  | into _ hc ih => exact .into ih hc
  | intoOn _ hc _ ih => exact .intoOn ih hc trivial

/-! ## Rules -/

/-- The rules of validation for a document and some places in it. -/
structure Rules (s : Schema) (d : Document) (places : Places) : Prop where
  /-- Fragments that are spread are defined. -/
  spreads : ∀ spread rest parent?, places (.spread spread rest) parent? → d.Defines spread.name
  /-- Conditions of inline fragments name composite types. -/
  inlines : ∀ head sub rest parent?, places (.inline head sub rest) parent? →
    ∀ c ∈ head.condition?, s.IsComposite c
  /-- So do conditions of fragments. -/
  fragments : ∀ f, .fragment f ∈ d.definitions → s.IsComposite f.condition
  /-- Fields are declared on the type they are selected on. -/
  fields : ∀ node sub rest parent, places (.field node sub rest) (some parent) →
    node.name = "__typename" ∨ ∃ e, s.field? parent node.name = some e
  /-- Arguments that cannot be left out are given, and not as `null`. -/
  arguments : ∀ node sub rest parent?, places (.field node sub rest) parent? →
    ∀ e ∈ s.declaration? parent? node, ∀ a ∈ e.arguments.items, a.type.isNonNull = true →
      a.default? = none → ∃ l, (a.name, l) ∈ node.arguments ∧ l ≠ .null
  /-- Fields of scalar and enum types have no sub-selection. -/
  leaves : ∀ node sub rest parent?, places (.field node sub rest) parent? →
    ∀ e ∈ s.declaration? parent? node, ∀ t ∈ s.type? e.type.baseName, t.isLeaf = true → sub = .nil
  /-- Fields of composite types have one. -/
  composites : ∀ node sub rest parent?, places (.field node sub rest) parent? →
    ∀ e ∈ s.declaration? parent? node, ∀ t ∈ s.type? e.type.baseName, t.isComposite = true →
      sub ≠ .nil
  /-- No fragment reaches itself. -/
  acyclic : ∀ f, .fragment f ∈ d.definitions → ¬ f.ReachesItself d.fragments

/-- The document obeys the rules everywhere; `__typename`, which is a string wherever it is
asked for, has no sub-selection either. -/
structure Lawful (s : Schema) (d : Document) : Prop where
  rules : Rules s d (Anywhere s d)
  typenames : ∀ node sub rest parent?, Anywhere s d (.field node sub rest) parent? →
    node.name = "__typename" → sub = .nil

/-- A field that is not wrong but does not lead to a sub-selection on a known type, and does not
exclude one as leaves do. -/
def PassedOver (s : Schema) (parent? : Option String) (node : FieldNode) : Prop :=
  node.name = "__typename" ∨ parent? = none ∨
    ∃ e ∈ s.declaration? parent? node, ∀ t ∈ s.type? e.type.baseName,
      t.isLeaf = false ∧ t.isComposite = false

/-- There is nothing to see below fields that are passed over. -/
def Overt (s : Schema) (d : Document) : Prop :=
  ∀ node sub rest parent?, Checked s d (.field node sub rest) parent? →
    PassedOver s parent? node → sub = .nil

/-- Rules for some places are rules for others if nothing is written at those that are new. -/
theorem Rules.of_places {places places' : Places} (h : Rules s d places)
    (hplaces : ∀ set parent?, places' set parent? → set = .nil ∨ places set parent?) :
    Rules s d places' where
  spreads sp rest parent? hstands :=
    h.spreads sp rest parent? ((hplaces _ _ hstands).resolve_left nofun)
  inlines head sub rest parent? hstands :=
    h.inlines head sub rest parent? ((hplaces _ _ hstands).resolve_left nofun)
  fragments := h.fragments
  fields node sub rest parent hstands :=
    h.fields node sub rest parent ((hplaces _ _ hstands).resolve_left nofun)
  arguments node sub rest parent? hstands :=
    h.arguments node sub rest parent? ((hplaces _ _ hstands).resolve_left nofun)
  leaves node sub rest parent? hstands :=
    h.leaves node sub rest parent? ((hplaces _ _ hstands).resolve_left nofun)
  composites node sub rest parent? hstands :=
    h.composites node sub rest parent? ((hplaces _ _ hstands).resolve_left nofun)
  acyclic := h.acyclic

/-! ## What is found at a place -/

section

variable {node : FieldNode} {known : String → Bool} {parent? : Option String}
  {sub rest : SelectionSet}

theorem conditionFindings_eq_nil_iff {name : String} {p : Position} :
    conditionFindings s name p = [] ↔ s.IsComposite name := by
  unfold conditionFindings Schema.IsComposite
  cases s.type? name <;> simp

theorem conditionType?_eq_some {name name' : String} :
    conditionType? s name = some name' ↔ s.IsComposite name ∧ name = name' := by
  unfold conditionType? Schema.IsComposite
  cases s.type? name <;> simp

theorem provides_iff {argument : String} : provides node argument = true ↔
    ∃ l, (argument, l) ∈ node.arguments ∧ l ≠ .null := by
  have hnull : ∀ l : Literal, l.isNull = false ↔ l ≠ .null := by
    intro l
    cases l <;> simp [Literal.isNull]
  unfold provides
  simp only [List.any_eq_true, Bool.and_eq_true, beq_iff_eq, Bool.not_eq_true', hnull,
    Prod.exists]
  constructor
  · rintro ⟨name, l, hmem, rfl, hl⟩
    exact ⟨l, hmem, hl⟩
  · rintro ⟨l, hmem, hl⟩
    exact ⟨argument, l, hmem, rfl, hl⟩

theorem argumentFindings_eq_nil_iff {e : FieldDefinition} :
    argumentFindings e node = [] ↔ ∀ a ∈ e.arguments.items, a.type.isNonNull = true →
      a.default? = none → ∃ l, (a.name, l) ∈ node.arguments ∧ l ≠ .null := by
  simp only [argumentFindings, List.filterMap_eq_nil_iff, ← provides_iff]
  refine forall₂_congr fun a _ => ?_
  cases provides node a.name <;> simp

theorem fieldFindings_eq_nil_iff {parent : String} {hasSelection : Bool}
    {below : String → List Finding} (hn : node.name ≠ "__typename") {e : FieldDefinition}
    (he : s.field? parent node.name = some e) :
    fieldFindings s parent node hasSelection below = [] ↔
      argumentFindings e node = [] ∧ ∀ t ∈ s.type? e.type.baseName,
        (t.isLeaf = true → hasSelection = false) ∧
          (t.isComposite = true → hasSelection = true ∧ below t.name = []) := by
  rw [fieldFindings, if_neg hn]
  cases ht : s.type? e.type.baseName with
  | none => simp [he, ht]
  | some t =>
    simp only [he, ht, List.append_eq_nil_iff, Option.mem_some_iff, forall_eq']
    cases t <;> cases hasSelection <;> simp [TypeDefinition.isLeaf, TypeDefinition.isComposite]

/-- A field that nothing is found wrong with is declared if it has to be, and then has its
arguments and the right kind of sub-selection, if any. -/
theorem field_eq_nil_iff : selectionFindings s known (.field node sub rest) parent? = [] ↔
    (∀ parent ∈ parent?, node.name = "__typename" ∨ ∃ e, s.field? parent node.name = some e) ∧
      (∀ e ∈ s.declaration? parent? node, argumentFindings e node = [] ∧
        ∀ t ∈ s.type? e.type.baseName, (t.isLeaf = true → sub = .nil) ∧
          (t.isComposite = true → sub ≠ .nil ∧ selectionFindings s known sub (some t.name) = [])) ∧
      selectionFindings s known rest parent? = [] := by
  conv => lhs; unfold selectionFindings
  rw [List.append_eq_nil_iff, ← and_assoc]
  refine and_congr_left fun _ => ?_
  cases parent? with
  | none => simp [Schema.declaration?]
  | some parent =>
    by_cases hn : node.name = "__typename"
    · simp [fieldFindings, Schema.declaration?, hn]
    · cases he : s.field? parent node.name with
      | none => simp [fieldFindings, Schema.declaration?, hn, he]
      | some e =>
        simp [fieldFindings_eq_nil_iff hn he, Schema.declaration?, hn, he,
          SelectionSet.isEmpty_iff, SelectionSet.isEmpty_eq_false]

theorem inline_eq_nil_iff {head : InlineHead} :
    selectionFindings s known (.inline head sub rest) parent? = [] ↔
      (∀ c ∈ head.condition?, s.IsComposite c) ∧
        selectionFindings s known sub (head.condition?.elim parent? (conditionType? s)) = [] ∧
        selectionFindings s known rest parent? = [] := by
  rw [selectionFindings, List.append_eq_nil_iff, ← and_assoc]
  refine and_congr_left fun _ => ?_
  cases head.condition? with
  | none => simp
  | some c => simp [List.append_eq_nil_iff, conditionFindings_eq_nil_iff]

theorem spread_eq_nil_iff {spread : Spread} :
    selectionFindings s known (.spread spread rest) parent? = [] ↔
      known spread.name = true ∧ selectionFindings s known rest parent? = [] := by
  rw [selectionFindings, List.append_eq_nil_iff]
  refine and_congr_left fun _ => ?_
  simp

theorem fragment_eq_nil_iff {fragments : Registry Fragment} {f : Fragment} :
    definitionFindings s fragments (.fragment f) = [] ↔ s.IsComposite f.condition ∧
      selectionFindings s fragments.contains f.selections (conditionType? s f.condition) = [] ∧
      ¬ f.ReachesItself fragments := by
  rw [definitionFindings, List.append_eq_nil_iff, List.append_eq_nil_iff,
    conditionFindings_eq_nil_iff, and_assoc, ← isCyclic_iff]
  simp

end

/-! ## What is found in a document -/

section

variable {set : SelectionSet} {parent? : Option String}

/-- If nothing is found in a document, nothing is found at the places that are checked. -/
theorem selectionFindings_of_checked (h : findings s d = []) (hset : Checked s d set parent?) :
    selectionFindings s d.fragments.contains set parent? = [] := by
  have hdefinitions := List.flatMap_eq_nil_iff.1 h
  induction hset with
  | operation ho => exact hdefinitions _ ho
  | fragment hf _ => exact (fragment_eq_nil_iff.1 (hdefinitions _ hf)).2.1
  | pastField _ ih => exact (field_eq_nil_iff.1 ih).2.2
  | pastInline _ ih => exact (inline_eq_nil_iff.1 ih).2.2
  | pastSpread _ ih => exact (spread_eq_nil_iff.1 ih).2
  | @intoField node sub rest parent? _ hgoes ih =>
    obtain ⟨name, hname⟩ := Option.isSome_iff_exists.1 hgoes
    obtain ⟨e, he, hcondition⟩ := Option.bind_eq_some_iff.1 hname
    obtain ⟨⟨t, ht, hcomposite⟩, rfl⟩ := conditionType?_eq_some.1 hcondition
    rw [hname, ← Schema.name_of_type? ht]
    exact ((((field_eq_nil_iff.1 ih).2.1 e he).2 t ht).2 hcomposite).2
  | into _ hc ih => simpa [hc] using (inline_eq_nil_iff.1 ih).2.1
  | intoOn _ hc _ ih => simpa [hc] using (inline_eq_nil_iff.1 ih).2.1

/-- A document in which nothing is found obeys the rules where it is checked. -/
theorem rules_of_findings (h : findings s d = []) : Rules s d (Checked s d) where
  spreads _ _ _ hset :=
    Document.contains_fragments.1 (spread_eq_nil_iff.1 (selectionFindings_of_checked h hset)).1
  inlines _ _ _ _ hset := (inline_eq_nil_iff.1 (selectionFindings_of_checked h hset)).1
  fragments _ hf := (fragment_eq_nil_iff.1 (List.flatMap_eq_nil_iff.1 h _ hf)).1
  fields _ _ _ _ hset := (field_eq_nil_iff.1 (selectionFindings_of_checked h hset)).1 _ rfl
  arguments _ _ _ _ hset e he := argumentFindings_eq_nil_iff.1
    ((field_eq_nil_iff.1 (selectionFindings_of_checked h hset)).2.1 e he).1
  leaves _ _ _ _ hset e he t ht :=
    (((field_eq_nil_iff.1 (selectionFindings_of_checked h hset)).2.1 e he).2 t ht).1
  composites _ _ _ _ hset e he t ht hcomposite :=
    ((((field_eq_nil_iff.1 (selectionFindings_of_checked h hset)).2.1 e he).2 t ht).2
      hcomposite).1
  acyclic _ hf := (fragment_eq_nil_iff.1 (List.flatMap_eq_nil_iff.1 h _ hf)).2.2

theorem isSome_conditionType? {name : String} :
    (conditionType? s name).isSome = true ↔ s.IsComposite name := by
  simp [Option.isSome_iff_exists, conditionType?_eq_some]

/-- Nothing is found at a place that is checked if the rules hold where documents are checked:
by induction on the selection set, as the walk goes. -/
theorem selectionFindings_of_rules (h : Rules s d (Checked s d))
    (hset : Checked s d set parent?) :
    selectionFindings s d.fragments.contains set parent? = [] := by
  induction set generalizing parent? with
  | nil => rfl
  | field node sub rest ihs ih =>
    refine field_eq_nil_iff.2 ⟨?_, fun e he => ⟨?_, fun t ht => ⟨?_, fun hcomposite => ⟨?_, ?_⟩⟩⟩,
      ih hset.pastField⟩
    · rintro parent rfl
      exact h.fields _ _ _ _ hset
    · exact argumentFindings_eq_nil_iff.2 (h.arguments _ _ _ _ hset e he)
    · exact h.leaves _ _ _ _ hset e he t ht
    · exact h.composites _ _ _ _ hset e he t ht hcomposite
    · have htype : fieldType? s parent? node = some t.name :=
        Option.bind_eq_some_iff.2 ⟨e, he, conditionType?_eq_some.2
          ⟨⟨t, ht, hcomposite⟩, (Schema.name_of_type? ht).symm⟩⟩
      have hsub := hset.intoField (by rw [htype]; rfl)
      rw [htype] at hsub
      exact ihs hsub
  | inline head sub rest ihs ih =>
    refine inline_eq_nil_iff.2 ⟨h.inlines _ _ _ _ hset, ?_, ih hset.pastInline⟩
    cases hc : head.condition? with
    | none => exact ihs (hset.into hc)
    | some c =>
      exact ihs (hset.intoOn hc (isSome_conditionType?.2 (h.inlines _ _ _ _ hset c hc)))
  | spread sp rest ih =>
    exact spread_eq_nil_iff.2
      ⟨Document.contains_fragments.2 (h.spreads _ _ _ hset), ih hset.pastSpread⟩

/-- The rules at the places that are checked are all that is checked. -/
theorem findings_eq_nil_iff_rules : findings s d = [] ↔ Rules s d (Checked s d) := by
  refine ⟨rules_of_findings, fun h => List.flatMap_eq_nil_iff.2 fun x hx => ?_⟩
  cases x with
  | operation o => exact selectionFindings_of_rules h (.operation hx)
  | fragment f =>
    have hcomposite := h.fragments f hx
    exact fragment_eq_nil_iff.2 ⟨hcomposite, selectionFindings_of_rules h
      (.fragment hx (isSome_conditionType?.2 hcomposite)), h.acyclic f hx⟩

/-! ## What is passed over -/

/-- If nothing is found in a document and nothing is passed over in it, then all of it that is
not checked is sub-selections that are left out. -/
theorem checked_of_anywhere (h : findings s d = []) (hovert : Overt s d)
    (hset : Anywhere s d set parent?) : set = .nil ∨ Checked s d set parent? := by
  have hrules := rules_of_findings h
  induction hset with
  | operation ho => exact .inr (.operation ho)
  | fragment hf _ => exact .inr (.fragment hf (isSome_conditionType?.2 (hrules.fragments _ hf)))
  | pastField _ ih => exact .inr (ih.resolve_left nofun).pastField
  | pastInline _ ih => exact .inr (ih.resolve_left nofun).pastInline
  | pastSpread _ ih => exact .inr (ih.resolve_left nofun).pastSpread
  | @intoField node sub rest parent? _ _ ih =>
    have hset := ih.resolve_left nofun
    by_cases hover : PassedOver s parent? node
    · exact .inl (hovert _ _ _ _ hset hover)
    · -- a field that is not passed over is declared and has a leaf type or a composite one
      obtain ⟨hn, hparent⟩ := not_or.1 hover
      obtain ⟨hparent, htype⟩ := not_or.1 hparent
      obtain ⟨parent, rfl⟩ := Option.ne_none_iff_exists'.1 hparent
      obtain ⟨e, he⟩ := (hrules.fields _ _ _ _ hset).resolve_left hn
      have hdeclared : s.declaration? (some parent) node = some e :=
        Schema.declaration?_eq_some.2 ⟨hn, parent, rfl, he⟩
      by_cases hcomposite : s.IsComposite e.type.baseName
      · refine .inr (hset.intoField ?_)
        rw [fieldType?, hdeclared, Option.bind_some]
        exact isSome_conditionType?.2 hcomposite
      · refine .inl (Classical.byContradiction fun hsub => htype ⟨e, hdeclared, fun t ht => ?_⟩)
        have hleaf := mt (hrules.leaves _ _ _ _ hset e hdeclared t ht) hsub
        have hnot : ¬ t.isComposite = true := fun hc => hcomposite ⟨t, ht, hc⟩
        exact ⟨by simpa using hleaf, by simpa using hnot⟩
  | into _ hc ih => exact .inr ((ih.resolve_left nofun).into hc)
  | intoOn _ hc _ ih =>
    have hset := ih.resolve_left nofun
    exact .inr (hset.intoOn hc (isSome_conditionType?.2 (hrules.inlines _ _ _ _ hset _ hc)))

/-- A document that obeys the rules everywhere obeys them where it is checked. -/
theorem findings_of_lawful (h : Lawful s d) : findings s d = [] :=
  findings_eq_nil_iff_rules.2 (h.rules.of_places fun _ _ hset => .inr (anywhere_of_checked hset))

/-- A document in which nothing is found and nothing is passed over obeys the rules everywhere. -/
theorem lawful_of_findings (h : findings s d = []) (hovert : Overt s d) : Lawful s d where
  rules := (rules_of_findings h).of_places fun _ _ => checked_of_anywhere h hovert
  typenames _ _ _ _ hset hname :=
    hovert _ _ _ _ ((checked_of_anywhere h hovert hset).resolve_left nofun) (.inl hname)

/-- What is written below a field that is passed over makes no difference. -/
theorem selectionFindings_of_passedOver {known : String → Bool} {node : FieldNode}
    (h : PassedOver s parent? node) (sub sub' rest : SelectionSet) :
    selectionFindings s known (.field node sub rest) parent? =
      selectionFindings s known (.field node sub' rest) parent? := by
  unfold selectionFindings
  congr 1
  rcases h with hname | rfl | ⟨e, hdeclared, htype⟩
  · cases parent? <;> simp [fieldFindings, hname]
  · rfl
  · obtain ⟨hn, parent, rfl, he⟩ := Schema.declaration?_eq_some.1 hdeclared
    simp only [fieldFindings, if_neg hn, he]
    cases ht : s.type? e.type.baseName with
    | none => rfl
    | some t =>
      obtain ⟨hleaf, hcomposite⟩ := htype t ht
      simp [hleaf, hcomposite]

end

/-! ## When nothing is passed over -/

/-- The fields of a place are fields of its document. -/
theorem Stands.fields_subset {goes : Option String → Prop} {set : SelectionSet}
    {parent? : Option String} (h : Stands s d goes set parent?) : set.fields ⊆ d.fields := by
  have hdefinition : ∀ x ∈ d.definitions, x.selections.fields ⊆ d.fields :=
    fun x hx _ hf => List.mem_flatMap.2 ⟨x, hx, hf⟩
  induction h with
  | operation ho => exact hdefinition _ ho
  | fragment hf _ => exact hdefinition _ hf
  | pastField _ ih => exact fun _ hf => ih (List.mem_cons_of_mem _ (List.mem_append_right _ hf))
  | pastInline _ ih => exact fun _ hf => ih (List.mem_append_right _ hf)
  | pastSpread _ ih => exact ih
  | intoField _ _ ih => exact fun _ hf => ih (List.mem_cons_of_mem _ (List.mem_append_left _ hf))
  | into _ _ ih | intoOn _ _ _ ih => exact fun _ hf => ih (List.mem_append_left _ hf)

/-- The schema has a root type for each operation of the document. -/
def Rooted (s : Schema) (d : Document) : Prop :=
  ∀ o ∈ d.operations, (rootTypeName? s o.kind).isSome = true

instance (s : Schema) (d : Document) : Decidable (Rooted s d) :=
  inferInstanceAs (Decidable (∀ o ∈ d.operations, (rootTypeName? s o.kind).isSome = true))

/-- With its root types the schema gives a type to every place that is checked. -/
theorem isSome_of_checked (hroots : Rooted s d) {set : SelectionSet} {parent? : Option String}
    (h : Checked s d set parent?) : parent?.isSome = true := by
  induction h with
  | operation ho => exact hroots _ (List.mem_filterMap.2 ⟨_, ho, rfl⟩)
  | fragment _ hgoes | intoField _ hgoes | intoOn _ _ hgoes => exact hgoes
  | pastField _ ih | pastInline _ ih | pastSpread _ ih | into _ _ ih => exact ih

end Validation

/-- The fields of object and interface types have types that are registered for output. -/
def Schema.OutputFields (s : Schema) : Prop :=
  ∀ t ∈ s.types.items, ∀ fields ∈ t.fields?, ∀ e ∈ fields.items,
    s.isOutput e.type.baseName = true

instance (s : Schema) : Decidable s.OutputFields :=
  inferInstanceAs (Decidable (∀ t ∈ s.types.items, ∀ fields ∈ t.fields?, ∀ e ∈ fields.items,
    s.isOutput e.type.baseName = true))

/-- No field of the document asks for parts of a type name. -/
def Document.PlainTypenames (d : Document) : Prop :=
  ∀ f ∈ d.fields, f.node.name = "__typename" → f.selections.isEmpty = true

instance (d : Document) : Decidable d.PlainTypenames :=
  inferInstanceAs (Decidable (∀ f ∈ d.fields, f.node.name = "__typename" →
    f.selections.isEmpty = true))

namespace Validation

variable {s : Schema} {d : Document}

/-- Nothing is passed over if the schema has the types that fields and operations need and
`__typename` is written as it should. -/
theorem overt_of_outputFields (hfields : s.OutputFields) (hroots : Rooted s d)
    (hnames : d.PlainTypenames) : Overt s d := by
  rintro node sub rest parent? hset (hname | rfl | ⟨e, hdeclared, htype⟩)
  · have hmem := hset.fields_subset (List.mem_cons_self : Field.mk node sub ∈ _)
    exact SelectionSet.isEmpty_iff.1 (hnames _ hmem hname)
  · exact Bool.noConfusion (isSome_of_checked hroots hset)
  · -- the declared type is registered, so it is a leaf or composite
    obtain ⟨-, parent, rfl, he⟩ := Schema.declaration?_eq_some.1 hdeclared
    obtain ⟨fields, hget, hmem⟩ := Option.bind_eq_some_iff.1 he
    obtain ⟨t, ht, htfields⟩ := Option.bind_eq_some_iff.1 hget
    have houtput := hfields t (Registry.mem_of_get? ht).1 fields htfields e
      (Registry.mem_of_get? hmem).1
    unfold Schema.isOutput at houtput
    cases ht' : s.type? e.type.baseName with
    | none => simp [ht'] at houtput
    | some t' =>
      have hneither := htype t' ht'
      cases t' <;>
        simp [ht', TypeDefinition.isLeaf, TypeDefinition.isComposite] at houtput hneither

/-! ## How exact the rules are -/

/-- The rules of validation are exact where it checks: nothing is found in a document exactly if
the rules hold at the places that are checked. A document that obeys them everywhere is
accepted, and if nothing is passed over no other document is; what is written below a field
that is passed over makes no difference to what is found. -/
theorem rules_exact (s : Schema) (d : Document) :
    (findings s d = [] ↔ Rules s d (Checked s d)) ∧
      (Lawful s d → findings s d = []) ∧
      (Overt s d → (findings s d = [] ↔ Lawful s d)) ∧
      ∀ node sub sub' rest parent?, PassedOver s parent? node →
        selectionFindings s d.fragments.contains (.field node sub rest) parent? =
          selectionFindings s d.fragments.contains (.field node sub' rest) parent? :=
  ⟨findings_eq_nil_iff_rules, findings_of_lawful,
    fun hovert => ⟨fun h => lawful_of_findings h hovert, findings_of_lawful⟩,
    fun _ sub sub' rest _ hover => selectionFindings_of_passedOver hover sub sub' rest⟩

/-- A field with a sub-selection, and nothing after it. -/
def selecting (name : String) (sub : SelectionSet) : SelectionSet :=
  .field { (default : FieldNode) with name } sub .nil

/-- The document of one operation and some fragments. -/
def documentOf (kind : OperationKind) (selections : SelectionSet)
    (fragments : List Fragment) : Document :=
  ⟨.operation { (default : Operation) with kind, selections } :: fragments.map .fragment⟩

/-- All things with what a fragment selects of them. -/
def allThings : Document :=
  documentOf .query (selecting "things" (spreading ["basics"]))
    [onThings "basics" (.inline { (default : InlineHead) with condition? := some "Sailor" }
      (selecting "rank" .nil) (selecting "__typename" .nil))]

theorem rules_exact_demo : Overt demoSchema allThings ∧ Lawful demoSchema allThings ∧
    Rules demoSchema allThings (Checked demoSchema allThings) := by
  have hovert : Overt demoSchema allThings :=
    overt_of_outputFields (by decide +kernel) (by decide +kernel) (by decide +kernel)
  have hfindings : findings demoSchema allThings = [] := by decide +kernel
  obtain ⟨hrules, -, hlawful, -⟩ := rules_exact demoSchema allThings
  exact ⟨hovert, (hlawful hovert).1 hfindings, hrules.1 hfindings⟩

/-- A schema whose only field has a type that is not registered. -/
def brokenSchema : Schema :=
  (Schema.ofQueryType "Query").register
    (.object ⟨"Query", .ofList [⟨"f", .empty, .named "Missing", none⟩], []⟩)

/-- An operation that asks for one field. -/
def asking (kind : OperationKind) (name : String) (sub : SelectionSet) : Document :=
  documentOf kind (selecting name sub) []

/-- Three documents in which nothing is found although a rule is broken: a type name with a
sub-selection, an operation without a root type that spreads an unknown fragment in a field,
and such a spread below a field of an unregistered type. -/
theorem passed_over :
    (findings demoSchema (asking .query "__typename" (selecting "x" .nil)) = [] ∧
      ¬ Lawful demoSchema (asking .query "__typename" (selecting "x" .nil))) ∧
    (findings demoSchema (asking .mutation "a" (spreading ["nowhere"])) = [] ∧
      ¬ Lawful demoSchema (asking .mutation "a" (spreading ["nowhere"]))) ∧
    (findings brokenSchema (asking .query "f" (spreading ["nowhere"])) = [] ∧
      ¬ Lawful brokenSchema (asking .query "f" (spreading ["nowhere"]))) := by
  have hasked : ∀ s kind name sub, Anywhere s (asking kind name sub) (selecting name sub)
      (rootTypeName? s kind) := fun _ _ _ _ => .operation List.mem_cons_self
  have hnowhere : ∀ kind name sub, ¬ (asking kind name sub).Defines "nowhere" := by
    rintro kind name sub ⟨f, hf, -⟩
    simp [asking, documentOf] at hf
  refine ⟨⟨by decide +kernel, fun h => ?_⟩, ⟨by decide +kernel, fun h => ?_⟩,
    ⟨by decide +kernel, fun h => ?_⟩⟩
  · exact SelectionSet.noConfusion (h.typenames _ _ _ _ (hasked _ _ _ _) rfl)
  · exact hnowhere _ _ _ (h.rules.spreads _ _ _ ((hasked _ _ _ _).intoField trivial))
  · exact hnowhere _ _ _ (h.rules.spreads _ _ _ ((hasked _ _ _ _).intoField trivial))

end Validation

end GraphQL
