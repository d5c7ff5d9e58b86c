/-
GraphQL.Proofs.Acceptance — what a valid document is spared in execution.

Validation checks each selection once, on the type that the document itself gives for
it. Execution collects selections for the concrete type of each object value, through
fragments that were checked elsewhere and with the sub-selections of all fields merged.
What links the two is an invariant: whatever a walk for a concrete type stands at has
been checked on some type of which the concrete type is a possible type.

* `Validation.accepts_of_walk` — the invariant is kept by a walk, through fragments.
* `Schema.field?_of_covers` — and by a field, if the object types declare what their
  interfaces do.
* `Plan.accepts_of_collects` — hence it holds of every selection set of an execution.
* `Plan.sound_of_valid` — in every execution of a valid document every collected field
  is answered, every fragment is known, and the objects of the response have exactly
  the keys that were collected for them.
-/
import GraphQL.Proofs.Collecting
import GraphQL.Proofs.NullPropagation

namespace GraphQL

/-! ## Possible types -/

namespace Schema

variable {s : Schema}

/-- The registered object types. -/
def objects (s : Schema) : List ObjectType := s.types.items.filterMap TypeDefinition.object?

/-- The registered interfaces. -/
def interfaces (s : Schema) : List InterfaceType :=
  s.types.items.filterMap fun
    | .interface i => some i
    | _ => none

/-- Each object type declares every field of the interfaces it implements, with exactly
the type that the interface gives it. -/
def Implements (s : Schema) : Prop :=
  ∀ o ∈ s.objects, ∀ i ∈ s.interfaces, i.name ∈ o.interfaces → ∀ d ∈ i.fields.items,
    (o.fields.get? d.name).map FieldDefinition.type = some d.type

/-- Each object type declares every field of the interfaces it implements, with a type
whose possible types are possible for the interface as well. -/
def Narrows (s : Schema) : Prop :=
  ∀ o ∈ s.objects, ∀ i ∈ s.interfaces, i.name ∈ o.interfaces → ∀ d ∈ i.fields.items,
    ∃ d' ∈ o.fields.get? d.name,
      ∀ t ∈ s.possibleTypes d'.type.baseName, s.covers d.type.baseName t.name = true

theorem covers_of_mem {name : String} {o : ObjectType} (h : o ∈ s.possibleTypes name) :
    s.covers name o.name = true :=
  List.any_eq_true.2 ⟨o, h, beq_self_eq_true _⟩

/-- Keeping the type of a field is a way of narrowing it. -/
theorem Implements.narrows (h : s.Implements) : s.Narrows := by
  intro o ho i hi hmem d hd
  obtain ⟨d', hd', htype⟩ := Option.map_eq_some_iff.1 (h o ho i hi hmem d hd)
  refine ⟨d', hd', fun t ht => ?_⟩
  rw [htype] at ht
  exact covers_of_mem ht

theorem covers_self {name : String} {o : ObjectType} (h : s.object? name = some o) :
    s.covers name name = true := by
  have hname := name_of_object? h
  obtain ⟨t, ht, hobject⟩ := Option.bind_eq_some_iff.1 h
  cases t with
  | object o' =>
    obtain rfl := Option.some.inj hobject
    have hpossible : o' ∈ s.possibleTypes name := by simp [possibleTypes, ht]
    exact hname ▸ covers_of_mem (hname ▸ hpossible)
  | _ => simp [TypeDefinition.object?] at hobject

/-- Only composite types have possible types. -/
theorem isComposite_of_covers {name object : String} (h : s.covers name object = true) :
    ∃ t, s.type? name = some t ∧ t.isComposite = true := by
  obtain ⟨o, ho, _⟩ := List.any_eq_true.1 h
  unfold possibleTypes at ho
  split at ho
  · next t ht => exact ⟨_, ht, rfl⟩
  · next t ht => exact ⟨_, ht, rfl⟩
  · next t ht => exact ⟨_, ht, rfl⟩
  · simp at ho

/-- A type with fields is an object type, whose only possible type it is itself, or an
interface, whose possible types implement it. -/
theorem covers_cases {parent name : String} {d : FieldDefinition}
    (hd : s.field? parent name = some d) :
    (∀ object, s.covers parent object = true → object = parent) ∨
      ∃ i ∈ s.interfaces, d ∈ i.fields.items ∧ d.name = name ∧
        ∀ object, s.covers parent object = true → ∃ o ∈ s.objects, i.name ∈ o.interfaces ∧
          s.field? object name = o.fields.get? name := by
  obtain ⟨fields, hfields, hget⟩ := Option.bind_eq_some_iff.1 hd
  obtain ⟨t, ht, hof⟩ := Option.bind_eq_some_iff.1 hfields
  cases t with
  | object o' =>
    refine .inl fun object hc => ?_
    obtain ⟨o, ho, hname⟩ := List.any_eq_true.1 hc
    obtain rfl : o = o' := by simpa [possibleTypes, ht] using ho
    have hparent : o.name = parent := name_of_type? ht
    exact (beq_iff_eq.1 hname).symm.trans hparent
  | interface i =>
    obtain rfl : i.fields = fields := Option.some.inj hof
    have hinterface : i ∈ s.interfaces :=
      List.mem_filterMap.2 ⟨_, (Registry.mem_of_get? ht).1, rfl⟩
    obtain ⟨hdmem, hdname⟩ := Registry.mem_of_get? hget
    refine .inr ⟨i, hinterface, hdmem, hdname, fun object hc => ?_⟩
    obtain ⟨o, ho, hname⟩ := List.any_eq_true.1 hc
    obtain rfl : o.name = object := beq_iff_eq.1 hname
    simp only [possibleTypes, ht] at ho
    obtain ⟨hobject, hcontains⟩ := List.mem_filter.1 ho
    refine ⟨o, hobject, List.contains_iff_mem.1 hcontains, ?_⟩
    obtain ⟨t, htmem, hto⟩ := List.mem_filterMap.1 hobject
    cases t with
    | object o' =>
      obtain rfl : o' = o := Option.some.inj hto
      have htype : s.type? o'.name = some (.object o') := Registry.get?_of_mem htmem
      rw [field?, htype, Option.bind_some]
      rfl
    | _ => simp [TypeDefinition.object?] at hto
  | _ => simp [TypeDefinition.fields?] at hof

/-- A field of a type is a field of each of its possible types, and gives possible types
of the former there. -/
theorem field?_of_covers (hs : s.Narrows) {parent object name : String} {d : FieldDefinition}
    (hd : s.field? parent name = some d) (hc : s.covers parent object = true) :
    ∃ d', s.field? object name = some d' ∧
      ∀ t ∈ s.possibleTypes d'.type.baseName, s.covers d.type.baseName t.name = true := by
  rcases covers_cases hd with hself | ⟨i, hi, hmem, rfl, himplements⟩
  · rw [hself object hc]
    exact ⟨d, hd, fun t ht => covers_of_mem ht⟩
  · obtain ⟨o, ho, hinterface, hfield⟩ := himplements object hc
    obtain ⟨d', hd', hbelow⟩ := hs o ho i hi hinterface d hmem
    exact ⟨d', hfield.trans hd', hbelow⟩

end Schema

/-! ## Accepted selection sets -/

namespace Validation

variable {s : Schema} {known : String → Bool} {parent : String} {rest : SelectionSet}

/-- A selection set in which nothing is found when it is checked on a type. -/
def Accepts (s : Schema) (known : String → Bool) (set : SelectionSet) (parent : String) : Prop :=
  selectionFindings s known set (some parent) = []

/-- An accepted field stands on a field of the type, and its selections are accepted on
the type of that field. -/
theorem field?_of_accepts {node : FieldNode} {sub : SelectionSet}
    (h : Accepts s known (.field node sub rest) parent) (hn : node.name ≠ "__typename") :
    ∃ d, s.field? parent node.name = some d ∧
      ∀ t, s.type? d.type.baseName = some t → t.isComposite = true →
        Accepts s known sub t.name := by
  unfold Accepts at h
  rw [selectionFindings] at h
  have hfield := (List.append_eq_nil_iff.1 h).1
  simp only [fieldFindings, hn, if_false] at hfield
  cases hd : s.field? parent node.name with
  | none => simp [hd] at hfield
  | some d =>
    refine ⟨d, rfl, fun t ht hcomposite => ?_⟩
    simp only [hd, ht] at hfield
    have hbelow := (List.append_eq_nil_iff.1 hfield).2
    rw [if_pos hcomposite] at hbelow
    split at hbelow
    · simp at hbelow
    · exact (List.append_eq_nil_iff.1 hbelow).2

theorem known_of_accepts {spread : Spread}
    (h : Accepts s known (.spread spread rest) parent) : known spread.name = true := by
  unfold Accepts at h
  rw [selectionFindings] at h
  have hspread := (List.append_eq_nil_iff.1 h).1
  split at hspread
  · assumption
  · simp at hspread

theorem accepts_rest_of_field {node : FieldNode} {sub : SelectionSet}
    (h : Accepts s known (.field node sub rest) parent) : Accepts s known rest parent := by
  unfold Accepts at h
  rw [selectionFindings] at h
  exact (List.append_eq_nil_iff.1 h).2

theorem accepts_rest_of_inline {head : InlineHead} {sub : SelectionSet}
    (h : Accepts s known (.inline head sub rest) parent) : Accepts s known rest parent := by
  unfold Accepts at h
  rw [selectionFindings] at h
  exact (List.append_eq_nil_iff.1 h).2

theorem accepts_rest_of_spread {spread : Spread}
    (h : Accepts s known (.spread spread rest) parent) : Accepts s known rest parent := by
  unfold Accepts at h
  rw [selectionFindings] at h
  exact (List.append_eq_nil_iff.1 h).2

/-- A condition that nothing is found wrong with puts the selections on its type. -/
theorem conditionType?_of_findings {c : String} {position : Position}
    (h : conditionFindings s c position = []) : conditionType? s c = some c := by
  unfold conditionFindings at h
  unfold conditionType?
  cases ht : s.type? c with
  | none => simp [ht] at h
  | some t =>
    simp only [ht] at h ⊢
    split at h
    · next hcomposite => rw [if_pos hcomposite]
    · simp at h

theorem accepts_into {head : InlineHead} {sub : SelectionSet} (hc : head.condition? = none)
    (h : Accepts s known (.inline head sub rest) parent) : Accepts s known sub parent := by
  unfold Accepts at h
  rw [selectionFindings, hc] at h
  exact (List.append_eq_nil_iff.1 h).1

theorem accepts_intoOn {head : InlineHead} {sub : SelectionSet} {c : String}
    (hc : head.condition? = some c) (h : Accepts s known (.inline head sub rest) parent) :
    Accepts s known sub c := by
  unfold Accepts at h
  rw [selectionFindings, hc] at h
  obtain ⟨hcondition, hsub⟩ := List.append_eq_nil_iff.1 (List.append_eq_nil_iff.1 h).1
  rwa [conditionType?_of_findings hcondition] at hsub

/-- Whatever a walk stands at has been accepted on a type that covers its target, if what
it set out from has: type conditions are covered by themselves, and fragments are
accepted on theirs. -/
theorem accepts_of_walk {τ : Type} {fragments : Registry Fragment}
    {restrict : String → τ → Option τ} (Covers : String → τ → Prop)
    (hfragments : ∀ f ∈ fragments.items, Accepts s known f.selections f.condition)
    (hrestrict : ∀ c t t', restrict c t = some t' →
      Covers c t' ∧ ∀ parent, Covers parent t → Covers parent t')
    {set set' : SelectionSet} {t t' : τ} (h : Walk fragments restrict set t set' t')
    (hset : Accepts s known set parent) (ht : Covers parent t) :
    ∃ parent', Accepts s known set' parent' ∧ Covers parent' t' := by
  induction h generalizing parent with
  | here => exact ⟨parent, hset, ht⟩
  | pastField _ ih => exact ih (accepts_rest_of_field hset) ht
  | pastInline _ ih => exact ih (accepts_rest_of_inline hset) ht
  | pastSpread _ ih => exact ih (accepts_rest_of_spread hset) ht
  | into hc _ ih =>
    -- without a condition the type stays the one around the fragment
    exact ih (accepts_into hc hset) ht
  | intoOn hc hr _ ih => exact ih (accepts_intoOn hc hset) (hrestrict _ _ _ hr).1
  | intoFragment hf hr _ ih =>
    exact ih (hfragments _ (Registry.mem_of_get? hf).1) (hrestrict _ _ _ hr).1

/-- The fragments of a valid document are accepted on their conditions. -/
theorem accepts_of_mem_fragments {d : Document} (h : findings s d = []) {f : Fragment}
    (hf : f ∈ d.fragments.items) :
    Accepts s d.fragments.contains f.selections f.condition := by
  have hdefinition := List.flatMap_eq_nil_iff.1 h _ (Document.mem_of_mem_fragments hf)
  rw [definitionFindings] at hdefinition
  obtain ⟨hcondition, hselections⟩ :=
    List.append_eq_nil_iff.1 (List.append_eq_nil_iff.1 hdefinition).1
  rwa [conditionType?_of_findings hcondition] at hselections

/-- The operation of a plan is accepted on its root type. -/
theorem accepts_root {p : Plan} (hp : p.Fits s) (h : findings s p.document = []) :
    Accepts s p.document.fragments.contains p.operation.selections p.root := by
  have hdefinition := List.flatMap_eq_nil_iff.1 h _ hp.operation
  rw [definitionFindings] at hdefinition
  have hroot : rootTypeName? s p.operation.kind = some p.root := by
    have hname := hp.root
    unfold Operation.rootTypeName at hname
    cases hkind : p.operation.kind with
    | query =>
      simp only [hkind] at hname
      exact congrArg some (Except.ok.inj hname)
    | mutation =>
      simp only [hkind] at hname
      cases hmutation : s.mutationType? with
      | none => simp [hmutation] at hname
      | some name =>
        simp only [hmutation] at hname
        exact hmutation.trans (congrArg some (Except.ok.inj hname))
    | subscription => simp [hkind] at hname
  rwa [hroot] at hdefinition

end Validation

/-! ## Valid documents in execution -/

/-- No response key of a document stands for fields of two names. -/
def Document.OneNamePerKey (d : Document) : Prop :=
  ∀ f ∈ d.fields, ∀ f' ∈ d.fields,
    f.node.responseKey = f'.node.responseKey → f.node.name = f'.node.name

instance (d : Document) : Decidable d.OneNamePerKey :=
  inferInstanceAs (Decidable (∀ f ∈ d.fields, ∀ f' ∈ d.fields,
    f.node.responseKey = f'.node.responseKey → f.node.name = f'.node.name))

namespace Plan

variable {s : Schema} {p : Plan}

/-- Selections that are merged under one response key select fields of the same name. -/
def MergesByName (p : Plan) (s : Schema) : Prop :=
  ∀ route object sets, p.Collects s route object sets →
    ∀ g ∈ (p.scope s).groupsOn object sets, ∀ f ∈ g.fields, f.node.name = g.name

/-- A type condition that lets an object type pass covers it. -/
theorem covers_of_restrictObject {sc : Scope} {c t t' : String}
    (h : sc.restrictObject c t = some t') : sc.schema.covers c t' = true ∧
      ∀ parent, sc.schema.covers parent t = true → sc.schema.covers parent t' = true := by
  unfold Scope.restrictObject at h
  split at h
  · next hc =>
    obtain rfl := Option.some.inj h
    exact ⟨hc, fun _ hparent => hparent⟩
  · simp at h

/-- What a walk over collected sets stands at has been accepted on a type that covers the
object type. -/
theorem accepts_of_walk (hd : Validation.findings s p.document = []) {object parent : String}
    {set set' : SelectionSet}
    (hset : Validation.Accepts s p.document.fragments.contains set parent)
    (hparent : s.covers parent object = true)
    (h : Walk p.document.fragments (p.scope s).restrictObject set object set' object) :
    ∃ parent', Validation.Accepts s p.document.fragments.contains set' parent' ∧
      s.covers parent' object = true :=
  Validation.accepts_of_walk (fun parent object => s.covers parent object = true)
    (fun _ hf => Validation.accepts_of_mem_fragments hd hf)
    (fun _ _ _ hr => covers_of_restrictObject hr) h hset hparent

/-- The invariant of valid documents: every selection set that an execution collects from
has been accepted on a type that covers the concrete type it is collected for. -/
theorem accepts_of_collects (hs : s.Narrows) (hp : p.Fits s)
    (hd : Validation.findings s p.document = []) (hm : p.MergesByName s) {route : List Visit}
    {object : String} {sets : List SelectionSet} (h : p.Collects s route object sets) :
    ∀ set ∈ sets, ∃ parent, Validation.Accepts s p.document.fragments.contains set parent ∧
      s.covers parent object = true := by
  induction h with
  | root =>
    intro set hset
    obtain rfl := List.mem_singleton.1 hset
    obtain ⟨o, ho⟩ := hp.object
    exact ⟨p.root, Validation.accepts_root hp hd, Schema.covers_self ho⟩
  | @field route object sets g d o h hg hn hfield ho ih =>
    intro set hset
    obtain ⟨f, hf, rfl⟩ := List.mem_map.1 hset
    obtain ⟨_, set', hset', rest, hwalk⟩ := Scope.mem_groupsOn hg hf
    obtain ⟨parent, hparent, hcovers⟩ := ih set' hset'
    obtain ⟨parent', hparent', hcovers'⟩ := accepts_of_walk hd hparent hcovers hwalk
    have hname : f.node.name = g.name := hm route object sets h g hg f hf
    obtain ⟨e, he, hbelow⟩ := Validation.field?_of_accepts hparent' (hname ▸ hn)
    obtain ⟨d', hd', hnarrow⟩ := Schema.field?_of_covers hs he hcovers'
    rw [hname, hfield] at hd'
    obtain rfl := Option.some.inj hd'
    have hcovered := hnarrow o ho
    obtain ⟨t, ht, hcomposite⟩ := Schema.isComposite_of_covers hcovered
    have htname : t.name = e.type.baseName := Schema.name_of_type? ht
    exact ⟨t.name, hbelow t ht hcomposite, htname ▸ hcovered⟩

/-- Every group that an execution of a valid document collects is answered. -/
theorem answers_of_collects (hs : s.Narrows) (hp : p.Fits s)
    (hd : Validation.findings s p.document = []) (hm : p.MergesByName s) {route : List Visit}
    {object : String} {sets : List SelectionSet} (h : p.Collects s route object sets)
    {g : FieldGroup} (hg : g ∈ (p.scope s).groupsOn object sets) :
    (p.scope s).answers object g = true := by
  obtain ⟨_, set, hset, rest, hwalk⟩ := Scope.mem_groupsOn hg (List.mem_cons_self : g.first ∈ _)
  obtain ⟨parent, hparent, hcovers⟩ := accepts_of_collects hs hp hd hm h set hset
  obtain ⟨parent', hparent', hcovers'⟩ := accepts_of_walk hd hparent hcovers hwalk
  by_cases hn : g.name = "__typename"
  · simp [Scope.answers, hn]
  · obtain ⟨e, he, _⟩ := Validation.field?_of_accepts hparent' hn
    obtain ⟨d, hfield, _⟩ := Schema.field?_of_covers hs he hcovers'
    have hfield' : (p.scope s).schema.field? object g.name = some d := hfield
    simp [Scope.answers, hfield']

/-- What executions of a plan can rely on, whatever the resolvers give. -/
structure Sound (p : Plan) (s : Schema) : Prop where
  /-- Every collected group asks for a field that its object type declares, or for
  `__typename`. -/
  answered : ∀ route object sets, p.Collects s route object sets →
    ∀ g ∈ (p.scope s).groupsOn object sets, (p.scope s).answers object g = true
  /-- Every fragment that a collecting walk comes to is known. -/
  known : ∀ route object sets, p.Collects s route object sets → ∀ set ∈ sets,
    ∀ spread rest, Walk p.document.fragments (p.scope s).restrictObject set object
      (.spread spread rest) object → p.document.fragments.contains spread.name = true
  /-- Every object of a result tree has exactly the keys of the selection sets that are
  merged for its concrete type at its place, and so has the data if it is not null there. -/
  keys : ∀ mode source data es n v nulls,
    (p.jobIn mode s source data).run 0 = (es, .ok n) → n.toData = .ok (v, nulls) →
    ∀ a q children, n.at? a = some (.object q children) →
      ∃ route object, p.Collects s route object (p.setsAt q) ∧
        q.concreteType? = some object ∧ route.map Visit.key = q.path.keys ∧
        children.map Prod.fst = ((p.scope s).groupsOn object (p.setsAt q)).keys ∧
        ∀ w, v.at? a = some w → w = .null ∨ ∃ fields, w = .obj fields ∧
          Entries.keys fields = ((p.scope s).groupsOn object (p.setsAt q)).keys

/-- Validation is sound for execution: if the object types declare the fields of their
interfaces with the same types, and selections that are merged have one field name, every
execution of a valid document can rely on what it collects. -/
theorem sound_of_valid (hs : s.Implements) (hp : p.Fits s)
    (hd : Validation.findings s p.document = []) (hm : p.MergesByName s) : p.Sound s where
  answered _ _ _ h _ hg := answers_of_collects hs.narrows hp hd hm h hg
  known := by
    intro route object sets h set hset spread rest hwalk
    obtain ⟨parent, hparent, hcovers⟩ := accepts_of_collects hs.narrows hp hd hm h set hset
    obtain ⟨_, hspread, _⟩ := accepts_of_walk hd hparent hcovers hwalk
    exact Validation.known_of_accepts hspread
  keys := by
    intro mode source data es n v nulls hrun hdata a q children hat
    obtain ⟨route, hmem⟩ := Node.exists_mem_objects (Node.mem_positions_of_at? hat)
    obtain ⟨object, hcollects, hobject, hroute, hfields⟩ := gathered_of_run hrun hmem
    have hall : ((p.scope s).groupsOn object (p.setsAt q)).filter
        ((p.scope s).answers object) = (p.scope s).groupsOn object (p.setsAt q) :=
      List.filter_eq_self.2 fun g hg => answers_of_collects hs.narrows hp hd hm hcollects hg
    have hkeys := keys_of_grownFields hfields
    rw [hall] at hkeys
    refine ⟨route, object, hcollects, hobject, hroute, hkeys, fun w hw => ?_⟩
    rcases Node.form_of_toData hdata hat hw with hnull | ⟨fields, hfields, hform⟩
    · exact .inl hnull
    · exact .inr ⟨fields, hfields, hform.trans hkeys⟩

/-- Selections are merged by name if the document has one field name for each key. -/
theorem mergesByName_of_fields (hp : p.Fits s) (h : p.document.OneNamePerKey) :
    p.MergesByName s := by
  intro route object sets hcollects g hg f hf
  have hfirst : g.first ∈ g.fields := List.mem_cons_self
  have hkey := (Scope.mem_groupsOn hg hf).1.trans (Scope.mem_groupsOn hg hfirst).1.symm
  exact h f (hcollects.mem_fields hp hg hf) g.first (hcollects.mem_fields hp hg hfirst) hkey

/-- Things by a fragment on their interface, which has one on sailors in it. -/
def fragmentRequest : Request :=
  { demoRequest with text :=
      "{ all: things { ...shared id } } " ++
      "fragment shared on Thing { name ... on Sailor { rank name } }" }

theorem sound_of_valid_demo :
    demoSchema.Implements ∧ ∃ p, fragmentRequest.plan demoSchema = .ok p ∧
      p.Fits demoSchema ∧ Validation.findings demoSchema p.document = [] ∧
      p.MergesByName demoSchema ∧ p.Sound demoSchema := by
  have hs : demoSchema.Implements := by
    unfold Schema.Implements
    decide +kernel
  have hplan : ((fragmentRequest.plan demoSchema).toOption.any fun p =>
      (Validation.findings demoSchema p.document).isEmpty &&
        decide p.document.OneNamePerKey) = true := by
    decide +kernel
  cases hp : fragmentRequest.plan demoSchema with
  | error e => simp [hp, Except.toOption] at hplan
  | ok p =>
    have hfits := fits_of_plan hp
    simp only [hp, Except.toOption, Option.any_some, Bool.and_eq_true, List.isEmpty_iff,
      decide_eq_true_eq] at hplan
    have hm : p.MergesByName demoSchema := mergesByName_of_fields hfits hplan.2
    exact ⟨hs, p, rfl, hfits, hplan.1, hm, sound_of_valid hs hfits hplan.1 hm⟩

end Plan

end GraphQL
