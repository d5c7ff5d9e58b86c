/-
GraphQL.Proofs.Arguments — resolvers receive well-typed arguments.

The arguments of a field are bound from literals, variables and defaults. Literals are
coerced at the place where they stand and defaults are declared for it, so both conform to
its type. A variable is coerced once, to its own declared type, and no rule of validation
compares that type with the places where the variable is used: a resolver can be handed a
string for an `Int` (`Request.misfits_reach_resolvers`).

* `Plan.Fit` — the variables in a literal are used only where values of their declared types
  conform as well; `Plan.VariablesNarrow` decides it for a whole document by comparing types.
* `Request.arguments_conform` — in every call of a resolver the arguments are declared ones
  and all of non-null type, and each conforms to its type whose variables fit.
* `BindsArguments.conform` — so all of them conform if all variables are narrow enough.
-/
import GraphQL.Proofs.InputConformance
import GraphQL.Proofs.Emissions

namespace GraphQL

/-! ## The variables of a request -/

section

variable {s : Schema} {raw : List (String × Json)}

theorem VariableDefinition.conforms_of_value (hs : s.DefaultsConform) (hk : s.KeepsValues)
    {d : VariableDefinition} {w : Json} (h : d.value s raw = .ok (some w)) :
    InputConforms s d.type w := by
  unfold value at h
  split at h
  · split at h
    · next v hv =>
      obtain rfl := Option.some.inj (Except.ok.inj h)
      exact conforms_of_coerceInput hs hk hv
    · simp at h
  · split at h
    · next l _ =>
      split at h
      · next v hv =>
        obtain rfl := Except.ok.inj h
        -- a default has no variables to stand for anything
        have hnone : UsesConform s [] (l.uses s d.type) := fun _ _ _ hw => by simp at hw
        exact conforms_of_coerceLiteral hs hnone hv
      · simp at h
    · split at h <;> simp at h

/-- What a fold has come to have, it had from the start or has from one of the items. -/
theorem exists_of_foldl {α β : Type} {P : β → Prop} {Q : α → Prop} {f : β → α → β}
    (hf : ∀ b a, P (f b a) → P b ∨ Q a) {xs : List α} {b : β} (h : P (xs.foldl f b)) :
    P b ∨ ∃ a ∈ xs, Q a := by
  induction xs generalizing b with
  | nil => exact .inl h
  | cons x xs ih =>
    rcases ih h with h | ⟨a, ha, hQ⟩
    · exact (hf b x h).imp_right fun hQ => ⟨x, List.mem_cons_self, hQ⟩
    · exact .inr ⟨a, List.mem_cons_of_mem _ ha, hQ⟩

/-- A bound variable has the value of one of its definitions. -/
theorem exists_definition_of_bound {ds : List VariableDefinition} {name : String} {w : Json}
    (h : (variableBindings s raw ds).lookup name = some w) :
    ∃ d ∈ ds, d.name = name ∧ d.value s raw = .ok (some w) := by
  unfold variableBindings at h
  have hfold := exists_of_foldl (P := fun vars : VariableValues => vars.lookup name = some w)
    (Q := fun d : VariableDefinition => d.name = name ∧ d.value s raw = .ok (some w)) ?_ h
  · exact hfold.resolve_left (by simp)
  · intro acc d h
    split at h
    · next v hv =>
      rw [Entries.lookup_insert] at h
      split at h
      · next hname =>
        obtain rfl := Option.some.inj h
        exact .inr ⟨hname.symm, hv⟩
      · exact .inl h
    · exact .inl h

/-- A variable that has been accepted conforms to the type it is declared with. -/
theorem conforms_of_coerceVariableValues (hs : s.DefaultsConform) (hk : s.KeepsValues)
    {ds : List VariableDefinition} {vars : VariableValues}
    (h : coerceVariableValues s ds raw = .ok vars) {name : String} {w : Json}
    (hw : vars.lookup name = some w) : ∃ d ∈ ds, d.name = name ∧ InputConforms s d.type w := by
  unfold coerceVariableValues at h
  split at h
  · obtain rfl := Except.ok.inj h
    obtain ⟨d, hd, hname, hvalue⟩ := exists_definition_of_bound hw
    exact ⟨d, hd, hname, d.conforms_of_value hs hk hvalue⟩
  · simp at h

end

/-! ## Variables that fit -/

namespace Plan

variable {p : Plan} {s : Schema}

/-- The variables in a literal at a type fit: wherever one stands, values of its declared type
other than null conform to the type of the place. -/
def Fit (p : Plan) (s : Schema) (l : Literal) (t : TypeExpr) : Prop :=
  ∀ x ∈ l.uses s t, ∀ v ∈ p.operation.variableDefinitions, v.name = x.1 →
    s.Substitutes v.type x.2

/-- The variables in a literal at a type are declared with types at least as narrow as those
of the places where they stand. -/
def Narrow (p : Plan) (s : Schema) (l : Literal) (t : TypeExpr) : Prop :=
  ∀ x ∈ l.uses s t, ∀ v ∈ p.operation.variableDefinitions, v.name = x.1 →
    v.type.narrows x.2 = true

theorem Narrow.fit {l : Literal} {t : TypeExpr} (h : p.Narrow s l t) : p.Fit s l t :=
  fun x hx v hv hname => TypeExpr.substitutes_of_narrows (h x hx v hv hname)

/-- All variables of the document are narrow enough where they are used, whichever type with
a field of that name they are used for. -/
def VariablesNarrow (p : Plan) (s : Schema) : Prop :=
  ∀ f ∈ p.document.fields, ∀ t ∈ s.types.items, ∀ d ∈ t.fields?.bind (·.get? f.node.name),
    ∀ a ∈ d.arguments.items, ∀ l ∈ f.node.arguments.lookup a.name, p.Narrow s l a.type

instance : Decidable (p.VariablesNarrow s) := by
  unfold VariablesNarrow Narrow
  infer_instance

/-! ## Calls of resolvers -/

/-- A call of the resolver of a declared field has the arguments that a selection writes for
it: declared ones only, and all of non-null type. The value of an argument conforms to its
type if the variables fit that are written for it. -/
structure BindsArguments (p : Plan) (s : Schema) (call : ResolverCall) (d : FieldDefinition)
    (f : Field) : Prop where
  field : s.field? call.site.parentType call.site.fieldName = some d
  selection : f ∈ p.document.fields
  name : f.node.name = call.site.fieldName
  bound : coerceArgumentValues s p.vars d.arguments.items f.node.arguments = .ok call.arguments
  declared : ∀ x ∈ call.arguments, ∃ a ∈ d.arguments.items, a.name = x.1
  required : ∀ a ∈ d.arguments.items, a.type.isNonNull = true →
    ∃ x ∈ call.arguments, x.1 = a.name
  values : ∀ x ∈ call.arguments, ∀ a ∈ d.arguments.items, a.name = x.1 →
    (∀ l, f.node.arguments.lookup a.name = some l → p.Fit s l a.type) →
      InputConforms s a.type x.2

/-- All arguments conform if all variables of the document are narrow enough. -/
theorem BindsArguments.conform {call : ResolverCall} {d : FieldDefinition} {f : Field}
    (h : p.BindsArguments s call d f) (hn : p.VariablesNarrow s) :
    BindingsConform s d.arguments.items call.arguments := by
  refine ⟨h.declared, h.required, fun x hx a ha hname => h.values x hx a ha hname fun l hl => ?_⟩
  obtain ⟨fields, hfields, hget⟩ := Option.bind_eq_some_iff.1 h.field
  obtain ⟨t, ht, htfields⟩ := Option.bind_eq_some_iff.1 hfields
  refine (hn f h.selection t (Registry.mem_of_get? ht).1 d ?_ a ha l hl).fit
  rw [h.name]
  exact Option.bind_eq_some_iff.2 ⟨fields, htfields, hget⟩

theorem Calls.bindsArguments (hp : p.Fits s) (hs : s.DefaultsConform) (hk : s.KeepsValues)
    {raw : List (String × Json)}
    (hvars : coerceVariableValues s p.operation.variableDefinitions raw = .ok p.vars)
    {call : ResolverCall} (h : p.Calls s call) : ∃ d f, p.BindsArguments s call d f := by
  obtain ⟨route, object, sets, g, d, hcollects, hg, _, hd, hbound, rfl, hname⟩ := h
  obtain ⟨hfrom, hrequired⟩ := bindings_of_bindAll hbound
  refine ⟨d, g.first, hname ▸ hd, hcollects.mem_fields hp hg List.mem_cons_self, hname.symm, hbound,
    fun x hx => ?_, hrequired, fun x hx a ha hax hfit => ?_⟩
  · obtain ⟨a, ha, hax, _⟩ := hfrom x hx
    exact ⟨a, ha, hax⟩
  · obtain ⟨a', ha', hax', hvalue⟩ := hfrom x hx
    obtain rfl := Registry.eq_of_name_eq ha ha' (hax.trans hax'.symm)
    rcases hvalue with hwritten | hdefault
    · split at hwritten
      · next l hl =>
        refine conforms_of_coerceLiteral hs (fun y hy w hw hne => ?_) hwritten
        obtain ⟨v, hv, hvname, hconforms⟩ := conforms_of_coerceVariableValues hs hk hvars hw
        exact hfit l hl y hy v hv hvname w hne hconforms
      · simp at hwritten
    · exact hs.field hd a ha _ hdefault

end Plan

/-- Every resolver receives well-typed arguments: whatever is written as a literal, taken
from a variable at any depth of the literal, or from a default, it is called with declared
arguments only and with all of non-null type, and their values conform to their types as far
as the variables fit. Defaults must conform, and scalars make null of nothing else. -/
theorem Request.arguments_conform {s : Schema} {r : Request} {p : Plan} (hp : r.plan s = .ok p)
    (hs : s.DefaultsConform) (hk : s.KeepsValues) {call : ResolverCall}
    (h : .invoked call ∈ (r.run s).trace) : ∃ d f, p.BindsArguments s call d f := by
  have hrun : r.run s = p.runIn p.mode s r.rootValue r.data := by
    simp only [run, runIn, hp]
  rw [hrun] at h
  obtain ⟨raw, _, hvars⟩ := (stages_of_plan hp).2.2
  exact (Plan.called_of_invoked h).bindsArguments (Plan.fits_of_plan hp) hs hk hvars

/-- A search by colours, up to a limit, with a number of results. -/
def searchSchema : Schema :=
  let find : FieldDefinition := ⟨"find", .ofList [
    ⟨"filter", .required "Filter", none⟩,
    ⟨"first", .named "Int", some (.int 10)⟩], .named "String", none⟩
  (((Schema.ofQueryType "Query").register (.enum ⟨"Colour", ["RED", "BLACK"]⟩)).register
    (.inputObject ⟨"Filter", .ofList [
      ⟨"colours", .list (.required "Colour"), none⟩,
      ⟨"limit", .required "Int", none⟩]⟩)).register
    (.object ⟨"Query", .ofList [find], []⟩)

/-- Variables as an item of a list in an object, and as a field of the object. -/
def searchRequest : Request :=
  { Request.ofText ("query ($colour: Colour!, $limit: Int!) " ++
      "{ find(filter: {limit: $limit, colours: [$colour, BLACK]}) }") with
    variables? := some (.obj [("colour", .str "RED"), ("limit", .int 3)]) }

theorem Request.arguments_conform_demo :
    searchSchema.DefaultsConform ∧ searchSchema.KeepsValues ∧
      ∃ p, searchRequest.plan searchSchema = .ok p ∧
        ∃ call, .invoked call ∈ (searchRequest.run searchSchema).trace ∧
          call.arguments = [("filter", .obj [("colours", .arr [.str "RED", .str "BLACK"]),
            ("limit", .int 3)]), ("first", .int 10)] ∧
          ∃ d f, p.BindsArguments searchSchema call d f ∧
            BindingsConform searchSchema d.arguments.items call.arguments := by
  have hs : searchSchema.DefaultsConform := by
    have hdefaults : searchSchema.defaults = [(.named "Int", .int 10)] := by decide +kernel
    intro x hx
    rw [hdefaults] at hx
    obtain rfl := List.mem_singleton.1 hx
    have hint : searchSchema.type? "Int" = some (.scalar ⟨"Int", .int⟩) := rfl
    exact .scalar hint (ScalarCoercion.admits_of_ofValue (v := .int 10) rfl)
  have hk : searchSchema.KeepsValues := by
    refine Schema.BuiltinScalars.keepsValues ?_
    exact (((Schema.builtinScalars_ofQueryType "Query").register (by simp)).register
      (by simp)).register (by simp)
  have hplan : ((searchRequest.plan searchSchema).toOption.any fun p =>
      p.VariablesNarrow searchSchema) = true := by
    decide +kernel
  have htrace : ((searchRequest.run searchSchema).trace.any fun
      | .invoked call => call.arguments == [("filter", .obj [("colours",
          .arr [.str "RED", .str "BLACK"]), ("limit", .int 3)]), ("first", .int 10)]
      | _ => false) = true := by
    decide +kernel
  cases hp : searchRequest.plan searchSchema with
  | error e => simp [hp, Except.toOption] at hplan
  | ok p =>
    simp only [hp, Except.toOption, Option.any_some, decide_eq_true_eq] at hplan
    obtain ⟨e, he, hcall⟩ := List.any_eq_true.1 htrace
    split at hcall
    · next call =>
      obtain ⟨d, f, h⟩ := Request.arguments_conform hp hs hk he
      exact ⟨hs, hk, p, rfl, call, he, by simpa using hcall, d, f, h, h.conform hplan⟩
    · simp at hcall

/-! ## Variables that do not fit -/

/-- A field with an argument of type `Int`. -/
def countField : FieldDefinition :=
  ⟨"count", .ofList [⟨"n", .named "Int", none⟩], .named "String", none⟩

/-- A field with a list of a scalar, its items without null. -/
def blanksField : FieldDefinition :=
  ⟨"blanks", .ofList [⟨"xs", .list (.required "Blank"), none⟩], .named "String", none⟩

/-- Both fields, and a scalar whose conversions make null of everything. -/
def misfitSchema : Schema :=
  ((Schema.ofQueryType "Query").register
    (.scalar ⟨"Blank", fun _ => .ok .null, fun _ => .ok .null, fun _ => .ok .null⟩)).register
    (.object ⟨"Query", .ofList [countField, blanksField], []⟩)

/-- A string for an `Int`, and a list of the scalar. -/
def misfitRequest : Request :=
  { Request.ofText ("query ($text: String, $xs: [Blank!]) " ++
      "{ count(n: $text) blanks(xs: $xs) }") with
    variables? := some (.obj [("text", .str "seven"), ("xs", .arr [.str "x"])]) }

/-- A string does not conform to `Int`. -/
theorem not_bindingsConform_count :
    ¬ BindingsConform misfitSchema countField.arguments.items [("n", .str "seven")] := by
  intro h
  have hn := h.values ("n", .str "seven") (by simp) ⟨"n", .named "Int", none⟩ (by decide) rfl
  have hint : misfitSchema.type? "Int" = some (.scalar ⟨"Int", .int⟩) := rfl
  cases hn with
  | scalar ht hv =>
    obtain rfl := TypeDefinition.scalar.inj (Option.some.inj (ht.symm.trans hint))
    obtain ⟨i, hi, _⟩ := hv.int rfl
    simp [Json.int] at hi
  | enum he _ => simp [hint] at he

/-- Null does not conform to the type of the items. -/
theorem not_bindingsConform_blanks :
    ¬ BindingsConform misfitSchema blanksField.arguments.items [("xs", .arr [.null])] := by
  intro h
  have hxs := h.values ("xs", .arr [.null]) (by simp) ⟨"xs", .list (.required "Blank"), none⟩
    (by decide) rfl
  cases hxs with
  | list hitems =>
    have hnull := (hitems .null List.mem_cons_self).nullable_of_null
    simp [TypeExpr.required, TypeExpr.isNonNull] at hnull

/-- Arguments of a valid request need not conform: the type of a variable is not compared with
the place where it is used, and a scalar can make null of an item that must not be null. -/
theorem Request.misfits_reach_resolvers :
    misfitSchema.DefaultsConform ∧ ∃ p, misfitRequest.plan misfitSchema = .ok p ∧
      Validation.findings misfitSchema p.document = [] ∧
      (∃ call, .invoked call ∈ (misfitRequest.run misfitSchema).trace ∧
        misfitSchema.field? call.site.parentType call.site.fieldName = some countField ∧
        call.arguments = [("n", .str "seven")] ∧
        ¬ BindingsConform misfitSchema countField.arguments.items call.arguments) ∧
      ∃ call, .invoked call ∈ (misfitRequest.run misfitSchema).trace ∧
        misfitSchema.field? call.site.parentType call.site.fieldName = some blanksField ∧
        call.arguments = [("xs", .arr [.null])] ∧
        ¬ BindingsConform misfitSchema blanksField.arguments.items call.arguments := by
  have hdefaults : misfitSchema.defaults = [] := by decide +kernel
  have hplan : ((misfitRequest.plan misfitSchema).toOption.any fun p =>
      (Validation.findings misfitSchema p.document).isEmpty) = true := by
    decide +kernel
  have hcalls : (misfitRequest.run misfitSchema).trace.filterMap (fun
      | .invoked call => some ((call.site.parentType, call.site.fieldName), call.arguments)
      | _ => none) = [(("Query", "count"), [("n", .str "seven")]),
        (("Query", "blanks"), [("xs", .arr [.null])])] := by
    decide +kernel
  have hcall : ∀ x ∈ [(("Query", "count"), [("n", Json.str "seven")]),
      (("Query", "blanks"), [("xs", .arr [.null])])],
      ∃ call, .invoked call ∈ (misfitRequest.run misfitSchema).trace ∧
        ((call.site.parentType, call.site.fieldName), call.arguments) = x := by
    intro x hx
    rw [← hcalls] at hx
    obtain ⟨e, he, hcall⟩ := List.mem_filterMap.1 hx
    split at hcall
    · next call => exact ⟨call, he, Option.some.inj hcall⟩
    · simp at hcall
  cases hp : misfitRequest.plan misfitSchema with
  | error e => simp [hp, Except.toOption] at hplan
  | ok p =>
    simp only [hp, Except.toOption, Option.any_some, List.isEmpty_iff] at hplan
    obtain ⟨call, hmem, hsame⟩ := hcall _ List.mem_cons_self
    obtain ⟨call', hmem', hsame'⟩ := hcall _ (List.mem_cons_of_mem _ List.mem_cons_self)
    obtain ⟨hsite, harguments⟩ := Prod.mk.inj hsame
    obtain ⟨hsite', harguments'⟩ := Prod.mk.inj hsame'
    obtain ⟨htype, hname⟩ := Prod.mk.inj hsite
    obtain ⟨htype', hname'⟩ := Prod.mk.inj hsite'
    refine ⟨fun x hx => by simp [hdefaults] at hx, p, rfl, hplan,
      ⟨call, hmem, ?_, harguments, harguments ▸ not_bindingsConform_count⟩,
      ⟨call', hmem', ?_, harguments', harguments' ▸ not_bindingsConform_blanks⟩⟩
    · rw [htype, hname]
      rfl
    · rw [htype', hname']
      rfl

end GraphQL
