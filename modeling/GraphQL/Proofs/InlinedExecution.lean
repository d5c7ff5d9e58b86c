/-
GraphQL.Proofs.InlinedExecution — fragments can be inlined.

A group of a document and one of copies (`FieldGroup.Inlines`) ask for the same field, with
the same arguments, under the same key and from the same position, since their first selections
are alike; execution looks at nothing else of a group but what is collected below it.

* `Environment.answerField_alike` — groups that ask for the same have the same answer, if
  the object values below them do.
* `Environment.answerObject_inlined` — so an object value has the same answer for groups of
  copies, by induction on the levels.
* `Plan.answerObject_settled`, `Plan.onePass_settled` — without cyclic fragments the
  levels of a document are enough, so that more of them do not matter.
* `Request.fragments_inlined` — hence a valid document has the same responses as with its
  fragments inlined.
-/
import GraphQL.Proofs.InlinedGroups
import GraphQL.Proofs.OnePass

namespace GraphQL

/-! ## Groups that ask for the same -/

/-- The groups ask for the same field, with the same arguments, key and position. -/
structure FieldGroup.Alike (g g' : FieldGroup) : Prop where
  key : g'.key = g.key
  name : g'.name = g.name
  arguments : g'.arguments = g.arguments
  position : g'.position = g.position

theorem FieldGroup.Alike.refl (g : FieldGroup) : g.Alike g := ⟨rfl, rfl, rfl, rfl⟩

theorem FieldGroup.Inlines.alike {d d' : Document} {g g' : FieldGroup}
    (h : FieldGroup.Inlines d d' g g') : g.Alike g' := by
  have hnode := h.first.inlines.node
  refine ⟨h.key, ?_, ?_, ?_⟩
  · rw [name, name, hnode]
  · rw [arguments, arguments, hnode]
  · rw [position, position, hnode]

/-- The places differ only in the selections of their groups. -/
structure Place.Alike (p p' : Place) : Prop where
  path : p'.path = p.path
  type : p'.type = p.type
  concreteType? : p'.concreteType? = p.concreteType?
  parentType? : p'.parentType? = p.parentType?
  group? : Option.Rel FieldGroup.Alike p.group? p'.group?

namespace Place.Alike

variable {p p' : Place} {g g' : FieldGroup}

theorem refl (p : Place) : p.Alike p where
  path := rfl
  type := rfl
  concreteType? := rfl
  parentType? := rfl
  group? := by
    cases p.group? with
    | none => exact .none
    | some g => exact .some (.refl g)

theorem field (hp : p.Alike p') (hg : g.Alike g') (key object : String) (t : TypeExpr) :
    (p.field key g object t).Alike (p'.field key g' object t) where
  path := by rw [path_field, path_field, hp.path]
  type := rfl
  concreteType? := rfl
  parentType? := rfl
  group? := .some hg

theorem item (hp : p.Alike p') (i : Nat) (t : TypeExpr) : (p.item i t).Alike (p'.item i t) where
  path := by rw [path_item, path_item, hp.path]
  type := rfl
  concreteType? := rfl
  parentType? := hp.parentType?
  group? := hp.group?

theorem isNonNull_eq (hp : p.Alike p') : p'.isNonNull = p.isNonNull := by
  rw [isNonNull, isNonNull, hp.type]

/-- What is the same for alike groups is the same for those of the places. -/
theorem map_group? (hp : p.Alike p') {α : Type} {f : FieldGroup → α}
    (hf : ∀ {g g' : FieldGroup}, g.Alike g' → f g' = f g) :
    p'.group?.map f = p.group?.map f := by
  have hgroup := hp.group?
  generalize p.group? = g?, p'.group? = g?' at hgroup ⊢
  cases hgroup with
  | none => rfl
  | some hg => exact congrArg some (hf hg)

theorem error_eq (hp : p.Alike p') (message : String) : p'.error message = p.error message := by
  rw [error, error, hp.map_group? FieldGroup.Alike.position, hp.path]

theorem coordinates_eq (hp : p.Alike p') : p'.coordinates = p.coordinates := by
  have hgroup := hp.group?
  unfold coordinates
  rw [hp.parentType?, hp.type]
  generalize p.group? = g?, p'.group? = g?' at hgroup ⊢
  cases hgroup with
  | none => rfl
  | some hg =>
    cases p.parentType? with
    | none => rfl
    | some t => simp only [hg.name]

theorem site_eq (hp : p.Alike p') : p'.site = p.site := by
  rw [site, site, hp.map_group? FieldGroup.Alike.name, hp.map_group? FieldGroup.Alike.key,
    hp.path, hp.type, hp.parentType?]

end Place.Alike

/-! ## Answers -/

/-- The environment of an execution with other fragments. -/
def Environment.withFragments (env : Environment) (fragments : Registry Fragment) : Environment :=
  { env with scope := { env.scope with fragments } }

namespace Answer

variable {p p' : Place}

theorem null_alike (hp : p.Alike p') (reported : Bool) : null p' reported = null p reported := by
  unfold null
  rw [hp.isNonNull_eq, hp.error_eq, hp.coordinates_eq]

theorem reject_alike (hp : p.Alike p') (message : String) :
    reject p' message = reject p message := by
  rw [reject, reject, null_alike hp, hp.error_eq]

theorem absorb_alike (hp : p.Alike p') : absorb p' = absorb p := by
  funext v
  cases v with
  | some v => rfl
  | none => rw [absorb, absorb, hp.isNonNull_eq]

theorem list_alike (hp : p.Alike p') : list p' = list p := by
  funext items
  rw [list, list, absorb_alike hp]

theorem object_alike (hp : p.Alike p') : object p' = object p := by
  funext fields
  rw [object, object, absorb_alike hp]

end Answer

/-- Passes over related lists come to the same if they do item by item. -/
theorem Pass.mapM_eq_of_forall₂ {α β : Type} {R : α → α → Prop} {f f' : α → Pass β} {xs xs' : List α}
    (h : List.Forall₂ R xs xs') (hf : ∀ x x', R x x' → f' x' = f x) :
    xs'.mapM f' = xs.mapM f := by
  induction h with
  | nil => rfl
  | cons hx _ ih => rw [List.mapM_cons, List.mapM_cons, hf _ _ hx, ih]

namespace Environment

variable {env : Environment} {fragments : Registry Fragment} {descend descend' : Descend}
  {g g' : FieldGroup} {p p' : Place}

theorem answerFetch_alike (hg : g.Alike g') (hp : p.Alike p') (source : Json)
    (d : FieldDefinition) :
    (env.withFragments fragments).answerFetch source d p' g' = env.answerFetch source d p g := by
  have houtcome : Fetched.ofOutcome p' = Fetched.ofOutcome p := by
    funext position outcome
    cases outcome with
    | partialValue v errors => simp only [Fetched.ofOutcome, hp.path]
    | failure e => simp only [Fetched.ofOutcome, hp.path]
    | breakdown message? => simp only [Fetched.ofOutcome, hp.error_eq]
    | _ => rfl
  have hcall : ∀ arguments, (env.withFragments fragments).call source arguments p' =
      env.call source arguments p := by
    intro arguments
    rw [call, call, hp.site_eq]
    rfl
  have harguments : coerceArgumentValues (env.withFragments fragments).schema
      (env.withFragments fragments).scope.vars d.arguments.items g'.arguments =
        coerceArgumentValues env.schema env.scope.vars d.arguments.items g.arguments := by
    rw [hg.arguments]
    rfl
  unfold answerFetch
  rw [harguments]
  simp only [hg.name, hg.position, hp.error_eq, hcall, houtcome]

/-- An object value below the groups has the same answer for what is collected below the one
and below the other. -/
def DescendAlike (env : Environment) (fragments : Registry Fragment) (descend descend' : Descend)
    (g g' : FieldGroup) (object : String) : Prop :=
  ∀ q q' : Place, q.Alike q' → ∀ v,
    descend' object q' ((env.withFragments fragments).scope.subGroups g' object) v =
      descend object q (env.scope.subGroups g object) v

theorem answerNamed_alike {name : String} (hp : p.Alike p')
    (hbelow : ∀ o ∈ env.schema.possibleTypes name,
      DescendAlike env fragments descend descend' g g' o.name) (v : Json) :
    (env.withFragments fragments).answerNamed descend' g' name p' v =
      env.answerNamed descend g name p v := by
  have hschema : (env.withFragments fragments).schema = env.schema := rfl
  unfold answerNamed
  rw [hschema]
  cases ht : env.schema.type? name with
  | none => rfl
  | some t =>
    have hleaf : answerLeaf p' = answerLeaf p := by
      funext r
      unfold answerLeaf
      split
      · exact Answer.null_alike hp false
      · rfl
      · exact Answer.reject_alike hp _
    cases t with
    | scalar t => simp only [hleaf]
    | enum t => simp only [hleaf]
    | object t =>
      have ho : t ∈ env.schema.possibleTypes name := by simp [Schema.possibleTypes, ht]
      exact hbelow t ho p p' hp v
    | interface t | union t =>
      cases hc : env.schema.concreteType? name v with
      | none => simp only [Answer.reject_alike hp]
      | some o =>
        exact hbelow o (Schema.mem_possibleTypes_of_concreteType? hc) p p' hp v
    | inputObject t => rfl

theorem answerValue_alike (t : TypeExpr)
    (hbelow : ∀ o ∈ env.schema.possibleTypes t.baseName,
      DescendAlike env fragments descend descend' g g' o.name)
    (hp : p.Alike p') (v : Json) (reported : Bool) :
    (env.withFragments fragments).answerValue descend' g' t p' v reported =
      env.answerValue descend g t p v reported := by
  induction t generalizing p p' v reported with
  | named name =>
    cases v with
    | null => simp only [answerValue, Answer.null_alike hp]
    | _ => exact answerNamed_alike hp hbelow _
  | nonNull t ih => exact ih hbelow hp v reported
  | list t ih =>
    cases v with
    | null => simp only [answerValue, Answer.null_alike hp]
    | arr items =>
      have hitems : ∀ x : Json × Nat,
          (env.withFragments fragments).answerValue descend' g' t (p'.item x.2 t) x.1 false =
            env.answerValue descend g t (p.item x.2 t) x.1 false :=
        fun x => ih hbelow (hp.item x.2 t) x.1 false
      simp only [answerValue, hitems, Answer.list_alike hp]
    | _ => simp only [answerValue, Answer.reject_alike hp, hp.coordinates_eq]

/-- So have all object values that the field of the groups can lead to. -/
def BelowAlike (env : Environment) (fragments : Registry Fragment) (descend descend' : Descend)
    (object : String) (g g' : FieldGroup) : Prop :=
  g.name ≠ "__typename" → ∀ d, env.schema.field? object g.name = some d →
    ∀ o ∈ env.schema.possibleTypes d.type.baseName,
      env.DescendAlike fragments descend descend' g g' o.name

/-- Groups that ask for the same have the same answer, if the object values below them do. -/
theorem answerField_alike (hg : g.Alike g') (hp : p.Alike p') {object : String}
    (hbelow : env.BelowAlike fragments descend descend' object g g') (source : Json) :
    (env.withFragments fragments).answerField descend' object source p' g' =
      env.answerField descend object source p g := by
  have hschema : (env.withFragments fragments).schema = env.schema := rfl
  unfold answerField
  rw [hg.name, hschema]
  split
  · rw [hg.key]
  · next hn =>
    cases hd : env.schema.field? object g.name with
    | none => rfl
    | some d =>
      have hplace := hp.field hg g.key object d.type
      simp only [hg.key, answerFetch_alike hg hplace,
        answerValue_alike d.type (hbelow hn d hd) hplace]

/-- An object value has the same answer for groups of copies: by induction on the levels, since
the groups collected below them are groups of copies as well. -/
theorem answerObject_inlined {d d' : Document} (h : d.Inlines d') (hcycle : ¬ d.FragmentsCycle)
    (hd : Field.Identified d.fields) (hd' : Field.Identified d'.fields) (s : Schema)
    (vars : VariableValues) (data : RequestData) (levels : Nat) (object : String) {q q' : Place}
    (hq : q.Alike q') {gs gs' : FieldGroups} (hgs : List.Forall₂ (FieldGroup.Inlines d d') gs gs')
    (v : Json) :
    answerObject ⟨.ofDocument s d' vars, data⟩ levels object q' gs' v =
      answerObject ⟨.ofDocument s d vars, data⟩ levels object q gs v := by
  induction levels generalizing object q q' gs gs' v with
  | zero => rfl
  | succ levels ih =>
    rw [answerObject, answerObject, Answer.object_alike hq]
    congr 1
    refine Pass.mapM_eq_of_forall₂ hgs fun g g' hg => ?_
    have hbelow : BelowAlike ⟨.ofDocument s d vars, data⟩ d'.fragments
        (answerObject ⟨.ofDocument s d vars, data⟩ levels)
        (answerObject ⟨.ofDocument s d' vars, data⟩ levels) object g g' := by
      intro _ _ _ o _ r r' hr w
      exact ih o.name hr (Scope.inlines_subGroups h hcycle hd hd' s vars hg o.name) w
    exact answerField_alike hg.alike hq hbelow v

end Environment

/-! ## Enough levels -/

namespace Plan

variable {p p' : Plan} {s : Schema}

/-- Without cyclic fragments the levels of a document are enough for what can still be
collected: by induction on the one number of levels, the other being enough as well. -/
theorem answerObject_settled (hp : p.Fits s) (hcycle : ¬ p.document.FragmentsCycle)
    (data : RequestData) {n m : Nat} {route : List Visit} {object : String}
    {sets : List SelectionSet}
    (hc : p.Collects s route object sets) (hn : p.document.fields.length < n + route.length)
    (hm : p.document.fields.length < m + route.length) {q q' : Place} (hq : q.Alike q')
    (v : Json) :
    (p.environment s data).answerObject m object q' ((p.scope s).groupsOn object sets) v =
      (p.environment s data).answerObject n object q ((p.scope s).groupsOn object sets) v := by
  have hlength := hc.length_le hp hcycle
  induction n generalizing m route object sets q q' v with
  | zero => omega
  | succ n ih =>
    obtain ⟨m, rfl⟩ : ∃ k, m = k + 1 := ⟨m - 1, by omega⟩
    have hsame : List.Forall₂ (fun g g' => g' = g ∧ g ∈ (p.scope s).groupsOn object sets)
        ((p.scope s).groupsOn object sets) ((p.scope s).groupsOn object sets) :=
      List.forall₂_same.2 fun g hg => ⟨rfl, hg⟩
    rw [Environment.answerObject, Environment.answerObject, Answer.object_alike hq]
    congr 1
    refine Pass.mapM_eq_of_forall₂ hsame fun g g' hg => ?_
    obtain ⟨rfl, hg⟩ := hg
    have hbelow : (p.environment s data).BelowAlike p.document.fragments
        ((p.environment s data).answerObject n) ((p.environment s data).answerObject m)
        object g' g' := by
      intro hname d hd o ho r r' hr w
      have hnext := hc.field hg hname hd ho
      have hroute : (route ++ [g'.visit object]).length = route.length + 1 := by
        rw [List.length_append, List.length_singleton]
      exact ih hnext (by omega) (by omega) hr w (hnext.length_le hp hcycle)
    exact Environment.answerField_alike (.refl g') hq hbelow v

/-- The response of the recursion is made of the answer of the root object. -/
theorem onePass_eq {n m : Nat} {source : Json} {data : RequestData}
    (h : (p'.environment s data).answerObject m p'.root (.root p'.root)
        ((p'.scope s).groups p'.root p'.operation.selections) source =
      (p.environment s data).answerObject n p.root (.root p.root)
        ((p.scope s).groups p.root p.operation.selections) source) :
    p'.onePass m s source data = p.onePass n s source data := by
  unfold onePass
  simp only [h]

/-- Without cyclic fragments the recursion comes to the same with all levels that are enough
for its document. -/
theorem onePass_settled (hp : p.Fits s) (hcycle : ¬ p.document.FragmentsCycle) {n m : Nat}
    (hn : p.document.fields.length < n) (hm : p.document.fields.length < m) (source : Json)
    (data : RequestData) : p.onePass m s source data = p.onePass n s source data := by
  exact onePass_eq (answerObject_settled hp hcycle data .root hn hm (.refl (.root p.root)) source)

/-! ## Plans for inlined documents -/

/-- The second plan is the first one with the fragments of its document inlined. -/
structure Inlines (p p' : Plan) : Prop where
  document : p.document.Inlines p'.document
  operation : Operation.Inlines p.document.fragments p.operation p'.operation
  root : p'.root = p.root
  vars : p'.vars = p.vars

/-- The recursion comes to the same within any number of levels. -/
theorem onePass_inlined (h : p.Inlines p') (hp : p.Fits s) (hp' : p'.Fits s)
    (hcycle : ¬ p.document.FragmentsCycle) (hd : Field.Identified p.document.fields)
    (hd' : Field.Identified p'.document.fields) (source : Json) (data : RequestData)
    (levels : Nat) : p'.onePass levels s source data = p.onePass levels s source data := by
  obtain ⟨d', o', root, vars⟩ := p'
  obtain rfl : root = p.root := h.root
  obtain rfl : vars = p.vars := h.vars
  have hselections : SelectionSet.Inlines p.document.fragments p.operation.selections
      o'.selections := by
    obtain ⟨set, rfl, hset⟩ := h.operation
    exact hset
  have hgroups := Scope.inlines_groupsOn h.document hcycle s p.vars (.cons hselections .nil)
    (Collects.root.fields_subset hp) (Collects.root.fields_subset hp') p.root
  exact onePass_eq (Environment.answerObject_inlined h.document hcycle hd hd' s p.vars data levels
    p.root (.refl (.root p.root)) hgroups source)

/-- Without cyclic fragments a plan has the same responses with its fragments inlined, if no
resolver suspends. -/
theorem result_inlined (hs : s.Prompt) (h : p.Inlines p') (hp : p.Fits s) (hp' : p'.Fits s)
    (hcycle : ¬ p.document.FragmentsCycle) (hd : Field.Identified p.document.fields)
    (hd' : Field.Identified p'.document.fields) (source : Json) (data : RequestData)
    (a : Response) :
    (p.run s source data).result = .ok a ↔ (p'.run s source data).result = .ok a := by
  have hlevels : ∀ d : Document, d.fields.length < Environment.levelsFor d := by
    intro d
    rw [Environment.levelsFor]
    omega
  -- enough for both documents
  let n := Environment.levelsFor p.document + Environment.levelsFor p'.document
  have hn := onePass_settled hp hcycle (hlevels p.document)
    (Nat.lt_add_right (Environment.levelsFor p'.document) (hlevels p.document)) source data
  have hn' := onePass_settled hp' h.document.acyclic (hlevels p'.document)
    (Nat.lt_add_left (Environment.levelsFor p.document) (hlevels p'.document)) source data
  have hsame := onePass_inlined h hp hp' hcycle hd hd' source data n
  rw [run, run, result_runIn_eq_ok hs, result_runIn_eq_ok hs, ← hn, ← hn', hsame]

end Plan

/-! ## Requests -/

namespace Request

/-- A document in place of the text, if it is valid. -/
def accepted (s : Schema) (r : Request) (d : Document) : Except Failure Document :=
  match r.validator s d with
  | [] => .ok d
  | findings => .error (.request findings)

/-- Everything that comes before the first resolver, for a document in place of the text. -/
def planOf (s : Schema) (r : Request) (d : Document) : Except Failure Plan := do
  let document ← r.accepted s d
  let (operation, root) ← r.target s document
  let raw ← r.rawVariables
  match coerceVariableValues s operation.variableDefinitions raw with
  | .ok vars => .ok { document, operation, root, vars }
  | .error errors => .error (.coercion errors)

/-- Execute a request with a document in place of the text. -/
def runOf (s : Schema) (r : Request) (d : Document) : Run :=
  match r.planOf s d with
  | .ok p => p.run s r.rootValue r.data
  | .error (.fault f) => ⟨[], .error f⟩
  | .error f => ⟨[], .ok (.ofFailure f)⟩

variable {s : Schema} {r : Request} {d d' : Document}

/-- A request is executed with the document that its text writes. -/
theorem run_of_parse (h : Document.parse r.text = .ok d) : r.run s = r.runOf s d := by
  have hdocument : r.document s = r.accepted s d := by
    unfold document accepted
    generalize Document.parse r.text = parsed at h ⊢
    subst h
    rfl
  have hplan : r.plan s = r.planOf s d := by
    unfold plan planOf
    generalize r.document s = document at hdocument ⊢
    subst hdocument
    rfl
  unfold run runIn runOf
  generalize r.plan s = plan at hplan ⊢
  subst hplan
  rfl

/-- The operation and its root type are found, or not, as they are without inlining. -/
theorem target_inlined (h : d.Inlines d') :
    (∃ e, r.target s d = .error e ∧ r.target s d' = .error e) ∨
      ∃ o o' root, r.target s d = .ok (o, root) ∧ r.target s d' = .ok (o', root) ∧
        Operation.Inlines d.fragments o o' := by
  unfold target
  rcases h.operation r.operation? with ⟨e, he, he'⟩ | ⟨o, o', ho, ho', hinlines⟩
  · rw [he, he']
    exact .inl ⟨_, rfl, rfl⟩
  · have hroot : o'.rootTypeName s = o.rootTypeName s := by
      obtain ⟨set, rfl, -⟩ := hinlines
      rfl
    rw [ho, ho']
    simp only [hroot]
    cases o.rootTypeName s with
    | error e => exact .inl ⟨_, rfl, rfl⟩
    | ok root =>
      cases hobject : s.object? root with
      | none =>
        refine .inl ⟨.fault (.rootNotObject root), ?_, ?_⟩
        all_goals simp only [hobject]
      | some t =>
        refine .inr ⟨o, o', root, ?_, ?_, hinlines⟩
        all_goals simp only [hobject]

/-- What comes before the first resolver fails in the same way, or it comes to a plan and to
one with its fragments inlined. -/
theorem planOf_inlined (hvalid : r.validator s d = []) (hvalid' : r.validator s d' = [])
    (h : d.Inlines d') :
    (∃ e, r.planOf s d = .error e ∧ r.planOf s d' = .error e) ∨
      ∃ p p', r.planOf s d = .ok p ∧ r.planOf s d' = .ok p' ∧ p.document = d ∧
        p'.document = d' ∧ p.Inlines p' ∧ p.Fits s ∧ p'.Fits s := by
  have haccepted : r.accepted s d = .ok d := by rw [accepted, hvalid]
  have haccepted' : r.accepted s d' = .ok d' := by rw [accepted, hvalid']
  simp only [planOf, haccepted, haccepted', bind, Except.bind]
  rcases target_inlined h with ⟨e, he, he'⟩ | ⟨o, o', root, ht, ht', hinlines⟩
  · rw [he, he']
    exact .inl ⟨_, rfl, rfl⟩
  · have hdefinitions : o'.variableDefinitions = o.variableDefinitions := by
      obtain ⟨set, rfl, -⟩ := hinlines
      rfl
    obtain ⟨ho, hroot, hobject⟩ := target_eq_ok ht
    obtain ⟨ho', hroot', hobject'⟩ := target_eq_ok ht'
    rw [ht, ht']
    simp only [hdefinitions]
    cases r.rawVariables with
    | error e => exact .inl ⟨_, rfl, rfl⟩
    | ok raw =>
      cases hvars : coerceVariableValues s o.variableDefinitions raw with
      | error errors => exact .inl ⟨.coercion errors, by simp only [hvars], by simp only [hvars]⟩
      | ok vars =>
        refine .inr ⟨⟨d, o, root, vars⟩, ⟨d', o', root, vars⟩, by simp only [hvars],
          by simp only [hvars], rfl, rfl, ⟨h, hinlines, rfl, rfl⟩, ?_, ?_⟩
        · exact ⟨Document.mem_of_operation ho, hroot, hobject⟩
        · exact ⟨Document.mem_of_operation ho', hroot', hobject'⟩

/-- A request that is executed with a document whose fields are told apart has the same
responses with any document that has its fragments inlined. -/
theorem result_runOf_inlined (hs : s.Prompt) (hvalidator : r.validator = Validation.findings)
    (hvalid : Validation.findings s d = []) (hd : Field.Identified d.fields) (h : d.Inlines d')
    (hd' : Field.Identified d'.fields) (a : Response) :
    (r.runOf s d).result = .ok a ↔ (r.runOf s d').result = .ok a := by
  have hvalid' := Validation.valid_of_inlines h hvalid
  have hcycle := Validation.acyclic_of_valid hvalid
  rw [runOf, runOf]
  rcases planOf_inlined (hvalidator ▸ hvalid) (hvalidator ▸ hvalid') h with
    ⟨e, he, he'⟩ | ⟨p, p', hp, hp', rfl, rfl, hinlines, hfits, hfits'⟩
  · rw [he, he']
  · rw [hp, hp']
    exact Plan.result_inlined hs hinlines hfits hfits' hcycle hd hd' r.rootValue r.data a

/-- Fragments can be inlined. A valid document stays valid, no known fragment is spread in it
any more, and if no resolver suspends, the request has a response with it exactly if it has
that response with the text: the same data and the same errors, in the same order. -/
theorem fragments_inlined (hs : s.Prompt) (hvalidator : r.validator = Validation.findings)
    (hparse : Document.parse r.text = .ok d) (hvalid : Validation.findings s d = []) :
    d.Inlines d.inlined ∧ Validation.findings s d.inlined = [] ∧
      (∀ x ∈ d.inlined.definitions, ∀ name ∈ x.selections.spreads,
        d.inlined.fragments.get? name = none) ∧
      ∀ a, (r.run s).result = .ok a ↔ (r.runOf s d.inlined).result = .ok a := by
  have h := Document.inlines_inlined (Validation.acyclic_of_valid hvalid)
  refine ⟨h, Validation.valid_of_inlines h hvalid, fun x hx => h.get?_eq_none hx, fun a => ?_⟩
  rw [run_of_parse hparse]
  exact result_runOf_inlined hs hvalidator hvalid (Document.identified_of_parse hparse) h
    (Document.identified_numbered _) a

end Request

/-- Names are read late, and say which one of those read they are. -/
def countedNames : Resolvers := fun _ name =>
  if name = "name" then
    some fun _ => .defer (.log "name" fun n => .finish (.value (.str (toString n))))
  else none

/-- Things by a fragment that is spread twice on them, and once more in another fragment. -/
def repeatedRequest : Request :=
  { demoRequest with text :=
      "{ all: things { ...named ...ranked ...named @include(if: true) } } " ++
      "fragment named on Thing { name id } " ++
      "fragment ranked on Sailor { rank ...named }" }

/-- Each name is read once, and the thing without `id` is lost once. -/
def repeatedResponse : Response :=
  { data? := some (.obj [("all", .arr [
      .obj [("name", .str "1"), ("id", .str "s1"), ("rank", .str "MATE")], .null])])
    errors :=
      [⟨"Cannot return null for non-nullable field \"Ship.id\".", [⟨1, 99⟩],
        some [.key "all", .index 1, .key "id"], none⟩] }

theorem Request.fragments_inlined_demo :
    (demoSchema.withResolvers countedNames).Prompt ∧
      repeatedRequest.validator = Validation.findings ∧
      ∃ d, Document.parse repeatedRequest.text = .ok d ∧
        Validation.findings (demoSchema.withResolvers countedNames) d = [] ∧ d.Inlines d.inlined ∧
        d.fields.length = 4 ∧ d.inlined.fields.length = 13 ∧
        (repeatedRequest.runOf (demoSchema.withResolvers countedNames) d.inlined).result =
          .ok repeatedResponse := by
  have hs : (demoSchema.withResolvers countedNames).Prompt := by
    refine demoSchema.prompt_withResolvers fun type name r hr call => ?_
    unfold countedNames at hr
    split at hr
    · obtain rfl := Option.some.inj hr
      exact .defer (.log fun n => .finish _)
    · cases hr
  have hdocument : (Document.parse repeatedRequest.text).toOption.any (fun d =>
      (Validation.findings (demoSchema.withResolvers countedNames) d).isEmpty &&
        d.fields.length == 4 && d.inlined.fields.length == 13) = true := by
    decide +kernel
  have hresult : (repeatedRequest.run (demoSchema.withResolvers countedNames)).result =
      .ok repeatedResponse := by
    decide +kernel
  obtain ⟨d, hd, hchecks⟩ := (Option.any_eq_true _ _).1 hdocument
  simp only [Bool.and_eq_true, List.isEmpty_iff, beq_iff_eq] at hchecks
  obtain ⟨⟨hvalid, hfields⟩, hinlined⟩ := hchecks
  have hparse : Document.parse repeatedRequest.text = .ok d := Except.toOption_eq_some hd
  obtain ⟨hinlines, -, -, hsame⟩ := Request.fragments_inlined hs rfl hparse hvalid
  exact ⟨hs, rfl, d, hparse, hvalid, hinlines, hfields, hinlined, (hsame _).1 hresult⟩

end GraphQL
