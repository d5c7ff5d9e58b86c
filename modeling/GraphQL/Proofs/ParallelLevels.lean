/-
GraphQL.Proofs.ParallelLevels — every parallel level of a run starts everything first.

A level has its first turn as `GraphQL.Proofs.ParallelStart` says, but the rest of the
execution takes turns with it, and a failure elsewhere may stop it. What can be seen of it
in a run are the events below its path, and those are all its own: the fields of an object
and the items of a list stand below different parts of a path, so of the jobs that take
turns only one does anything below a given path.

* `Environment.LevelsAt` — what is started together at the path of a field.
* `StandsAt` — its objects stand in the order of the lists that they are in.
* `Environment.found_objectJob` — whatever happens below the path of a field in an
  execution is done by one level, which starts everything first. By induction on the
  levels, from `Environment.found_resolvePending` for the items of lists and
  `Environment.found_fieldJob` for the fields of an object.
* `Plan.levels_start_first` — hence so in every run, in terms of its trace.
-/
import GraphQL.Proofs.ParallelStart

namespace GraphQL

namespace Path

/-- What ends in a key and leads above an item of a list leads above the list. -/
theorem key_prefix_of_key_prefix_item {q q' : Path} {k : String} {i : Nat}
    (h : q ++ [.key k] <+: q' ++ [.index i]) : q ++ [.key k] <+: q' := by
  rcases List.prefix_concat_iff.1 h with heq | h
  · have hlast := (List.append_inj' heq rfl).2
    simp at hlast
  · exact h

end Path

/-- Raised errors are not about resolvers. -/
theorem Event.not_isBelow_of_raised {a : Path} {errors : List ResponseError} {raised : List Event}
    (h : raised ⊆ errors.map .raised) : ∀ e ∈ raised, e.isBelow a = false := by
  intro e he
  obtain ⟨error, -, rfl⟩ := List.mem_map.1 (h he)
  rfl

/-! ## Levels -/

/-- Objects at the path of a field or in lists there, in the order of the lists. -/
structure StandsAt (a : Path) (subs : List SubSelection) : Prop where
  places : ∀ sub ∈ subs, Path.field sub.place.path = a
  order : subs.Pairwise fun sub sub' => Path.Before sub.place.path sub'.place.path
  keys : ∀ sub ∈ subs, (FieldGroups.keys sub.groups).Nodup

namespace Environment

variable {env : Environment} {root : SubSelection} {trace : List Event}

/-- The objects that a completed node leaves to do stand there or in it. -/
theorem prefix_of_mem_subSelections {t : TypeExpr} {p : Place} {m : Node} (h : Completed env t p m)
    {sub : SubSelection} (hsub : sub ∈ m.subSelections) : p.path <+: sub.place.path := by
  induction h with
  | nonNull _ ih => exact ih hsub
  | null | scalar | enum => cases hsub
  | @list t p items _ ih =>
    obtain ⟨m, hm, hsub⟩ := Node.mem_subSelections_list.1 hsub
    obtain ⟨i, hi⟩ := List.mem_iff_getElem?.1 hm
    exact (List.prefix_append _ _).trans (ih i m hi hsub)
  | object =>
    obtain rfl := List.mem_singleton.1 hsub
    exact List.prefix_refl _

/-- A completed node leaves objects to do in order. -/
theorem standsAt_of_completed {t : TypeExpr} {p : Place} {m : Node} (h : Completed env t p m) :
    StandsAt (Path.field p.path) m.subSelections := by
  induction h with
  | nonNull _ ih => exact ih
  | null | scalar | enum => exact ⟨by simp [Node.subSelections], .nil, by simp [Node.subSelections]⟩
  | @list t p items h ih =>
    have hitem : ∀ m ∈ items, StandsAt (Path.field p.path) m.subSelections := by
      intro m hm
      obtain ⟨i, hi⟩ := List.mem_iff_getElem?.1 hm
      have hstands := ih i m hi
      rwa [Place.path_item, Path.field_index] at hstands
    refine ⟨fun sub hsub => ?_, ?_, fun sub hsub => ?_⟩
    · obtain ⟨m, hm, hsub⟩ := Node.mem_subSelections_list.1 hsub
      exact (hitem m hm).places sub hsub
    · rw [Node.subSelections, Node.subSelectionsOfItems_eq_flatMap, List.pairwise_flatMap]
      refine ⟨fun m hm => (hitem m hm).order, List.pairwise_iff_getElem.2 ?_⟩
      intro i j hi hj hlt sub hsub sub' hsub'
      have hfirst := h i _ (List.getElem?_eq_getElem hi)
      have hsecond := h j _ (List.getElem?_eq_getElem hj)
      exact ⟨p.path, i, j, hlt, prefix_of_mem_subSelections hfirst hsub,
        prefix_of_mem_subSelections hsecond hsub'⟩
    · obtain ⟨m, hm, hsub⟩ := Node.mem_subSelections_list.1 hsub
      exact (hitem m hm).keys sub hsub
  | @object name o p v _ =>
    refine ⟨fun sub hsub => ?_, List.pairwise_singleton _ _, fun sub hsub => ?_⟩
    · obtain rfl := List.mem_singleton.1 hsub
      rfl
    · obtain rfl := List.mem_singleton.1 hsub
      exact nodup_keys_subSelectionAt p o.name v

/-- What is started together in an execution with some events: the operation, and at the path of a
field that has been fetched among these events what the value of the field leaves to do. -/
inductive LevelsAt (env : Environment) (root : SubSelection) (trace : List Event) :
    Path → List SubSelection → Prop
  | root : LevelsAt env root trace root.place.path [root]
  | field {a : Path} {subs : List SubSelection} {sub : SubSelection} {object : String}
      {g : FieldGroup} {d : FieldDefinition} {es : List Event} {x : Fetched} {node : Node}
      (h : LevelsAt env root trace a subs) (hsub : sub ∈ subs) (hg : env.Selects sub object g d)
      (hx : FetchEnds env sub.source d (sub.place.field g.key g object d.type) es x)
      (hes : es.Sublist trace)
      (hnode : (env.completed d (sub.place.field g.key g object d.type) x).outcome = .ok node) :
      LevelsAt env root trace (sub.place.path ++ [.key g.key]) node.subSelections

theorem LevelsAt.standsAt (hpath : root.place.path = [])
    (hkeys : (FieldGroups.keys root.groups).Nodup) {a : Path} {subs : List SubSelection}
    (h : env.LevelsAt root trace a subs) : StandsAt a subs := by
  cases h with
  | root =>
    refine ⟨fun sub hsub => ?_, List.pairwise_singleton _ _, fun sub hsub => ?_⟩
    · obtain rfl := List.mem_singleton.1 hsub
      rw [hpath, Path.field_nil]
    · obtain rfl := List.mem_singleton.1 hsub
      exact hkeys
  | field _ _ _ _ _ hnode =>
    have hstands := standsAt_of_completed (completed_of_completeValue hnode)
    rwa [Place.path_field, Path.field_key] at hstands

/-! ## Finding a level -/

/-- Either nothing has happened below a path, or a level of the path starts everything first. -/
def Found (env : Environment) (root : SubSelection) (trace : List Event) (b : Path)
    (es : List Event) : Prop :=
  es.filter (Event.isBelow b) = [] ∨ ∃ subs, env.LevelsAt root trace b subs ∧
    Job.StartsFirst (Event.starts b) ((subs.flatMap env.dueCalls).map .invoked)
      (es.filter (Event.isBelow b))

/-- With so many levels to go, whatever an object that is not below a path does there is found. -/
def Finds (env : Environment) (root : SubSelection) (trace : List Event) (b : Path)
    (levels : Nat) : Prop :=
  ∀ {a : Path} {subs : List SubSelection} {sub : SubSelection}, env.LevelsAt root trace a subs →
    sub ∈ subs → ¬ b <+: sub.place.path →
      ∀ es, (env.objectJob levels .parallel sub).Begins es → es.Sublist trace →
        env.Found root trace b es

variable {b : Path} {es es' : List Event}

theorem Found.of_filter_eq (h : env.Found root trace b es')
    (heq : es.filter (Event.isBelow b) = es'.filter (Event.isBelow b)) :
    env.Found root trace b es := by
  rwa [Found, heq]

/-- Events that come first and are not below the path do not matter. -/
theorem Found.append (h : env.Found root trace b es') (hes : ∀ e ∈ es, e.isBelow b = false) :
    env.Found root trace b (es ++ es') := by
  refine h.of_filter_eq ?_
  rw [List.filter_append, filter_eq_nil_of_forall hes, List.nil_append]

theorem found_nil : env.Found root trace b [] := .inl rfl

/-- Of jobs that take turns at most one does something below the path. -/
theorem found_of_merged {α : Type} {js : List (Job α)} (h : Job.Merged js es)
    (hone : js.Pairwise fun j j' =>
      j.Always (Event.isBelow b · = false) ∨ j'.Always (Event.isBelow b · = false))
    (hes : es.Sublist trace)
    (hfound : ∀ j ∈ js, ∀ es, j.Begins es → es.Sublist trace → env.Found root trace b es) :
    env.Found root trace b es := by
  rcases h.filter_eq hone with hnil | ⟨j, hj, es', hbegins, hes', heq⟩
  · exact .inl hnil
  · exact (hfound j hj es' hbegins (hes'.trans hes)).of_filter_eq heq

/-- What stands below another part of a path does nothing below the path. -/
theorem always_not_below {α : Type} {j : Job α} {q : Path} {x : PathPart}
    (h : j.Always fun e => ∀ path, e.path? = some path → q ++ [x] <+: path) (hq : ¬ b <+: q)
    (hx : ¬ q ++ [x] <+: b) : j.Always (Event.isBelow b · = false) := by
  refine h.mono fun e he => Event.isBelow_eq_false.2 fun path hpath habove => ?_
  rcases List.prefix_or_prefix_of_prefix habove.1 (he path hpath) with hbx | hxb
  · rcases List.prefix_concat_iff.1 hbx with rfl | hbq
    · exact hx (List.prefix_refl _)
    · exact hq hbq
  · exact hx hxb

/-- So of two jobs below different parts of a path one does nothing below another path. -/
theorem always_not_below_or {α : Type} {j j' : Job α} {q : Path} {x x' : PathPart}
    (h : j.Always fun e => ∀ path, e.path? = some path → q ++ [x] <+: path)
    (h' : j'.Always fun e => ∀ path, e.path? = some path → q ++ [x'] <+: path) (hne : x ≠ x')
    (hq : ¬ b <+: q) :
    j.Always (Event.isBelow b · = false) ∨ j'.Always (Event.isBelow b · = false) := by
  by_cases hx : q ++ [x] <+: b
  · exact .inr (always_not_below h' hq (Path.not_isPrefix_of_ne hne hx))
  · exact .inl (always_not_below h hq hx)

/-- What a node leaves to do stands there or in it. -/
theorem always_under_resolvePending (levels : Nat) {t : TypeExpr} {p : Place} {m : Node}
    (hm : Completed env t p m) :
    (resolvePending (env.objectJob levels .parallel) m).Always
      fun e => ∀ path, e.path? = some path → p.path <+: path := by
  have hkeeps := env.keeps_under p.path
  refine always_resolvePending
    (I := fun sub => ∀ g ∈ sub.groups, p.path <+: sub.place.path ++ [.key g.key])
    (fun _ hI => always_objectJob hkeeps levels .parallel hI) hm ?_
  intro q hq _ o _ v g _
  exact hq.trans (List.prefix_append _ _)

section

variable {parent : Path} {k : String} {levels : Nat}

/-- Below a field, what its value leaves to do has the levels. -/
theorem found_resolvePending {t : TypeExpr} {p : Place} {m : Node} (hm : Completed env t p m)
    (hnot : ¬ parent ++ [.key k] <+: p.path)
    (hfound : ∀ sub ∈ m.subSelections, ¬ parent ++ [.key k] <+: sub.place.path →
      ∀ es, (env.objectJob levels .parallel sub).Begins es → es.Sublist trace →
        env.Found root trace (parent ++ [.key k]) es)
    (h : (resolvePending (env.objectJob levels .parallel) m).Begins es) (hes : es.Sublist trace) :
    env.Found root trace (parent ++ [.key k]) es := by
  induction hm generalizing es with
  | nonNull _ ih => exact ih hnot hfound h hes
  | null | scalar | enum =>
    rw [resolvePending] at h
    obtain rfl := Job.begins_done h
    exact found_nil
  | @list t p items hitems ih =>
    rw [resolvePending, resolvePendingItems_eq] at h
    have hunder : ∀ i (hi : i < items.length),
        (resolvePending (env.objectJob levels .parallel) items[i]).Always
          fun e => ∀ path, e.path? = some path → p.path ++ [.index i] <+: path :=
      fun i hi => always_under_resolvePending levels (hitems i _ (List.getElem?_eq_getElem hi))
    have hmerged := Job.merged_allOk (Job.begins_map h)
    refine found_of_merged hmerged ?_ hes fun j hj es hbegins hes => ?_
    · refine List.pairwise_map.2 (List.pairwise_iff_getElem.2 fun i j hi hj hlt => ?_)
      exact always_not_below_or (hunder i hi) (hunder j hj)
        (fun heq => hlt.ne (PathPart.index.inj heq)) hnot
    · obtain ⟨m, hm, rfl⟩ := List.mem_map.1 hj
      obtain ⟨i, hi⟩ := List.mem_iff_getElem?.1 hm
      refine ih i m hi (fun hpre => hnot (Path.key_prefix_of_key_prefix_item hpre)) ?_ hbegins hes
      exact fun sub hsub => hfound sub (Node.mem_subSelections_list.2 ⟨m, hm, hsub⟩)
  | @object name o p v _ =>
    rw [pendingObject, resolvePending] at h
    exact hfound (env.subSelectionAt p o.name v) (List.mem_singleton_self _) hnot es h hes

/-- A fetch stands at the path of its field. -/
theorem always_at_fetchField (source : Json) (d : FieldDefinition) (p : Place) :
    (env.fetchField source d p).Always fun e => ∀ path, e.path? = some path → path = p.path := by
  unfold fetchField
  split
  · exact .done _
  · split
    · exact .done _
    · refine .emit (fun path hpath => (Option.some.inj hpath).symm) fun _ => ?_
      refine (Fetch.always_job (fun entry path hpath => ?_) (fun path hpath => ?_) _).map _
      · cases hpath
      · exact (Option.some.inj hpath).symm

variable {a : Path} {subs : List SubSelection} {sub : SubSelection} {g : FieldGroup}

/-- After its fetch a field starts its own level first, or has another one below it. -/
theorem AfterFetch.found {object : String} {d : FieldDefinition} {x : Fetched}
    {j : Job (Except Fault (Option Node))}
    (h : env.AfterFetch (env.objectJob levels .parallel) d
      (sub.place.field g.key g object d.type) x j)
    (hlevel : env.LevelsAt root trace a subs) (hsub : sub ∈ subs) (hg : env.Selects sub object g d)
    (hx : ∃ es, FetchEnds env sub.source d (sub.place.field g.key g object d.type) es x ∧
      es.Sublist trace)
    (hnot : ¬ parent ++ [.key k] <+: sub.place.path)
    (hbelow : env.Finds root trace (parent ++ [.key k]) levels)
    (hbegins : j.Begins es) (hes : es.Sublist trace) :
    env.Found root trace (parent ++ [.key k]) es := by
  cases h with
  | fault errors f =>
    obtain ⟨raised, es', rfl, hsubset, hdone⟩ := Job.begins_raiseAll hbegins
    obtain rfl := Job.begins_done hdone
    exact found_nil.append (Event.not_isBelow_of_raised hsubset)
  | node errors hnode =>
    obtain ⟨raised, es', rfl, hsubset, hnext⟩ := Job.begins_raiseAll hbegins
    refine Found.append ?_ (Event.not_isBelow_of_raised hsubset)
    obtain ⟨fs, hx, hfs⟩ := hx
    have hcompleted := completed_of_completeValue hnode
    have hnext := Job.begins_map hnext
    have hlevel' := LevelsAt.field hlevel hsub hg hx hfs hnode
    by_cases hown : parent ++ [.key k] = sub.place.path ++ [.key g.key]
    · have hopens := opens_resolvePending levels hcompleted
      rw [Place.path_field, Path.field_key, ← hown] at hopens
      rw [← hown] at hlevel'
      exact .inr ⟨_, hlevel', (hopens.startsFirst hnext).filter fun e => Event.isBelow_of_starts⟩
    · refine found_resolvePending hcompleted (fun hpre => ?_) (fun sub' => hbelow hlevel') hnext
        ((List.sublist_append_right _ _).trans hes)
      exact (List.prefix_concat_iff.1 hpre).elim hown hnot

theorem found_fieldJob (hlevel : env.LevelsAt root trace a subs) (hsub : sub ∈ subs)
    (hg : g ∈ sub.groups) (hnot : ¬ parent ++ [.key k] <+: sub.place.path)
    (hbelow : env.Finds root trace (parent ++ [.key k]) levels)
    (h : (env.fieldJob (env.objectJob levels .parallel) sub.source sub.place g).Begins es)
    (hes : es.Sublist trace) : env.Found root trace (parent ++ [.key k]) es := by
  have hdoes := env.fieldDoes_fieldJob (env.objectJob levels .parallel) hg
  generalize env.fieldJob (env.objectJob levels .parallel) sub.source sub.place g = j at hdoes h
  cases hdoes with
  | nothing r _ =>
    obtain rfl := Job.begins_done h
    exact found_nil
  | @fetch object d rest hselects hrest =>
    -- below the field is not at the field
    have hfetch : (env.fetchField sub.source d (sub.place.field g.key g object d.type)).Always
        (Event.isBelow (parent ++ [.key k]) · = false) := by
      refine (always_at_fetchField _ _ _).mono fun e he => Event.isBelow_eq_false.2 ?_
      rintro path hpath ⟨hpre, hne⟩
      rw [he path hpath, Place.path_field] at hpre hne
      exact (List.prefix_concat_iff.1 hpre).elim hne hnot
    rcases Job.begins_bind h with h | ⟨es₁, x, es₂, hends, hafter, rfl⟩
    · exact .inl (hfetch.filter_eq_nil h)
    · refine Found.append ?_ (hfetch.of_begins hends.begins)
      have hes₁ := (List.sublist_append_left es₁ es₂).trans hes
      have hes₂ := (List.sublist_append_right es₁ es₂).trans hes
      exact (hrest x).found hlevel hsub hselects ⟨es₁, fetchEnds_of_ends hends, hes₁⟩ hnot hbelow
        hafter hes₂

/-- Whatever happens below a path in an execution is that of one level: by induction on the
levels, in either mode. -/
theorem found_objectJob (levels : Nat) (mode : Mode)
    (hpath : root.place.path = []) (hkeys : (FieldGroups.keys root.groups).Nodup)
    (hlevel : env.LevelsAt root trace a subs) (hsub : sub ∈ subs)
    (hnot : ¬ parent ++ [.key k] <+: sub.place.path)
    (h : (env.objectJob levels mode sub).Begins es) (hes : es.Sublist trace) :
    env.Found root trace (parent ++ [.key k]) es := by
  induction levels generalizing mode a subs sub es with
  | zero =>
    obtain rfl := Job.begins_done h
    exact found_nil
  | succ levels ih =>
    have hmerged : Job.Merged (sub.groups.map
        (env.fieldJob (env.objectJob levels .parallel) sub.source sub.place)) es := by
      unfold objectJob at h
      cases mode with
      | parallel => exact Job.merged_all (Job.begins_map (Job.begins_map h))
      | serial => exact Job.merged_inOrder (Job.begins_map h)
    refine found_of_merged hmerged ?_ hes fun j hj es' hbegins hes' => ?_
    · have hdistinct := List.pairwise_map.1 ((hlevel.standsAt hpath hkeys).keys sub hsub)
      refine List.pairwise_map.2 (hdistinct.imp fun hne => ?_)
      exact always_not_below_or (always_under_fieldJob _ _ _ _) (always_under_fieldJob _ _ _ _)
        (fun heq => hne (PathPart.key.inj heq)) hnot
    · obtain ⟨g, hg, rfl⟩ := List.mem_map.1 hj
      exact found_fieldJob hlevel hsub hg hnot
        (fun hlevel' hsub' hnot' _ => ih .parallel hlevel' hsub' hnot') hbegins hes'

end

end Environment

/-! ## Runs -/

namespace Event

variable {a : Path}

theorem filter_calls_isAt (es : List Event) :
    (calls es).filter (·.isAt a) = calls (es.filter (starts a)) := by
  rw [calls, calls, List.filter_filterMap, List.filterMap_filter]
  refine List.filterMap_congr fun e _ => ?_
  cases e with
  | invoked call => cases hcall : call.isAt a <;> simp [call?, starts, hcall]
  | resumed | logged | raised => rfl

theorem filter_isBelow_starts (es : List Event) :
    (es.filter (isBelow a)).filter (starts a) = es.filter (starts a) := by
  rw [List.filter_filter]
  refine List.filter_congr fun e _ => ?_
  cases hstarts : e.starts a with
  | false => rfl
  | true => rw [isBelow_of_starts hstarts, Bool.and_true]

@[simp] theorem calls_invoked (xs : List ResolverCall) : calls (xs.map .invoked) = xs := by
  simp [calls, call?, List.filterMap_map, Function.comp_def]

end Event

/-- A run starts everything that is due for some objects at a path before any work below the path
goes on after a suspension. -/
structure Run.StartsFirst (run : Run) (env : Environment) (a : Path) (subs : List SubSelection) :
    Prop where
  /-- The objects stand at the path, or in lists there in this order. -/
  stands : StandsAt a subs
  /-- Resolvers are called object by object, and for each object in the order of its keys. -/
  calls : (Event.calls run.trace).filter (·.isAt a) <+: subs.flatMap env.dueCalls
  /-- If suspended work goes on below the path then all that are due have been called. -/
  all : ∀ q, .resumed q ∈ run.trace → Path.Above a q →
    (Event.calls run.trace).filter (·.isAt a) = subs.flatMap env.dueCalls
  /-- And they have been called before. -/
  before : ∀ {i j : Nat} {call : ResolverCall} {q : Path}, run.trace[i]? = some (.invoked call) →
    call.isAt a = true → run.trace[j]? = some (.resumed q) → Path.Above a q → i < j

/-- What has been found among the events of a run, in terms of the run. -/
theorem Run.startsFirst_of_found {run : Run} {env : Environment} {a : Path}
    {subs : List SubSelection} (hstands : StandsAt a subs)
    (h : Job.StartsFirst (Event.starts a) ((subs.flatMap env.dueCalls).map .invoked)
      (run.trace.filter (Event.isBelow a))) :
    run.StartsFirst env a subs := by
  refine ⟨hstands, ?calls, fun q hq habove => ?all, fun {i j call q} hi hcall hj habove => ?before⟩
  case calls =>
    have hpre := h.isPrefix
    rw [Event.filter_isBelow_starts] at hpre
    rw [Event.filter_calls_isAt, ← Event.calls_invoked (subs.flatMap env.dueCalls)]
    exact hpre.filterMap Event.call?
  case all =>
    have hbelow : (Event.resumed q).isBelow a = true := Event.isBelow_eq_true.2 ⟨q, rfl, habove⟩
    have hall := h.filter_eq (List.mem_filter.2 ⟨hq, hbelow⟩) rfl
    rw [Event.filter_isBelow_starts] at hall
    rw [Event.filter_calls_isAt, hall, Event.calls_invoked]
  case before =>
    have hstarts : (Event.invoked call).starts a = true :=
      Event.starts_eq_true.2 ⟨call, rfl, hcall⟩
    have hbelow : (Event.resumed q).isBelow a = true := Event.isBelow_eq_true.2 ⟨q, rfl, habove⟩
    obtain ⟨hilt, hie⟩ := List.getElem?_eq_some_iff.1 hi
    obtain ⟨hjlt, hje⟩ := List.getElem?_eq_some_iff.1 hj
    rcases Nat.lt_trichotomy i j with hlt | rfl | hlt
    · exact hlt
    · rw [hie] at hje
      cases hje
    · have hpairs := List.pairwise_filter.1 h.pairwise
      have hpair := List.pairwise_iff_getElem.1 hpairs j i hjlt hilt hlt
      rw [hie, hje] at hpair
      have hnone := hpair hbelow (Event.isBelow_of_starts hstarts) rfl
      rw [hstarts] at hnone
      cases hnone

/-- Parallel levels start everything first, however often resolvers suspend or defer. If the fields
of the operation are resolved in parallel this holds of them; and in either mode it holds at the
path of every field, of the object or of all the objects in the list that its value is. -/
theorem Plan.levels_start_first (p : Plan) (mode : Mode) (s : Schema) (source : Json)
    (data : RequestData) :
    (mode = .parallel → (p.runIn mode s source data).StartsFirst (p.environment s data) []
      [p.subSelection s source]) ∧
    ∀ (parent : Path) (k : String),
      (∃ e ∈ (p.runIn mode s source data).trace, e.isBelow (parent ++ [.key k]) = true) →
      ∃ subs, (p.environment s data).LevelsAt (p.subSelection s source)
          (p.runIn mode s source data).trace (parent ++ [.key k]) subs ∧
        (p.runIn mode s source data).StartsFirst (p.environment s data) (parent ++ [.key k])
          subs := by
  have hroot : (p.environment s data).LevelsAt (p.subSelection s source)
      (p.runIn mode s source data).trace [] [p.subSelection s source] := .root
  have hpath : (p.subSelection s source).place.path = [] := rfl
  have hkeys := p.nodup_keys_subSelection s source
  have hbegins : (p.jobIn mode s source data).Begins (p.runIn mode s source data).trace :=
    (Job.ends_run (p.jobIn mode s source data) 0).begins
  refine ⟨?root, ?fields⟩
  case root =>
    rintro rfl
    refine Run.startsFirst_of_found (hroot.standsAt hpath hkeys) ?_
    rw [List.flatMap_singleton]
    exact ((Environment.opens_objectJob _ _).startsFirst hbegins).filter
      fun e => Event.isBelow_of_starts
  case fields =>
    rintro parent k ⟨e, he, hbelow⟩
    have hnot : ¬ parent ++ [PathPart.key k] <+: (p.subSelection s source).place.path := by
      rw [hpath, List.prefix_nil]
      simp
    rcases Environment.found_objectJob _ mode hpath hkeys hroot (List.mem_singleton_self _) hnot
      hbegins (.refl _) with hnil | ⟨subs, hlevel, hstarts⟩
    · exact absurd hbelow (by simpa using List.filter_eq_nil_iff.1 hnil e he)
    · exact ⟨subs, hlevel, Run.startsFirst_of_found (hlevel.standsAt hpath hkeys) hstarts⟩

/-- The cells of the inner lists are started one after the other, both before a name goes on. -/
theorem Plan.levels_start_first_grid :
    ∃ p, gridRequest.plan gridSchema = .ok p ∧ p.mode = .parallel ∧
      (p.runIn p.mode gridSchema gridRequest.rootValue gridRequest.data).trace.filterMap
          (fun e => e.path?.map fun path => (e.resumes, path.text)) =
        [(false, "/cells"), (false, "/count"), (true, "/cells"), (false, "/cells/0/0/name"),
          (false, "/cells/0/0/size"), (false, "/cells/2/0/name"), (false, "/cells/2/0/size"),
          (true, "/cells/0/0/name"), (true, "/cells/2/0/name")] ∧
      (p.runIn p.mode gridSchema gridRequest.rootValue gridRequest.data).StartsFirst
        (p.environment gridSchema gridRequest.data) []
        [p.subSelection gridSchema gridRequest.rootValue] ∧
      ∃ subs, (p.environment gridSchema gridRequest.data).LevelsAt
          (p.subSelection gridSchema gridRequest.rootValue)
          (p.runIn p.mode gridSchema gridRequest.rootValue gridRequest.data).trace
          [.key "cells"] subs ∧
        (p.runIn p.mode gridSchema gridRequest.rootValue gridRequest.data).StartsFirst
          (p.environment gridSchema gridRequest.data) [.key "cells"] subs := by
  have hmode : ((gridRequest.plan gridSchema).toOption.any fun p => p.mode = .parallel) = true := by
    decide +kernel
  have hbelow : (gridRequest.run gridSchema).trace.any (·.isBelow [.key "cells"]) = true := by
    decide +kernel
  obtain ⟨p, hp, hmode⟩ := Except.exists_of_any hmode
  have hrun : gridRequest.run gridSchema =
      p.runIn p.mode gridSchema gridRequest.rootValue gridRequest.data := by
    simp only [Request.run, Request.runIn, hp]
  rw [hrun, List.any_eq_true] at hbelow
  have hstarts := p.levels_start_first p.mode gridSchema gridRequest.rootValue gridRequest.data
  refine ⟨p, hp, of_decide_eq_true hmode, ?_, hstarts.1 (of_decide_eq_true hmode),
    hstarts.2 [] "cells" hbelow⟩
  rw [← hrun]
  decide +kernel

end GraphQL
