/-
GraphQL.Proofs.ReportedOnce — a null where the type excludes it is reported once.

Execution raises errors position by position; for the nulls that are left over an error is
added when the tree becomes data. A null keeps one flag, whether its own fetch or completion
has raised an error. Paths of errors are not looked at: what a resolver returns besides a
value is reported for the field that it resolves, whichever items or fields below are meant.

* `Environment.isSilent_iff` — a null is silent exactly if no incident at its path has raised
  an error.
* `Request.nulls_reported_once` — hence to a reported null nothing is added, and to any other
  exactly one error.
* `Request.nulls_reported_again` — an item and a field that a resolver has reported from above,
  and a null that a conversion makes.
-/
import GraphQL.Proofs.Locations

namespace GraphQL

/-- How the nulls of a tree are reported: by the incidents of the execution, or else by the
errors that are added when it becomes data. -/
structure Node.ReportsOnce (tree : Node) (xs : List Incident) (nulls : List ResponseError) :
    Prop where
  /-- Nothing is added for a null whose own fetch or completion has raised an error. -/
  reported : ∀ p flag, .null p flag ∈ tree.positions → Environment.RaisedAt p.path xs →
    ∀ e ∈ nulls, e.path? ≠ some p.path
  /-- For any other null where the type excludes it one error is added at its path, whatever
  has been raised elsewhere. -/
  added : ∀ m ∈ tree.positions, m.isDead = true → ¬ Environment.RaisedAt m.place.path xs →
    nulls.filter (fun e => e.path? == some m.place.path) = [m.nullError]

namespace Node

/-- If no two positions share a path there is one error at that of an unreported null. -/
theorem filter_nullErrors {n m : Node} (hpaths : (Environment.paths n.positions).Nodup)
    (hm : m ∈ n.unreported) :
    (n.unreported.map nullError).filter (fun e => e.path? == some m.place.path) =
      [m.nullError] := by
  have honly : n.unreported.filter (fun k => k.nullError.path? == some m.place.path) = [m] := by
    have hnodup : n.unreported.Nodup := (List.Nodup.of_map _ hpaths).filter _
    refine List.perm_singleton.1 ((List.perm_ext_iff_of_nodup (hnodup.filter _)
      (List.nodup_singleton m)).2 fun k => ?_)
    rw [List.mem_filter, beq_iff_eq, List.mem_singleton]
    constructor
    · rintro ⟨hk, hpath⟩
      exact List.inj_on_of_nodup_map hpaths (List.mem_filter.1 hk).1 (List.mem_filter.1 hm).1
        (Option.some.inj hpath)
    · rintro rfl
      exact ⟨hm, rfl⟩
  rw [List.filter_map]
  exact congrArg (List.map nullError) honly

end Node

namespace Environment

variable {env : Environment} {sub : SubSelection} {object : String}
  {children : List (String × Node)} {xs : List Incident}
  (htold : env.ToldFields sub object sub.groups children xs)
  (hpaths : (paths (Node.object sub.place children).positions).Nodup)

include htold hpaths

/-- A null of the tree is silent exactly if no incident at its path has raised an error. -/
theorem isSilent_iff {p : Place} {flag : Bool}
    (hm : .null p flag ∈ (Node.object sub.place children).positions) :
    (Node.null p flag).isSilent = true ↔ ¬ RaisedAt p.path xs := by
  constructor
  · rintro hsilent ⟨x, hx, hpath, hraised⟩
    -- the position that the incident befalls has the path of the null, so it is the null
    obtain ⟨k, hk, hplace, hnot⟩ := position_of_toldFields htold x hx
    have hsame : k.place.path = p.path := (Place.of_untyped_eq hplace).1.trans hpath
    obtain rfl := List.inj_on_of_nodup_map hpaths (List.mem_cons_of_mem _ hk) hm hsame
    rw [hnot hraised] at hsilent
    cases hsilent
  · intro hnone
    cases flag with
    | false => rfl
    | true =>
      rcases List.mem_cons.1 hm with heq | hm
      · cases heq
      · exact absurd (reported_of_toldFields htold _ hm rfl) hnone

/-- The tree of an execution that is told is reported once. -/
theorem reportsOnce_of_told :
    (Node.object sub.place children).ReportsOnce xs
      ((Node.object sub.place children).unreported.map Node.nullError) where
  reported p flag hm hraised e he hpath := by
    obtain ⟨k, hk, rfl⟩ := List.mem_map.1 he
    obtain ⟨hmem, hleft⟩ := List.mem_filter.1 hk
    obtain rfl := List.inj_on_of_nodup_map hpaths hmem hm (Option.some.inj hpath)
    have hsilent : (Node.null p flag).isSilent = true := (Bool.and_eq_true_iff.1 hleft).2
    exact (isSilent_iff htold hpaths hm).1 hsilent hraised
  added m hm hdead hnone := by
    refine Node.filter_nullErrors hpaths (List.mem_filter.2 ⟨hm, ?_⟩)
    have hreported : m.isReported = false := by
      rcases List.mem_cons.1 hm with rfl | hm
      · rfl
      · exact Bool.eq_false_iff.2 fun h => hnone (reported_of_toldFields htold m hm h)
    rw [hdead, hreported]
    rfl

end Environment

/-- Each null where the type excludes it is reported once, in every request that is answered
with data. To the errors raised by the execution, which are those of its incidents, the
assembly of the data adds others: none for a null whose own fetch or completion has raised an
error, and exactly one for every other one. -/
theorem Request.nulls_reported_once {s : Schema} {r : Request} {p : Plan} {a : Response}
    (hp : r.plan s = .ok p) (h : (r.run s).result = .ok a) :
    ∃ tree xs data nulls, r.tree? s = some tree ∧ tree.toData = .ok (data, nulls) ∧
      a = ⟨some data, (r.run s).errors ++ nulls⟩ ∧
      (p.environment s r.data).Accounts (p.subSelection s r.rootValue) xs ∧
      (r.run s).errors.Perm (xs.flatMap Incident.errors) ∧
      (Environment.paths tree.positions).Nodup ∧ tree.ReportsOnce xs nulls := by
  obtain ⟨children, xs, v, nulls, htree, hgrown, htold, hxs, hdata, rfl⟩ := told_of_run hp h
  have hkeys := p.nodup_keys_subSelection s r.rootValue
  have hpaths := Environment.nodup_paths_of_object hgrown hkeys
  refine ⟨_, xs, v, nulls, htree, hdata, rfl, Environment.accounts_of_told rfl rfl hkeys htold,
    hxs.errors, hpaths, ?_⟩
  rw [(Node.renders_of_toData hdata).1]
  exact Environment.reportsOnce_of_told htold hpaths

/-- A sensor without an identifier whose load cannot be read; readings of which one is missing,
and an owner without a name, whose resolvers return an error for what is missing besides their
values; and a mark that comes with an error and is made null by its scalar. -/
def sensorSchema : Schema :=
  let readings : Outcome :=
    .partialValue (.arr [.int 1, .null]) [⟨"No reading.", [.index 1], none⟩]
  let owner : Outcome :=
    .partialValue (.obj [("name", .null)]) [⟨"No name.", [.key "name"], none⟩]
  let mark : Outcome := .partialValue (.str "x") [.ofMessage "Faded."]
  ((((Schema.ofQueryType "Query").register
    (.scalar ⟨"Blank", fun _ => .ok .null, fun _ => .ok .null, fun _ => .ok .null⟩)).register
    (.object ⟨"Sensor", .ofList [
      ⟨"id", .empty, .required "String", none⟩,
      ⟨"load", .empty, .required "Int", some (.ofOutcome (.failure (.ofMessage "Offline.")))⟩],
      []⟩)).register
    (.object ⟨"Owner", .ofList [
      ⟨"name", .empty, .required "String", none⟩,
      ⟨"mark", .empty, .required "Blank", some (.ofOutcome mark)⟩], []⟩)).register
    (.object ⟨"Query", .ofList [
      ⟨"sensor", .empty, .named "Sensor", some (.ofOutcome (.value (.obj [])))⟩,
      ⟨"readings", .empty, .list (.required "Int"), some (.ofOutcome readings)⟩,
      ⟨"owner", .empty, .named "Owner", some (.ofOutcome owner)⟩], []⟩)

def sensorRequest : Request := .ofText "{ sensor { id load } }"

/-- The load has the error of its resolver only, and the identifier the one that is added. -/
theorem Request.nulls_reported_once_sensor :
    ∃ p a, sensorRequest.plan sensorSchema = .ok p ∧
      (sensorRequest.run sensorSchema).result = .ok a ∧
      a.errors.map (·.path?) =
        [some [.key "sensor", .key "load"], some [.key "sensor", .key "id"]] ∧
      ∃ tree xs data nulls, sensorRequest.tree? sensorSchema = some tree ∧
        tree.toData = .ok (data, nulls) ∧
        a = ⟨some data, (sensorRequest.run sensorSchema).errors ++ nulls⟩ ∧
        tree.ReportsOnce xs nulls := by
  have hplan : (sensorRequest.plan sensorSchema).toOption.isSome = true := by decide +kernel
  have hresult : ((sensorRequest.run sensorSchema).result.toOption.any fun a =>
      a.errors.map (·.path?) ==
        [some [.key "sensor", .key "load"], some [.key "sensor", .key "id"]]) = true := by
    decide +kernel
  obtain ⟨p, hp⟩ := Option.isSome_iff_exists.1 hplan
  obtain ⟨a, ha, hresult⟩ := Except.exists_of_any hresult
  obtain ⟨tree, xs, data, nulls, htree, hdata, hanswer, -, -, -, honce⟩ :=
    Request.nulls_reported_once (Except.toOption_eq_some hp) ha
  exact ⟨p, a, Except.toOption_eq_some hp, ha, beq_iff_eq.1 hresult, tree, xs, data, nulls, htree,
    hdata, hanswer, honce⟩

def ownerRequest : Request := .ofText "{ readings owner { name mark } }"

/-- The reading, the name and the mark. -/
def ownerNulls : List Path :=
  [[.key "readings", .index 1], [.key "owner", .key "name"], [.key "owner", .key "mark"]]

/-- Two errors can have the path of one null, one raised and one added: where a resolver has
reported an item or a field below its value, and where a conversion makes null of a value that
came with an error. -/
theorem Request.nulls_reported_again :
    ∃ tree data nulls, ownerRequest.tree? sensorSchema = some tree ∧
      tree.toData = .ok (data, nulls) ∧
      (ownerRequest.run sensorSchema).result =
        .ok ⟨some data, (ownerRequest.run sensorSchema).errors ++ nulls⟩ ∧
      (tree.positions.filter Node.isDead).map (·.place.path) = ownerNulls ∧
      (ownerRequest.run sensorSchema).errors.map (·.path?) = ownerNulls.map some ∧
      nulls.map (·.path?) = ownerNulls.map some := by
  have htree : ((ownerRequest.tree? sensorSchema).any fun tree =>
      (tree.positions.filter Node.isDead).map (·.place.path) == ownerNulls &&
        tree.toData.toOption.any fun x => x.2.map (·.path?) == ownerNulls.map some &&
          (ownerRequest.run sensorSchema).result.toOption.any fun a =>
            a == ⟨some x.1, (ownerRequest.run sensorSchema).errors ++ x.2⟩) = true := by
    decide +kernel
  have hraised : (ownerRequest.run sensorSchema).errors.map (·.path?) = ownerNulls.map some := by
    decide +kernel
  obtain ⟨tree, htree, hcheck⟩ := (Option.any_eq_true _ _).1 htree
  obtain ⟨hdead, hcheck⟩ := Bool.and_eq_true_iff.1 hcheck
  obtain ⟨⟨data, nulls⟩, hdata, hcheck⟩ := Except.exists_of_any hcheck
  obtain ⟨hadded, hcheck⟩ := Bool.and_eq_true_iff.1 hcheck
  obtain ⟨a, ha, hcheck⟩ := Except.exists_of_any hcheck
  obtain rfl := beq_iff_eq.1 hcheck
  exact ⟨tree, data, nulls, htree, hdata, ha, beq_iff_eq.1 hdead, hraised, beq_iff_eq.1 hadded⟩

end GraphQL
