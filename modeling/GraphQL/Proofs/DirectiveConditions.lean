/-
GraphQL.Proofs.DirectiveConditions — what `@skip` and `@include` come to.

A condition has a value if it is the literal of a boolean or a variable bound to one; whatever
else stands there, and whatever the variable was declared as, is no condition at all
(`coerceLiteral_boolean_iff`). A directive excludes its selection if a condition of it says so:
`@skip` by true, `@include` by false.

Of several directives of one name the first is asked alone, and of several conditions in it the
first. So the rule that any directive excludes is only half of the truth: a selection that is left
out is excluded by one of its directives, but a directive can be hidden behind another one of its
name. Where the `@skip`s are alike, and the `@include`s, none is hidden.

* `ifArgument?_eq_some_iff` — what the lookup of a condition finds.
* `Directives.conditions_honoured` — the rule for all lists of directives, and for lists that hide
  nothing the rule of any directive, in any order.
* `Directives.condition_hidden` — a directive that is hidden behind the one before it.
-/
import GraphQL.Selection

namespace GraphQL

/-! ## Conditions -/

/-- The value of a condition: the literal of a boolean, or a variable bound to one. -/
def Literal.Settles (vars : VariableValues) (l : Literal) (b : Bool) : Prop :=
  l = .boolean b ∨ ∃ name, l = .var name ∧ vars.lookup name = some (.bool b)

namespace Directive

/-- By a condition of this value the directive excludes the selection that it stands on. -/
def ExcludesBy (d : Directive) (b : Bool) : Prop :=
  d.name = "skip" ∧ b = true ∨ d.name = "include" ∧ b = false

/-- The directive is one of the two that are asked for a condition. -/
def Conditional (d : Directive) : Prop :=
  d.name = "skip" ∨ d.name = "include"

/-- Some condition of the directive excludes the selection. -/
def Excludes (vars : VariableValues) (d : Directive) : Prop :=
  ∃ l b, ("if", l) ∈ d.arguments ∧ l.Settles vars b ∧ d.ExcludesBy b

/-- The first condition of the directive excludes the selection. -/
def ExcludesFirst (vars : VariableValues) (d : Directive) : Prop :=
  ∃ l b, d.arguments.lookup "if" = some l ∧ l.Settles vars b ∧ d.ExcludesBy b

theorem Excludes.conditional {vars : VariableValues} {d : Directive} (h : d.Excludes vars) :
    d.Conditional := by
  obtain ⟨_, _, _, _, hby⟩ := h
  exact hby.imp And.left And.left

theorem ExcludesFirst.excludes {vars : VariableValues} {d : Directive}
    (h : d.ExcludesFirst vars) : d.Excludes vars := by
  obtain ⟨l, b, hl, hrest⟩ := h
  obtain ⟨before, after, hsplit, -⟩ := List.lookup_eq_some_iff.1 hl
  exact ⟨l, b, hsplit ▸ List.mem_append_right _ List.mem_cons_self, hrest⟩

end Directive

/-- The schema has the built-in scalar of booleans. -/
def Schema.HasBoolean (s : Schema) : Prop :=
  ∃ t, s.type? "Boolean" = some (.scalar t) ∧ t.coercion = .boolean

theorem Schema.hasBoolean_ofQueryType (queryType : String) :
    (Schema.ofQueryType queryType).HasBoolean :=
  ⟨⟨"Boolean", .boolean⟩, rfl, rfl⟩

variable {s : Schema} {vars : VariableValues} {ds : List Directive} {b : Bool}

/-- A literal is coerced to a boolean exactly if it has that value as a condition. -/
theorem coerceLiteral_boolean_iff (hs : s.HasBoolean) {l : Literal} :
    coerceLiteral s vars l (.required "Boolean") = .ok (some (.bool b)) ↔ l.Settles vars b := by
  obtain ⟨t, ht, hcoercion⟩ := hs
  unfold Literal.Settles
  cases l with
  | var name =>
    -- the declared type of the variable is not looked at
    simp only [coerceLiteral, Literal.variableAt]
    cases hlookup : vars.lookup name with
    | none => simp [hlookup]
    | some v => cases v <;> simp [hlookup, TypeExpr.required, TypeExpr.isNonNull, Json.isNull]
  | boolean c =>
    simp [coerceLiteral, TypeExpr.required, Literal.atType, Literal.isNull, Literal.atName, ht,
      hcoercion, ScalarCoercion.boolean, Except.map, Except.bind, Literal.refuseNull]
  | null =>
    simp [coerceLiteral, TypeExpr.required, Literal.atType, Literal.isNull, Except.bind,
      Literal.refuseNull]
  | _ =>
    simp [coerceLiteral, TypeExpr.required, Literal.atType, Literal.isNull, Literal.atName, ht,
      hcoercion, ScalarCoercion.boolean, ScalarCoercion.wrongLiteral, Except.map, Except.bind]

/-! ## The first directive of a name -/

/-- A condition is found if the first directive of the name has it first. -/
theorem ifArgument?_eq_some_iff (hs : s.HasBoolean) {name : String} :
    ifArgument? s vars name ds = some b ↔
      ∃ d l, ds.find? (fun d => d.name == name) = some d ∧ d.arguments.lookup "if" = some l ∧
        l.Settles vars b := by
  simp only [ifArgument?, Option.bind_eq_bind, Option.bind_eq_some_iff]
  constructor
  · rintro ⟨d, hd, l, hl, hb⟩
    split at hb
    · next hcoerced =>
      obtain rfl := Option.some.inj hb
      exact ⟨d, l, hd, hl, (coerceLiteral_boolean_iff hs).1 hcoerced⟩
    · cases hb
  · rintro ⟨d, l, hd, hl, hb⟩
    exact ⟨d, hd, l, hl, by rw [(coerceLiteral_boolean_iff hs).2 hb]⟩

/-- A selection is left out if the first `@skip` or the first `@include` excludes it. -/
theorem isIncluded_eq_false_iff (hs : s.HasBoolean) :
    isIncluded s vars ds = false ↔
      ∃ d, ds.find? (fun e => e.name == d.name) = some d ∧ d.ExcludesFirst vars := by
  have hflags : isIncluded s vars ds = false ↔
      ifArgument? s vars "skip" ds = some true ∨ ifArgument? s vars "include" ds = some false := by
    unfold isIncluded
    rcases ifArgument? s vars "skip" ds with - | - | - <;>
      rcases ifArgument? s vars "include" ds with - | - | - <;> simp
  rw [hflags, ifArgument?_eq_some_iff hs, ifArgument?_eq_some_iff hs]
  constructor
  · rintro (⟨d, l, hd, hl, hb⟩ | ⟨d, l, hd, hl, hb⟩)
    · have hname : d.name = "skip" := by simpa using List.find?_some hd
      exact ⟨d, hname.symm ▸ hd, l, true, hl, hb, .inl ⟨hname, rfl⟩⟩
    · have hname : d.name = "include" := by simpa using List.find?_some hd
      exact ⟨d, hname.symm ▸ hd, l, false, hl, hb, .inr ⟨hname, rfl⟩⟩
  · rintro ⟨d, hd, l, b, hl, hb, ⟨hname, rfl⟩ | ⟨hname, rfl⟩⟩
    · exact .inl ⟨d, l, hname ▸ hd, hl, hb⟩
    · exact .inr ⟨d, l, hname ▸ hd, hl, hb⟩

/-! ## Lists that hide nothing -/

namespace Directives

/-- The `@skip`s are alike and the `@include`s are, and so are the conditions of one of them: none
is hidden behind another. Directives of other names may be repeated as they like. -/
structure Plain (ds : List Directive) : Prop where
  names : ∀ d ∈ ds, ∀ e ∈ ds, d.Conditional → d.name = e.name → d = e
  conditions : ∀ d ∈ ds, d.Conditional → ∀ l l', ("if", l) ∈ d.arguments →
    ("if", l') ∈ d.arguments → l = l'

theorem Plain.perm (h : Plain ds) {es : List Directive} (hperm : es.Perm ds) : Plain es :=
  ⟨fun d hd e he => h.names d (hperm.subset hd) e (hperm.subset he),
    fun d hd => h.conditions d (hperm.subset hd)⟩

/-- In a plain list a directive that excludes is the first of its name, and does so by its first
condition. -/
theorem Plain.first (h : Plain ds) {d : Directive} (hd : d ∈ ds) (hexcludes : d.Excludes vars) :
    ds.find? (fun e => e.name == d.name) = some d ∧ d.ExcludesFirst vars := by
  have hconditional := hexcludes.conditional
  obtain ⟨l, b, hl, hrest⟩ := hexcludes
  constructor
  · cases hfind : ds.find? (fun e => e.name == d.name) with
    | none => simpa using List.find?_eq_none.1 hfind d hd
    | some e =>
      have hname : e.name = d.name := by simpa using List.find?_some hfind
      rw [h.names d hd e (List.mem_of_find?_eq_some hfind) hconditional hname.symm]
  · cases hlookup : d.arguments.lookup "if" with
    | none => simpa using List.lookup_eq_none_iff.1 hlookup _ hl
    | some l' =>
      obtain ⟨before, after, hsplit, -⟩ := List.lookup_eq_some_iff.1 hlookup
      have hl' : ("if", l') ∈ d.arguments :=
        hsplit ▸ List.mem_append_right _ List.mem_cons_self
      exact ⟨l', b, hlookup, h.conditions d hd hconditional l l' hl hl' ▸ hrest⟩

/-- Of a plain list any directive excludes. -/
theorem Plain.isIncluded_eq_false_iff (hs : s.HasBoolean) (h : Plain ds) :
    isIncluded s vars ds = false ↔ ∃ d ∈ ds, d.Excludes vars := by
  rw [GraphQL.isIncluded_eq_false_iff hs]
  constructor
  · rintro ⟨d, hd, hfirst⟩
    exact ⟨d, List.mem_of_find?_eq_some hd, hfirst.excludes⟩
  · rintro ⟨d, hd, hexcludes⟩
    exact ⟨d, h.first hd hexcludes⟩

/-! ## Further directives -/

/-- A directive that does not exclude changes nothing, unless one of its name comes after it. -/
theorem isIncluded_added (hs : s.HasBoolean) {before after : List Directive} {d : Directive}
    (hd : ¬ d.Excludes vars)
    (hafter : ∀ e ∈ after, e.Excludes vars → e.name = d.name →
      ∃ e' ∈ before, e'.name = e.name) :
    isIncluded s vars (before ++ d :: after) = isIncluded s vars (before ++ after) := by
  refine Bool.not_inj (Bool.coe_false_iff_false.1 ?_)
  rw [isIncluded_eq_false_iff hs, isIncluded_eq_false_iff hs]
  refine exists_congr fun e => and_congr_left fun hfirst => ?_
  rw [List.find?_append, List.find?_append, List.find?_cons]
  by_cases hname : d.name = e.name
  · -- neither directive is found behind one of their name before them
    cases hbefore : before.find? (fun e' => e'.name == e.name) with
    | some e' => simp
    | none =>
      have hne : d ≠ e := fun h => hd (h ▸ hfirst.excludes)
      have hnot : after.find? (fun e' => e'.name == e.name) ≠ some e := by
        intro hfind
        obtain ⟨e', he', hsame⟩ :=
          hafter e (List.mem_of_find?_eq_some hfind) hfirst.excludes hname.symm
        exact List.find?_eq_none.1 hbefore e' he' (by simpa using hsame)
      simp [hname, hne, hnot]
  · have hb : (d.name == e.name) = false := by simpa using hname
    simp [hb]

/-! ## All lists of directives -/

/-- How the directives of a selection decide on it. -/
structure Honoured (s : Schema) (vars : VariableValues) (ds : List Directive) : Prop where
  /-- The selection is left out exactly if the first directive of a name excludes it by its first
  condition. -/
  first : isIncluded s vars ds = false ↔ ∃ before d after, ds = before ++ d :: after ∧
    (∀ e ∈ before, e.name ≠ d.name) ∧ d.ExcludesFirst vars
  /-- It is left out only if a directive excludes it. -/
  reason : isIncluded s vars ds = false → ∃ d ∈ ds, d.Excludes vars
  /-- In a plain list any directive that excludes it leaves it out. -/
  any : Plain ds → (∃ d ∈ ds, d.Excludes vars) → isIncluded s vars ds = false
  /-- The order of a plain list does not matter. -/
  order : Plain ds → ∀ es, es.Perm ds → isIncluded s vars es = isIncluded s vars ds
  /-- A further directive that does not exclude changes nothing, wherever it stands, unless it is a
  `@skip` or `@include` before another one of its name. -/
  added : ∀ before d after, ds = before ++ after → ¬ d.Excludes vars →
    (∀ e ∈ after, e.name = d.name → d.name ≠ "skip" ∧ d.name ≠ "include") →
      isIncluded s vars (before ++ d :: after) = isIncluded s vars ds

/-- Directives are asked by name, the first one alone. Whatever the arguments, the selection is
left out only by a directive that excludes it; and any of them does so, in any order, if the
`@skip`s are alike and the `@include`s are. -/
theorem conditions_honoured (hs : s.HasBoolean) (vars : VariableValues) (ds : List Directive) :
    Honoured s vars ds where
  first := by
    rw [isIncluded_eq_false_iff hs]
    constructor
    · rintro ⟨d, hd, hfirst⟩
      obtain ⟨-, before, after, hsplit, hbefore⟩ := List.find?_eq_some_iff_append.1 hd
      exact ⟨before, d, after, hsplit, fun e he => by simpa using hbefore e he, hfirst⟩
    · rintro ⟨before, d, after, hsplit, hbefore, hfirst⟩
      refine ⟨d, List.find?_eq_some_iff_append.2 ⟨by simp, before, after, hsplit, ?_⟩, hfirst⟩
      exact fun e he => by simpa using hbefore e he
  reason h := by
    obtain ⟨d, hd, hfirst⟩ := (isIncluded_eq_false_iff hs).1 h
    exact ⟨d, List.mem_of_find?_eq_some hd, hfirst.excludes⟩
  any hplain := (hplain.isIncluded_eq_false_iff hs).2
  order hplain es hperm := by
    refine Bool.not_inj (Bool.coe_false_iff_false.1 ?_)
    rw [hplain.isIncluded_eq_false_iff hs, (hplain.perm hperm).isIncluded_eq_false_iff hs]
    exact exists_congr fun d => and_congr_left fun _ => hperm.mem_iff
  added before d after hsplit hd hafter := by
    subst hsplit
    refine isIncluded_added hs hd fun e he hexcludes hname => ?_
    obtain ⟨hskip, hinclude⟩ := hafter e he hname
    rcases hexcludes.conditional with hname' | hname'
    · exact absurd (hname ▸ hname') hskip
    · exact absurd (hname ▸ hname') hinclude

/-- Conditions of all kinds: a string, a variable and none, between repeated directives of another
name. -/
def mixedConditions : List Directive :=
  [⟨"log", [("if", .boolean true)]⟩, ⟨"skip", [("if", .string "yes")]⟩, ⟨"log", []⟩,
    ⟨"include", [("if", .var "show")]⟩]

/-- A variable that is false leaves the selection out, in this order and the other way round, and a
further `@skip` without a condition changes nothing. -/
theorem conditions_honoured_mixed :
    (Schema.ofQueryType "Query").HasBoolean ∧
      (let vars : VariableValues := [("show", .bool false)]
      let included := isIncluded (Schema.ofQueryType "Query") vars
      Honoured (Schema.ofQueryType "Query") vars mixedConditions ∧ Plain mixedConditions ∧
        (∃ d ∈ mixedConditions, d.Excludes vars) ∧ included mixedConditions = false ∧
        included mixedConditions.reverse = false ∧
        included (mixedConditions ++ [⟨"skip", [("unless", .boolean true)]⟩]) = false) := by
  have hs := Schema.hasBoolean_ofQueryType "Query"
  have h := conditions_honoured hs [("show", .bool false)] mixedConditions
  have hplain : Plain mixedConditions :=
    ⟨by simp [mixedConditions, Directive.Conditional],
      by simp [mixedConditions, Directive.Conditional]⟩
  have hexcludes : ∃ d ∈ mixedConditions, d.Excludes [("show", .bool false)] :=
    ⟨⟨"include", [("if", .var "show")]⟩, by simp [mixedConditions],
      .var "show", false, .head _, .inr ⟨_, rfl, rfl⟩, .inr ⟨rfl, rfl⟩⟩
  have hout := h.any hplain hexcludes
  refine ⟨hs, h, hplain, hexcludes, hout, ?_, ?_⟩
  · rw [h.order hplain _ (List.reverse_perm _), hout]
  · have hunless : ¬ Directive.Excludes [("show", .bool false)]
        ⟨"skip", [("unless", .boolean true)]⟩ := by
      simp [Directive.Excludes]
    rw [h.added mixedConditions _ [] (by simp) hunless (by simp), hout]

/-- An excluding directive behind another one of its name is not asked, nor is an excluding
condition behind another one. In front of it they are. -/
theorem condition_hidden :
    (Schema.ofQueryType "Query").HasBoolean ∧
      (let ds : List Directive :=
        [⟨"skip", [("if", .boolean false)]⟩, ⟨"skip", [("if", .boolean true)]⟩]
      (∃ d ∈ ds, d.name = "skip" ∧ ("if", Literal.boolean true) ∈ d.arguments) ∧
        isIncluded (Schema.ofQueryType "Query") [] ds = true ∧
        isIncluded (Schema.ofQueryType "Query") [] ds.reverse = false) ∧
      isIncluded (Schema.ofQueryType "Query") []
        [⟨"skip", [("if", .boolean false), ("if", .boolean true)]⟩] = true := by
  refine ⟨Schema.hasBoolean_ofQueryType "Query", ⟨?_, ?_, ?_⟩, ?_⟩
  · exact ⟨_, .tail _ (.head _), rfl, .head _⟩
  all_goals decide +kernel

end Directives

end GraphQL
