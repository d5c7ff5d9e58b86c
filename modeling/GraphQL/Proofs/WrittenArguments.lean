/-
GraphQL.Proofs.WrittenArguments — arguments as they are written.

Selections are compared by their arguments as written, before any variable has a value. Two
lists are the same if one is a reordering of the other, with literally equal values
(`SameArguments`). Matching is decided from one side only: the lists have one length, and each
argument of the first is found in the second. That is no equivalence, as an argument may be
written twice.

* `Literal.same_self`, `Literal.same_comm`, `Literal.same_trans` — literal equality is an
  equivalence.
* `argumentsMatch_of_same` — arguments match their reorderings.
* `argumentsMatch_iff` — and nothing else, as long as none of them is written twice.
-/
import Mathlib.Data.List.Nodup
import Mathlib.Data.List.Perm.Basic
import Mathlib.Data.List.Perm.Subperm
import GraphQL.Normal

namespace GraphQL

/-! ## Literals as written -/

theorem Binary64.sameValue_comm (x y : Binary64) : x.sameValue y = y.sameValue x := by
  rw [sameValue, sameValue, Bool.and_comm, Bool.beq_comm]

theorem Binary64.sameValue_trans {x y z : Binary64} (h : x.sameValue y = true)
    (h' : y.sameValue z = true) : x.sameValue z = true := by
  simp only [sameValue, Bool.or_eq_true, Bool.and_eq_true, beq_iff_eq] at h h' ⊢
  rcases h with ⟨hx, hy⟩ | rfl
  · rcases h' with ⟨-, hz⟩ | rfl
    · exact .inl ⟨hx, hz⟩
    · exact .inl ⟨hx, hy⟩
  · exact h'

theorem FloatValue.sameValue_self (x : FloatValue) : x.sameValue x = true := by
  cases x <;> simp [sameValue, Binary64.sameValue]

theorem FloatValue.sameValue_comm (x y : FloatValue) : x.sameValue y = y.sameValue x := by
  cases x <;> cases y <;> simp only [sameValue]
  · exact Binary64.sameValue_comm _ _
  · exact Bool.beq_comm

theorem FloatValue.sameValue_trans {x y z : FloatValue} (h : x.sameValue y = true)
    (h' : y.sameValue z = true) : x.sameValue z = true := by
  cases x <;> cases y <;> cases z <;> simp only [sameValue, Bool.false_eq_true] at h h' ⊢
  · exact Binary64.sameValue_trans h h'
  · rw [beq_iff_eq] at h h' ⊢
    exact h.trans h'

namespace Literal

mutual

theorem same_self : ∀ l : Literal, l.same l = true
  | .null => rfl
  | .var _ => by simp [same]
  | .int _ => by simp [same]
  | .float x => by rw [same, x.sameValue_self]
  | .string _ => by simp [same]
  | .boolean _ => by simp [same]
  | .enum _ => by simp [same]
  | .list items => by rw [same, sameItems_self items]
  | .object fields => by rw [same, sameFields_self fields]

theorem sameItems_self : ∀ items : List Literal, sameItems items items = true
  | [] => rfl
  | l :: items => by rw [sameItems, same_self l, sameItems_self items]; rfl

theorem sameFields_self :
    ∀ fields : List (String × Literal), sameFields fields fields = true
  | [] => rfl
  | (k, l) :: fields => by simp [sameFields, same_self l, sameFields_self fields]

end

mutual

theorem same_comm : ∀ a b : Literal, a.same b = b.same a
  | .null, b => by cases b <;> rfl
  | .var _, b => by cases b <;> simp [same, Bool.beq_comm]
  | .int _, b => by cases b <;> simp [same, Bool.beq_comm]
  | .float x, b => by
    cases b with
    | float y => exact x.sameValue_comm y
    | _ => rfl
  | .string _, b => by cases b <;> simp [same, Bool.beq_comm]
  | .boolean _, b => by cases b <;> simp [same, Bool.beq_comm]
  | .enum _, b => by cases b <;> simp [same, Bool.beq_comm]
  | .list as, b => by
    cases b with
    | list bs => exact sameItems_comm as bs
    | _ => rfl
  | .object as, b => by
    cases b with
    | object bs => exact sameFields_comm as bs
    | _ => rfl

theorem sameItems_comm : ∀ as bs : List Literal, sameItems as bs = sameItems bs as
  | [], bs => by cases bs <;> rfl
  | a :: as, bs => by
    cases bs with
    | nil => rfl
    | cons b bs => rw [sameItems, sameItems, same_comm a b, sameItems_comm as bs]

theorem sameFields_comm :
    ∀ as bs : List (String × Literal), sameFields as bs = sameFields bs as
  | [], bs => by cases bs <;> rfl
  | (k, a) :: as, bs => by
    cases bs with
    | nil => rfl
    | cons p bs =>
      obtain ⟨l, b⟩ := p
      rw [sameFields, sameFields, same_comm a b, sameFields_comm as bs, Bool.beq_comm]

end

mutual

theorem same_trans : ∀ a b c : Literal, a.same b = true → b.same c = true → a.same c = true
  | .null, b, c, h, h' => by
    cases b with
    | null => exact h'
    | _ => simp [same] at h
  | .var x, b, c, h, h' => by
    cases b with
    | var y =>
      obtain rfl : x = y := by simpa [same] using h
      exact h'
    | _ => simp [same] at h
  | .int x, b, c, h, h' => by
    cases b with
    | int y =>
      obtain rfl : x = y := by simpa [same] using h
      exact h'
    | _ => simp [same] at h
  | .float x, b, c, h, h' => by
    cases b with
    | float y =>
      cases c with
      | float z => exact FloatValue.sameValue_trans h h'
      | _ => simp [same] at h'
    | _ => simp [same] at h
  | .string x, b, c, h, h' => by
    cases b with
    | string y =>
      obtain rfl : x = y := by simpa [same] using h
      exact h'
    | _ => simp [same] at h
  | .boolean x, b, c, h, h' => by
    cases b with
    | boolean y =>
      obtain rfl : x = y := by simpa [same] using h
      exact h'
    | _ => simp [same] at h
  | .enum x, b, c, h, h' => by
    cases b with
    | enum y =>
      obtain rfl : x = y := by simpa [same] using h
      exact h'
    | _ => simp [same] at h
  | .list as, b, c, h, h' => by
    cases b with
    | list bs =>
      cases c with
      | list cs => exact sameItems_trans as bs cs h h'
      | _ => simp [same] at h'
    | _ => simp [same] at h
  | .object as, b, c, h, h' => by
    cases b with
    | object bs =>
      cases c with
      | object cs => exact sameFields_trans as bs cs h h'
      | _ => simp [same] at h'
    | _ => simp [same] at h

theorem sameItems_trans : ∀ as bs cs : List Literal,
    sameItems as bs = true → sameItems bs cs = true → sameItems as cs = true
  | [], bs, cs, h, h' => by
    cases bs with
    | nil => exact h'
    | cons b bs => simp [sameItems] at h
  | a :: as, bs, cs, h, h' => by
    cases bs with
    | nil => simp [sameItems] at h
    | cons b bs =>
      cases cs with
      | nil => simp [sameItems] at h'
      | cons c cs =>
        simp only [sameItems, Bool.and_eq_true] at h h' ⊢
        exact ⟨same_trans a b c h.1 h'.1, sameItems_trans as bs cs h.2 h'.2⟩

theorem sameFields_trans : ∀ as bs cs : List (String × Literal),
    sameFields as bs = true → sameFields bs cs = true → sameFields as cs = true
  | [], bs, cs, h, h' => by
    cases bs with
    | nil => exact h'
    | cons p bs => simp [sameFields] at h
  | (k, a) :: as, bs, cs, h, h' => by
    cases bs with
    | nil => simp [sameFields] at h
    | cons p bs =>
      obtain ⟨l, b⟩ := p
      cases cs with
      | nil => simp [sameFields] at h'
      | cons q cs =>
        obtain ⟨m, c⟩ := q
        simp only [sameFields, Bool.and_eq_true, beq_iff_eq] at h h' ⊢
        exact ⟨⟨h.1.1.trans h'.1.1, same_trans a b c h.1.2 h'.1.2⟩,
          sameFields_trans as bs cs h.2 h'.2⟩

end

end Literal

/-! ## Arguments as written -/

/-- Arguments of one name with literally equal values. -/
def LiterallyEqual (a b : String × Literal) : Prop := a.1 = b.1 ∧ a.2.same b.2 = true

/-- One argument list is a reordering of the other, with literally equal values. -/
def SameArguments (left right : List (String × Literal)) : Prop :=
  ∃ left', left.Perm left' ∧ List.Forall₂ LiterallyEqual left' right

theorem LiterallyEqual.refl (a : String × Literal) : LiterallyEqual a a :=
  ⟨rfl, a.2.same_self⟩

theorem LiterallyEqual.symm {a b : String × Literal} (h : LiterallyEqual a b) :
    LiterallyEqual b a :=
  ⟨h.1.symm, Literal.same_comm b.2 a.2 ▸ h.2⟩

theorem LiterallyEqual.trans {a b c : String × Literal} (h : LiterallyEqual a b)
    (h' : LiterallyEqual b c) : LiterallyEqual a c :=
  ⟨h.1.trans h'.1, Literal.same_trans _ _ _ h.2 h'.2⟩

theorem LiterallyEqual.forall₂_trans {as bs cs : List (String × Literal)}
    (h : List.Forall₂ LiterallyEqual as bs) (h' : List.Forall₂ LiterallyEqual bs cs) :
    List.Forall₂ LiterallyEqual as cs := by
  induction h generalizing cs with
  | nil => exact h'
  | cons hab _ ih =>
    cases h' with
    | cons hbc h' => exact .cons (hab.trans hbc) (ih h')

namespace SameArguments

variable {left mid right : List (String × Literal)}

theorem refl (left : List (String × Literal)) : SameArguments left left :=
  ⟨left, .refl left, List.forall₂_same.2 fun a _ => .refl a⟩

/-- Reordering before or after passing to literally equal arguments comes to the same. -/
theorem of_forall₂_perm (h : List.Forall₂ LiterallyEqual left mid) (hperm : mid.Perm right) :
    SameArguments left right := by
  have hcomp : Relation.Comp (List.Forall₂ LiterallyEqual) List.Perm left right := ⟨mid, h, hperm⟩
  rw [List.forall₂_comp_perm_eq_perm_comp_forall₂] at hcomp
  exact hcomp

theorem symm (h : SameArguments left right) : SameArguments right left := by
  obtain ⟨left', hperm, heq⟩ := h
  exact of_forall₂_perm ((heq.imp fun _ _ => LiterallyEqual.symm).flip) hperm.symm

theorem trans (h : SameArguments left mid) (h' : SameArguments mid right) :
    SameArguments left right := by
  obtain ⟨left', hleft, heq⟩ := h
  obtain ⟨mid', hmid, heq'⟩ := h'
  obtain ⟨left'', hleft', heq''⟩ := of_forall₂_perm heq hmid
  exact ⟨left'', hleft.trans hleft', LiterallyEqual.forall₂_trans heq'' heq'⟩

end SameArguments

/-- Things that each have a partner in a list make a list of partners. -/
theorem exists_partners {α β : Type} {R : α → β → Prop} {xs : List α} {ys : List β}
    (h : ∀ x ∈ xs, ∃ y ∈ ys, R x y) : ∃ zs, zs ⊆ ys ∧ List.Forall₂ R xs zs := by
  induction xs with
  | nil => exact ⟨[], List.nil_subset _, .nil⟩
  | cons x xs ih =>
    obtain ⟨⟨y, hy, hxy⟩, hxs⟩ := List.forall_mem_cons.1 h
    obtain ⟨zs, hzs, hforall⟩ := ih hxs
    exact ⟨y :: zs, List.cons_subset.2 ⟨hy, hzs⟩, .cons hxy hforall⟩

/-- No argument is written twice. -/
def WrittenOnce (arguments : List (String × Literal)) : Prop := (Entries.keys arguments).Nodup

instance (arguments : List (String × Literal)) : Decidable (WrittenOnce arguments) :=
  inferInstanceAs (Decidable (Entries.keys arguments).Nodup)

/-- Arguments match others that are as many, each of them being found among those. -/
theorem argumentsMatch_iff_forall {left right : List (String × Literal)} :
    argumentsMatch left right = true ↔
      left.length = right.length ∧ ∀ a ∈ left, ∃ b ∈ right, LiterallyEqual a b := by
  simp only [argumentsMatch, Bool.and_eq_true, beq_iff_eq, List.all_eq_true, List.any_eq_true]
  refine and_congr_right fun _ => forall₂_congr fun a _ => exists_congr fun b => ?_
  rw [LiterallyEqual, Literal.same_comm b.2 a.2, eq_comm (a := b.1)]

namespace SameArguments

variable {left right : List (String × Literal)}

theorem length_eq (h : SameArguments left right) : left.length = right.length := by
  obtain ⟨left', hperm, heq⟩ := h
  exact hperm.length_eq.trans heq.length_eq

theorem exists_of_mem (h : SameArguments left right) {a : String × Literal} (ha : a ∈ left) :
    ∃ b ∈ right, LiterallyEqual a b := by
  obtain ⟨left', hperm, heq⟩ := h
  obtain ⟨i, hi, rfl⟩ := List.mem_iff_getElem.1 (hperm.subset ha)
  have hi' : i < right.length := heq.length_eq ▸ hi
  exact ⟨right[i], List.getElem_mem hi', heq.get hi hi'⟩

end SameArguments

theorem argumentsMatch_of_same {left right : List (String × Literal)}
    (h : SameArguments left right) : argumentsMatch left right = true :=
  argumentsMatch_iff_forall.2 ⟨h.length_eq, fun _ => h.exists_of_mem⟩

theorem argumentsMatch_self (arguments : List (String × Literal)) :
    argumentsMatch arguments arguments = true :=
  argumentsMatch_of_same (.refl arguments)

/-- What matches some arguments matches their reorderings. -/
theorem argumentsMatch_trans {left mid right : List (String × Literal)}
    (h : argumentsMatch left mid = true) (hsame : SameArguments mid right) :
    argumentsMatch left right = true := by
  obtain ⟨hlength, hmatch⟩ := argumentsMatch_iff_forall.1 h
  refine argumentsMatch_iff_forall.2 ⟨hlength.trans hsame.length_eq, fun a ha => ?_⟩
  obtain ⟨b, hb, hab⟩ := hmatch a ha
  obtain ⟨c, hc, hbc⟩ := hsame.exists_of_mem hb
  exact ⟨c, hc, hab.trans hbc⟩

/-- Arguments of which none is written twice match exactly those that are a reordering. -/
theorem argumentsMatch_iff {left right : List (String × Literal)} (hleft : WrittenOnce left) :
    argumentsMatch left right = true ↔ SameArguments left right := by
  refine ⟨fun h => ?_, argumentsMatch_of_same⟩
  obtain ⟨hlength, hmatch⟩ := argumentsMatch_iff_forall.1 h
  obtain ⟨partners, hsub, heq⟩ := exists_partners hmatch
  -- the partners have the names of the arguments, so they are different
  have hkeys : Entries.keys left = Entries.keys partners := by
    rw [Entries.keys, Entries.keys, ← List.forall₂_eq_eq_eq, List.forall₂_map_left_iff,
      List.forall₂_map_right_iff]
    exact heq.imp fun _ _ h => h.1
  have hnodup : partners.Nodup := by
    rw [WrittenOnce, hkeys] at hleft
    exact hleft.of_map
  exact .of_forall₂_perm heq
    ((hnodup.subperm hsub).perm_of_length_le
      (Nat.le_of_eq (hlength.symm.trans heq.length_eq)))

end GraphQL
