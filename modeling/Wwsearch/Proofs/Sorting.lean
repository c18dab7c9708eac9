import Wwsearch.Lib.PriorityQueue
import Wwsearch.Ref.Sorter

/-!
# The sorter is a strict weak order

A condition on its own is a strict weak order, whatever the fields of the
documents are. An ascending condition hands what it does not tell on to the
next one, so it is the first part of a lexicographic order. A descending
condition decides alone, and what stands behind it is never asked
(`sorterLoop_desc`): two documents with the same value tie.
-/

namespace Wwsearch.Ref

open Wwsearch.Lib

/-! ## One condition -/

theorem stringGreater_eq (s1 s2 : Bytes) :
    stringGreater s1 s2 = (compare s1 s2 == .gt) := by
  induction s1 generalizing s2 with
  | nil =>
      cases s2 with
      | nil => rfl
      | cons b s2 => rfl
  | cons a s1 ih =>
      cases s2 with
      | nil => rfl
      | cons b s2 =>
          have hlen : (if s1.length < s2.length then s1.length + 1
              else s2.length + 1) =
              (if s1.length < s2.length then s1.length else s2.length) + 1 := by
            split <;> rfl
          have hrest := ih s2
          rw [stringGreater] at hrest ⊢
          rw [List.compare_cons_cons]
          simp only [List.length_cons, Nat.add_lt_add_iff_right, hlen,
            List.take_succ_cons, List.compare_cons_cons]
          cases compare a b with
          | lt => rfl
          | gt => rfl
          | eq => exact hrest

theorem strictWeak_stringGreater : StrictWeak stringGreater := by
  refine ⟨fun {x y} hxy => ?_, fun {x y z} hxy hyz => ?_⟩
  · rw [stringGreater_eq] at hxy ⊢
    rw [Std.OrientedOrd.eq_swap (a := y), beq_iff_eq.1 hxy]
    rfl
  · rw [stringGreater_eq, beq_eq_false_iff_ne] at hxy hyz ⊢
    exact Ordering.ne_gt_iff_isLE.2 (Std.TransOrd.isLE_trans
      (Ordering.ne_gt_iff_isLE.1 hxy) (Ordering.ne_gt_iff_isLE.1 hyz))

theorem strictWeak_gt : StrictWeak fun v1 v2 : UInt64 => decide (v2 < v1) := by
  refine ⟨fun {x y} hxy => ?_, fun {x y z} hxy hyz => ?_⟩
  · exact decide_eq_false (UInt64.not_lt.2
      (UInt64.le_of_lt (of_decide_eq_true hxy)))
  · exact decide_eq_false (UInt64.not_lt.2 (UInt64.le_trans
      (UInt64.not_lt.1 (of_decide_eq_false hxy))
      (UInt64.not_lt.1 (of_decide_eq_false hyz))))

/-- `InnerGreater` on documents, in terms of their values. -/
theorem strictWeak_innerGreater {β : Type} (value : IndexField → Option β)
    {gt : β → β → Bool} (h : StrictWeak gt)
    (field : Document → Option IndexField) :
    StrictWeak fun x y : Document =>
      innerGreater value gt x.documentId (field x) y.documentId (field y) := by
  refine ⟨fun {x y} hxy => ?_, fun {x y z} hxy hyz => ?_⟩
  · simp only [innerGreater] at hxy ⊢
    cases hx : (field x).bind value with
    | none =>
        cases hy : (field y).bind value with
        | none => rw [hx, hy] at hxy; exact strictWeak_gt.asymm hxy
        | some w => rw [hx, hy] at hxy; exact absurd hxy Bool.false_ne_true
    | some v =>
        cases hy : (field y).bind value with
        | none => rfl
        | some w => rw [hx, hy] at hxy; exact h.asymm hxy
  · simp only [innerGreater] at hxy hyz ⊢
    cases hx : (field x).bind value with
    | none =>
        cases hz : (field z).bind value with
        | some u => rfl
        | none =>
            cases hy : (field y).bind value with
            | none =>
                rw [hx, hy] at hxy
                rw [hy, hz] at hyz
                exact strictWeak_gt.negTrans hxy hyz
            | some w => rw [hy, hz] at hyz; exact absurd hyz.symm Bool.false_ne_true
    | some v =>
        cases hy : (field y).bind value with
        | none => rw [hx, hy] at hxy; exact absurd hxy.symm Bool.false_ne_true
        | some w =>
            cases hz : (field z).bind value with
            | none => rw [hy, hz] at hyz; exact absurd hyz.symm Bool.false_ne_true
            | some u =>
                rw [hx, hy] at hxy
                rw [hy, hz] at hyz
                exact h.negTrans hxy hyz

namespace SortCondition

/-- Whether the condition puts `x` before `y`. -/
def before (sc : SortCondition) (x y : Document) : Bool :=
  match sc.sortType with
  | .desc => sc.innerGreater x.documentId (x.findField sc.fieldId)
      y.documentId (y.findField sc.fieldId)
  | .asc => sc.innerGreater y.documentId (y.findField sc.fieldId)
      x.documentId (x.findField sc.fieldId)

theorem strictWeak_inner (sc : SortCondition) :
    StrictWeak fun x y : Document =>
      sc.innerGreater x.documentId (x.findField sc.fieldId)
        y.documentId (y.findField sc.fieldId) := by
  cases sc with
  | numeric f t =>
      exact strictWeak_innerGreater _ strictWeak_gt (·.findField f)
  | string f t =>
      exact strictWeak_innerGreater _ strictWeak_stringGreater (·.findField f)

theorem strictWeak_before (sc : SortCondition) : StrictWeak sc.before := by
  unfold before
  cases sc.sortType with
  | desc => exact sc.strictWeak_inner
  | asc => exact sc.strictWeak_inner.swap

end SortCondition

/-! ## The list of conditions -/

/-- Behind a descending condition nothing is asked. -/
theorem sorterLoop_desc {sc : SortCondition} (h : sc.sortType = .desc)
    (lhs rhs : Document) (rest : List SortCondition) :
    sorterLoop lhs rhs (sc :: rest) = sc.before lhs rhs := by
  have hasymm := @(sc.strictWeak_inner).asymm lhs rhs
  simp only [sorterLoop, SortCondition.greater, SortCondition.before, h,
    if_true]
  split
  · next hboth =>
      obtain ⟨h1, h2⟩ := Bool.and_eq_true_iff.1 hboth
      exact absurd h2 (Bool.eq_false_iff.1 (hasymm h1))
  · rfl

/-- An ascending condition leaves its ties to the rest. -/
theorem sorterLoop_asc {sc : SortCondition} (h : sc.sortType = .asc)
    (lhs rhs : Document) (rest : List SortCondition) :
    sorterLoop lhs rhs (sc :: rest) =
      lexLess sc.before (fun x y => sorterLoop x y rest) lhs rhs := by
  have hasymm := @(sc.strictWeak_inner).asymm rhs lhs
  simp only [sorterLoop, SortCondition.greater, SortCondition.before, h,
    lexLess, reduceCtorEq, if_false]
  cases hrl : sc.innerGreater rhs.documentId (rhs.findField sc.fieldId)
      lhs.documentId (lhs.findField sc.fieldId) with
  | true => rw [hasymm hrl]; rfl
  | false =>
      cases sc.innerGreater lhs.documentId (lhs.findField sc.fieldId)
        rhs.documentId (rhs.findField sc.fieldId) <;> rfl

theorem strictWeak_sorterLoop (conds : List SortCondition) :
    StrictWeak fun x y => sorterLoop x y conds := by
  induction conds with
  | nil => exact strictWeak_gt.comap Document.documentId
  | cons sc rest ih =>
      cases h : sc.sortType with
      | desc =>
          simp only [sorterLoop_desc h]
          exact sc.strictWeak_before
      | asc =>
          simp only [sorterLoop_asc h]
          exact sc.strictWeak_before.lex ih

theorem strictWeak_sorter (sortCondictions : Option (List SortCondition)) :
    StrictWeak (sorter sortCondictions) := by
  cases sortCondictions with
  | none => exact strictWeak_gt.comap Document.documentId
  | some conds => exact strictWeak_sorterLoop conds

end Wwsearch.Ref
