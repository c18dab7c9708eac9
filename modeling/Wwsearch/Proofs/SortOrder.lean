import Wwsearch.Proofs.Sorting
import Wwsearch.Spec.SortOrder

/-!
# How far the sorter is lexicographic

An ascending condition hands its ties on, a descending one keeps them. So the
sorter is a strict weak order for all conditions and documents
(`sorter_strictWeakOrdering`), and it is the order that the conditions ask for
on two documents exactly when no descending condition ties before they are told
apart (`sorter_lexicographic_iff`).
-/

namespace Wwsearch.Spec

open Wwsearch.Lib Wwsearch.Ref

/-- **The sorter meets what a priority queue asks of it**, for any conditions
and documents with or without the fields. -/
theorem sorter_strictWeakOrdering (conds : Option (List SortCondition)) :
    (∀ x, sorter conds x x = false) ∧
    (∀ x y, sorter conds x y = true → sorter conds y x = false) ∧
    (∀ x y z, sorter conds x y = true → sorter conds y z = true →
      sorter conds x z = true) ∧
    ∀ x y z, sorter conds x y = false ∧ sorter conds y x = false →
      sorter conds y z = false ∧ sorter conds z y = false →
      sorter conds x z = false ∧ sorter conds z x = false := by
  have h := strictWeak_sorter conds
  refine ⟨fun x => ?_, fun x y => h.asymm, fun x y z hxy hyz => ?_,
    fun x y z hxy hyz => ?_⟩
  · cases hxx : sorter conds x x with
    | false => rfl
    | true => exact hxx.symm.trans (h.asymm hxx)
  · -- `z` is not before `y`, so if `x` is not before `z` it is not before `y`
    cases hxz : sorter conds x z with
    | true => rfl
    | false => exact (h.negTrans hxz (h.asymm hyz)).symm.trans hxy
  · exact ⟨h.negTrans hxy.1 hyz.1, h.negTrans hyz.2 hxy.2⟩

/-! ## One condition -/

theorem SortValue.larger_irrefl (v : SortValue) : ¬ v.Larger v := by
  cases v with
  | numeric v => exact UInt64.lt_irrefl v
  | string s =>
      show compare s s ≠ .gt
      rw [Std.compare_self]
      exact fun h => by cases h

theorem larger_asymm {v w : SortValue} (h : v.Larger w) : ¬ w.Larger v := by
  cases v with
  | numeric v =>
      cases w with
      | numeric w => exact UInt64.lt_asymm h
      | string t => exact h.elim
  | string s =>
      cases w with
      | numeric w => exact h.elim
      | string t =>
          have hst : compare s t = .gt := h
          show compare t s ≠ .gt
          rw [Std.OrientedOrd.eq_swap (a := t), hst]
          exact fun h => by cases h

section Condition

variable {sc : SortCondition} {x y : Document}

theorem WinsBy.not_same (h : WinsBy sc x y) : ¬ SameBy sc x y := by
  obtain ⟨v, w, hv, hw, hwins⟩ := h
  intro hsame
  rw [SameBy, hv, hw] at hsame
  rw [Option.some.inj hsame] at hwins
  split at hwins
  · exact w.larger_irrefl hwins
  · exact w.larger_irrefl hwins

theorem WinsBy.asymm (h : WinsBy sc x y) : ¬ WinsBy sc y x := by
  rintro ⟨w', v', hw', hv', hwins'⟩
  obtain ⟨v, w, hv, hw, hwins⟩ := h
  rw [hw] at hw'
  rw [hv] at hv'
  rw [← Option.some.inj hw', ← Option.some.inj hv'] at hwins'
  split at hwins
  · next hdesc => exact larger_asymm hwins ((if_pos hdesc).mp hwins')
  · next hasc => exact larger_asymm hwins ((if_neg hasc).mp hwins')

/-- `InnerGreater` on two documents with the field. -/
theorem innerGreater_iff {v w : SortValue} (hv : sortValue sc x = some v)
    (hw : sortValue sc y = some w) :
    sc.innerGreater x.documentId (x.findField sc.fieldId)
      y.documentId (y.findField sc.fieldId) = true ↔ v.Larger w := by
  cases sc with
  | numeric f t =>
      obtain ⟨n, hn, rfl⟩ := Option.map_eq_some_iff.1 hv
      obtain ⟨m, hm, rfl⟩ := Option.map_eq_some_iff.1 hw
      simp only [SortCondition.innerGreater, SortCondition.fieldId, innerGreater,
        hn, hm, decide_eq_true_eq, SortValue.Larger]
  | string f t =>
      obtain ⟨s, hs, rfl⟩ := Option.map_eq_some_iff.1 hv
      obtain ⟨u, hu, rfl⟩ := Option.map_eq_some_iff.1 hw
      simp only [SortCondition.innerGreater, SortCondition.fieldId, innerGreater,
        hs, hu, stringGreater_eq, beq_iff_eq, SortValue.Larger]

/-- A condition of the code, on two documents with the field. -/
theorem before_iff (hx : (sortValue sc x).isSome = true)
    (hy : (sortValue sc y).isSome = true) :
    sc.before x y = true ↔ WinsBy sc x y := by
  obtain ⟨v, hv⟩ := Option.isSome_iff_exists.1 hx
  obtain ⟨w, hw⟩ := Option.isSome_iff_exists.1 hy
  have hwins : WinsBy sc x y ↔
      if sc.sortType = .desc then v.Larger w else w.Larger v := by
    constructor
    · rintro ⟨v', w', hv', hw', h⟩
      rw [hv] at hv'
      rw [hw] at hw'
      rwa [Option.some.inj hv', Option.some.inj hw']
    · exact fun h => ⟨v, w, hv, hw, h⟩
  rw [hwins, SortCondition.before]
  cases sc.sortType with
  | desc => exact innerGreater_iff hv hw
  | asc => exact innerGreater_iff hw hv

theorem larger_total {v w : SortValue} (hv : sortValue sc x = some v)
    (hw : sortValue sc y = some w) : v = w ∨ v.Larger w ∨ w.Larger v := by
  cases sc with
  | numeric f t =>
      obtain ⟨n, -, rfl⟩ := Option.map_eq_some_iff.1 hv
      obtain ⟨m, -, rfl⟩ := Option.map_eq_some_iff.1 hw
      rcases lt_trichotomy n m with h | h | h
      · exact .inr (.inr h)
      · exact .inl (congrArg _ h)
      · exact .inr (.inl h)
  | string f t =>
      obtain ⟨s, -, rfl⟩ := Option.map_eq_some_iff.1 hv
      obtain ⟨u, -, rfl⟩ := Option.map_eq_some_iff.1 hw
      cases h : compare s u with
      | eq => exact .inl (congrArg _ (Std.LawfulEqOrd.eq_of_compare h))
      | gt => exact .inr (.inl h)
      | lt => exact .inr (.inr (Std.OrientedCmp.gt_of_lt h))

/-- Two documents with the field have the same value, or one of them wins. -/
theorem same_or_wins (hx : (sortValue sc x).isSome = true)
    (hy : (sortValue sc y).isSome = true) :
    SameBy sc x y ∨ WinsBy sc x y ∨ WinsBy sc y x := by
  obtain ⟨v, hv⟩ := Option.isSome_iff_exists.1 hx
  obtain ⟨w, hw⟩ := Option.isSome_iff_exists.1 hy
  have hwins : ∀ {a b : Document} {v w : SortValue}, sortValue sc a = some v →
      sortValue sc b = some w → v.Larger w → WinsBy sc a b ∨ WinsBy sc b a := by
    intro a b v w hv hw hlarger
    by_cases h : sc.sortType = .desc
    · exact .inl ⟨v, w, hv, hw, (if_pos h).mpr hlarger⟩
    · exact .inr ⟨w, v, hw, hv, (if_neg h).mpr hlarger⟩
  rcases larger_total hv hw with rfl | h | h
  · exact .inl (hv.trans hw.symm)
  · exact .inr (hwins hv hw h)
  · exact .inr (hwins hw hv h).symm

end Condition

/-! ## The list of conditions -/

section Conditions

variable {conds rest : List SortCondition} {sc : SortCondition} {x y : Document}

theorem precedes_nil : Precedes [] x y ↔ y.documentId < x.documentId := by
  simp [Precedes]

/-- The first condition decides, or leaves it to the rest. -/
theorem precedes_cons : Precedes (sc :: rest) x y ↔
    WinsBy sc x y ∨ SameBy sc x y ∧ Precedes rest x y := by
  constructor
  · rintro (⟨ties, s, tail, heq, hties, hwins⟩ | ⟨hsame, hid⟩)
    · cases ties with
      | nil =>
          obtain ⟨rfl, rfl⟩ := List.cons.inj heq
          exact .inl hwins
      | cons t ties =>
          obtain ⟨rfl, rfl⟩ := List.cons.inj heq
          obtain ⟨ht, hties⟩ := List.forall_mem_cons.1 hties
          exact .inr ⟨ht, .inl ⟨ties, s, tail, rfl, hties, hwins⟩⟩
    · obtain ⟨hsc, hrest⟩ := List.forall_mem_cons.1 hsame
      exact .inr ⟨hsc, .inr ⟨hrest, hid⟩⟩
  · rintro (hwins | ⟨hsc, ⟨ties, s, tail, rfl, hties, hwins⟩ | ⟨hrest, hid⟩⟩)
    · exact .inl ⟨[], sc, rest, rfl, fun s hs => absurd hs List.not_mem_nil,
        hwins⟩
    · exact .inl ⟨sc :: ties, s, tail, rfl,
        List.forall_mem_cons.2 ⟨hsc, hties⟩, hwins⟩
    · exact .inr ⟨List.forall_mem_cons.2 ⟨hsc, hrest⟩, hid⟩

theorem ascendingTies_cons : AscendingTies (sc :: rest) x y ↔
    (SameBy sc x y → sc.sortType = .asc ∧ AscendingTies rest x y) := by
  constructor
  · intro h hsame
    refine ⟨h [] sc rest rfl (fun s hs => absurd hs List.not_mem_nil) hsame,
      fun ties s tail heq hties hs => ?_⟩
    exact h (sc :: ties) s tail (by rw [heq]; rfl)
      (List.forall_mem_cons.2 ⟨hsame, hties⟩) hs
  · intro h ties s tail heq hties hs
    cases ties with
    | nil =>
        obtain ⟨rfl, rfl⟩ := List.cons.inj heq
        exact (h hs).1
    | cons t ties =>
        obtain ⟨rfl, rfl⟩ := List.cons.inj heq
        obtain ⟨ht, hties⟩ := List.forall_mem_cons.1 hties
        exact (h ht).2 ties s tail rfl hties hs

/-- One of two documents comes first. -/
theorem precedes_total (hx : HasSortFields conds x)
    (hy : HasSortFields conds y) (hne : x.documentId ≠ y.documentId) :
    Precedes conds x y ∨ Precedes conds y x := by
  induction conds with
  | nil =>
      rw [precedes_nil, precedes_nil]
      exact (lt_or_gt_of_ne hne).symm
  | cons sc rest ih =>
      obtain ⟨hx, hxrest⟩ := List.forall_mem_cons.1 hx
      obtain ⟨hy, hyrest⟩ := List.forall_mem_cons.1 hy
      rw [precedes_cons, precedes_cons]
      rcases same_or_wins hx hy with hsame | hwins | hwins
      · exact (ih hxrest hyrest).imp (fun h => .inr ⟨hsame, h⟩)
          (fun h => .inr ⟨hsame.symm, h⟩)
      · exact .inl (.inl hwins)
      · exact .inr (.inl hwins)

/-- A condition that tells two documents apart decides, in either direction. -/
theorem sorterLoop_of_wins (hx : (sortValue sc x).isSome = true)
    (hy : (sortValue sc y).isSome = true)
    (h : WinsBy sc x y ∨ WinsBy sc y x) :
    sorterLoop x y (sc :: rest) = true ↔ WinsBy sc x y := by
  rw [← before_iff hx hy]
  cases ht : sc.sortType with
  | desc => rw [sorterLoop_desc ht]
  | asc =>
      rw [sorterLoop_asc ht, lexLess, Bool.or_eq_true_iff, or_iff_left_iff_imp]
      intro hrest
      obtain ⟨hyx, -⟩ := Bool.and_eq_true_iff.1 hrest
      rw [before_iff hx hy]
      refine h.resolve_right fun hwins => ?_
      rw [(before_iff hy hx).2 hwins] at hyx
      cases hyx

/-- A condition that ties leaves it to the rest if it is ascending, and
otherwise puts neither first. -/
theorem sorterLoop_of_same (hx : (sortValue sc x).isSome = true)
    (hy : (sortValue sc y).isSome = true) (h : SameBy sc x y) :
    sorterLoop x y (sc :: rest) =
      (sc.sortType == .asc && sorterLoop x y rest) := by
  have hxy : sc.before x y = false := Bool.eq_false_iff.2 fun hb =>
    ((before_iff hx hy).1 hb).not_same h
  have hyx : sc.before y x = false := Bool.eq_false_iff.2 fun hb =>
    ((before_iff hy hx).1 hb).not_same h.symm
  cases ht : sc.sortType with
  | desc => exact (sorterLoop_desc ht x y rest).trans hxy
  | asc =>
      rw [sorterLoop_asc ht, lexLess, hxy, hyx]
      rfl

/-- **When the sorter is lexicographic.** On two documents with all fields, the
sorter is the order that the conditions ask for exactly if every condition that
ties before the documents are told apart is ascending. -/
theorem sorter_lexicographic_iff (hx : HasSortFields conds x)
    (hy : HasSortFields conds y) (hne : x.documentId ≠ y.documentId) :
    ((sorter (some conds) x y = true ↔ Precedes conds x y) ∧
        (sorter (some conds) y x = true ↔ Precedes conds y x)) ↔
      AscendingTies conds x y := by
  show ((sorterLoop x y conds = true ↔ _) ∧ (sorterLoop y x conds = true ↔ _)) ↔
    _
  induction conds with
  | nil =>
      refine iff_of_true ⟨?_, ?_⟩ fun ties sc rest heq =>
        absurd heq.symm (by simp)
      · rw [precedes_nil, sorterLoop, decide_eq_true_iff]
      · rw [precedes_nil, sorterLoop, decide_eq_true_iff]
  | cons sc rest ih =>
      have htotal := precedes_total hx hy hne
      obtain ⟨hx, hxrest⟩ := List.forall_mem_cons.1 hx
      obtain ⟨hy, hyrest⟩ := List.forall_mem_cons.1 hy
      rw [ascendingTies_cons]
      by_cases hsame : SameBy sc x y
      · have hsame' : SameBy sc y x := hsame.symm
        rw [sorterLoop_of_same hx hy hsame, sorterLoop_of_same hy hx hsame']
        cases ht : sc.sortType with
        | asc =>
            have hxy : Precedes (sc :: rest) x y ↔ Precedes rest x y :=
              precedes_cons.trans ⟨fun h => (h.resolve_left
                fun hw => hw.not_same hsame).2, fun h => .inr ⟨hsame, h⟩⟩
            have hyx : Precedes (sc :: rest) y x ↔ Precedes rest y x :=
              precedes_cons.trans ⟨fun h => (h.resolve_left
                fun hw => hw.not_same hsame').2, fun h => .inr ⟨hsame', h⟩⟩
            rw [hxy, hyx]
            refine (ih hxrest hyrest).trans ?_
            simp [hsame]
        | desc =>
            -- neither comes first for the sorter, and one of them should
            refine iff_of_false ?_ fun h => absurd (h hsame).1 (by simp)
            rintro ⟨hxy, hyx⟩
            rcases htotal with h | h
            · exact absurd (hxy.2 h) (by simp)
            · exact absurd (hyx.2 h) (by simp)
      · have hwins := (same_or_wins hx hy).resolve_left hsame
        refine iff_of_true ⟨?_, ?_⟩ fun h => absurd h hsame
        · rw [sorterLoop_of_wins hx hy hwins, precedes_cons]
          exact ⟨.inl, fun h => h.resolve_right fun h => hsame h.1⟩
        · rw [sorterLoop_of_wins hy hx hwins.symm, precedes_cons]
          exact ⟨.inl, fun h => h.resolve_right fun h => hsame h.1.symm⟩

end Conditions

/-- A document with two numbers. -/
def pairDocument (documentId : DocumentID) (v w : UInt64) : Document where
  documentId
  fields :=
    [{ fieldId := 1, fieldType := kUint64IndexField, numericValue := v },
      { fieldId := 2, fieldType := kUint64IndexField, numericValue := w }]

/-- Ascending by both fields. -/
theorem sorter_lexicographic_iff_ascending :
    (sorter (some [.numeric 1 .asc, .numeric 2 .asc]) (pairDocument 5 1 2)
      (pairDocument 6 1 3) = true ↔
        Precedes [.numeric 1 .asc, .numeric 2 .asc] (pairDocument 5 1 2)
          (pairDocument 6 1 3)) := by
  refine ((sorter_lexicographic_iff (by simp [HasSortFields]; decide)
    (by simp [HasSortFields]; decide) (by decide)).2 ?_).1
  intro ties sc rest heq _ _
  have hmem : sc ∈ [SortCondition.numeric 1 .asc, .numeric 2 .asc] := by
    rw [heq]
    simp
  simp only [List.mem_cons, List.not_mem_nil, or_false] at hmem
  rcases hmem with rfl | rfl <;> rfl

/-- Descending by field 1, which ties, then by field 2: document 6 has the
larger number there, and the sorter puts neither first. -/
theorem sorter_stops_at_descending :
    Precedes [.numeric 1 .desc, .numeric 2 .desc] (pairDocument 6 1 3)
      (pairDocument 5 1 2) ∧
    sorter (some [.numeric 1 .desc, .numeric 2 .desc]) (pairDocument 6 1 3)
      (pairDocument 5 1 2) = false := by
  refine ⟨.inl ⟨[.numeric 1 .desc], .numeric 2 .desc, [], rfl, ?_, ?_⟩,
    by decide⟩
  · intro s hs
    rw [List.mem_singleton.1 hs]
    rfl
  · exact ⟨.numeric 3, .numeric 2, rfl, rfl,
      (by decide : (2 : UInt64) < 3)⟩

end Wwsearch.Spec
