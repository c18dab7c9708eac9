import Wwsearch.Spec.Keys

/-!
# Keys and cells

Two keys of one table are equal only when what they were made from is, as long
as a term is short enough for its length not to be cut. And a batch acts on
each key by itself: the cell of a key after a batch is the result of the
mutations that touch this key, in their order (`applyAll_getElem?`).
-/

namespace Wwsearch.Ref

open Wwsearch.Lib

/-! ## Keys -/

theorem encodeStoredFieldKey_inj {table : TableID} {d d' : DocumentID}
    (h : encodeStoredFieldKey table d = encodeStoredFieldKey table d') :
    d = d' := by
  have hword := List.reverse_inj.1 (List.append_cancel_left h)
  exact UInt64.toNat_inj.1 (Word.toLE_inj (d.toNat_lt.trans_le (by decide))
    (d'.toNat_lt.trans_le (by decide)) hword)

theorem encodeInvertedKey_eq {table : TableID} {f : FieldID} {t : Bytes}
    (ht : t.length < 2 ^ 32) :
    encodeInvertedKey table f t = encodeMetaKey table ++ f :: t := by
  have htake : t.take t.length.toUInt32.toNat = t := by
    rw [Nat.toUInt32, UInt32.toNat_ofNat_of_lt' ht, List.take_length]
  rw [encodeInvertedKey, appendBuffer, htake, appendFixed8,
    List.append_assoc]
  rfl

theorem encodeInvertedKey_inj {table : TableID} {f f' : FieldID} {t t' : Bytes}
    (ht : t.length < 2 ^ 32) (ht' : t'.length < 2 ^ 32)
    (h : encodeInvertedKey table f t = encodeInvertedKey table f' t') :
    f = f' ∧ t = t' := by
  rw [encodeInvertedKey_eq ht, encodeInvertedKey_eq ht'] at h
  exact List.cons.inj (List.append_cancel_left h)

/-! ## Cells -/

namespace Mutation

/-- What it makes of the key's cell. -/
def applyCell (cell : Option Cell) : Mutation → Option Cell
  | .put _ _ value => some { base := some value }
  | .delete _ _ | .deleteRange _ _ _ => none
  | .merge _ _ value =>
      let cell := cell.getD {}
      some { cell with operands := cell.operands ++ [value] }

theorem apply_getElem? (db : VirtualDB) (m : Mutation) (c : StorageColumnType)
    (key : Bytes) : (apply db m c)[key]? =
      if m.touches c key then m.applyCell (db c)[key]? else (db c)[key]? := by
  by_cases hc : m.column = c
  · subst hc
    rw [apply, if_pos rfl]
    cases m with
    | put c k v =>
        simp only [applyColumn, column, Std.ExtTreeMap.getElem?_insert, touches,
          applyCell, Std.compare_eq_iff_eq]
        simp
    | delete c k =>
        simp only [applyColumn, column, Std.ExtTreeMap.getElem?_erase, touches,
          applyCell, Std.compare_eq_iff_eq]
        simp
    | deleteRange c b e =>
        simp only [applyColumn, column, Std.ExtTreeMap.getElem?_filter', touches,
          applyCell, decide_true, Bool.true_and]
        by_cases hr : (compare b key != .gt && compare key e == .lt) = true
        · rw [if_pos hr, hr]
          exact Option.filter_eq_none_iff.2 fun _ _ h => Bool.false_ne_true h
        · rw [if_neg hr, Bool.eq_false_iff.2 hr]
          cases (db c)[key]? <;> rfl
    | merge c k v =>
        simp only [applyColumn, column, Std.ExtTreeMap.getElem?_insert, touches,
          applyCell, Std.compare_eq_iff_eq, decide_true, Bool.true_and,
          decide_eq_true_eq]
        by_cases hk : k = key
        · rw [if_pos hk, if_pos hk, hk]
        · rw [if_neg hk, if_neg hk]
  · have htouch : m.touches c key = false := by
      simp only [touches, decide_eq_false hc, Bool.false_and]
    rw [apply, if_neg fun h => hc h.symm, htouch]
    rfl

end Mutation

/-- After a batch a cell is what the mutations that touch it made of it. -/
theorem applyAll_getElem? (db : VirtualDB) (ms : List Mutation)
    (c : StorageColumnType) (key : Bytes) : (db.applyAll ms c)[key]? =
      (ms.filter (·.touches c key)).foldl Mutation.applyCell (db c)[key]? := by
  induction ms generalizing db with
  | nil => rfl
  | cons m ms ih =>
      rw [VirtualDB.applyAll, List.foldl_cons]
      refine (ih (m.apply db)).trans ?_
      rw [Mutation.apply_getElem?, List.filter_cons]
      split
      · rfl
      · rfl

theorem applyAll_getElem?_of_untouched {db : VirtualDB} {ms : List Mutation}
    {c : StorageColumnType} {key : Bytes}
    (h : ∀ m ∈ ms, m.touches c key = false) :
    (db.applyAll ms c)[key]? = (db c)[key]? := by
  rw [applyAll_getElem?,
    List.filter_eq_nil_iff.2 fun m hm => by rw [h m hm]; decide]
  rfl

theorem applyAll_append (db : VirtualDB) (ms ms' : List Mutation) :
    db.applyAll (ms ++ ms') = (db.applyAll ms).applyAll ms' :=
  List.foldl_append

end Wwsearch.Ref
