import Wwsearch.Proofs.TableScan

/-!
# The cursor of a failed scan

`ScanTableData` sets the start key before its last check. The check fails where
a page came to an entry of the table and put none, and that is so exactly where
the first entry fits into the buffer by itself, but not behind the header of a
batch (`scanKeys_stuck`): one that is too big by itself is an error before, and
after the first put the cursor is never empty again.
-/

namespace Wwsearch.Spec

open Wwsearch.Lib Wwsearch.Ref Wwsearch.Ref.Searcher

variable {faults : Faults} {op : DocListMergeOperator} {table : TableID}
  {db : VirtualDB} {column : StorageColumnType} {maxBufferSize : Nat}

/-- After a put the cursor is a key of the table. -/
theorem scanKeys_lastKey_ne (entries : List (Bytes × Bytes)) :
    ∀ (maxLen : Nat) {st : ScanState}, st.lastKey ≠ [] →
    (scanKeys faults column table maxBufferSize entries maxLen st).lastKey ≠
      [] := by
  induction entries with
  | nil => exact fun _ _ h => h
  | cons x entries ih =>
      intro maxLen st h
      rw [scanKeys]
      dsimp only
      split
      · exact h
      · split
        · exact ih maxLen h
        · next hlen =>
            have hkey : x.1 ≠ [] := key_ne_nil hlen
            split
            · exact h
            · split
              · split
                · exact h
                · exact h
              · split
                · exact ih _ hkey
                · exact hkey

/-- What a page makes of the first entry of its table: it is put, or it is too
much for the buffer. -/
theorem scanKeys_stuck_head (x : Bytes × Bytes) (entries : List (Bytes × Bytes))
    {maxLen : Nat} (hlen : maxLen ≠ 0)
    (hlong : ¬ x.1.length < (encodeMetaKey table).length)
    (hpre : (encodeMetaKey table).isPrefixOf x.1 = true) :
    let r := scanKeys faults column table maxBufferSize (x :: entries) maxLen {}
    (r.status.ok = true ∧ r.haveMoreData = true ∧ r.lastKey = []) ↔
      FitsOnlyAlone maxBufferSize x := by
  intro r
  have hr : r = scanKeys faults column table maxBufferSize (x :: entries)
    maxLen {} := rfl
  have hsize : ({} : WriteBuffer).dataSize = 12 := rfl
  rw [scanKeys] at hr
  simp only [if_neg hlen, if_neg hlong, hpre, Bool.not_true, Bool.false_eq_true,
    if_false, hsize] at hr
  rw [FitsOnlyAlone]
  split at hr
  · next hheader =>
      split at hr
      · next hbig =>
          refine iff_of_false (fun h => ?_) fun h => ?_
          · rw [hr] at h
            exact Bool.false_ne_true h.1
          · exact absurd h.1 (Nat.not_le.2 hbig)
      · next hfits =>
          refine iff_of_true ?_ ⟨Nat.not_lt.1 hfits, hheader⟩
          rw [hr]
          exact ⟨rfl, rfl, rfl⟩
  · next hheader =>
      refine iff_of_false (fun h => ?_) fun h => hheader h.2
      split at hr
      · rw [hr] at h
        exact scanKeys_lastKey_ne entries _ (key_ne_nil hlong) h.2.2
      · rw [hr] at h
        exact Bool.false_ne_true h.1

/-- A page that comes to an entry and puts none, and does not say why. -/
theorem scanKeys_stuck (entries : List (Bytes × Bytes)) {maxLen : Nat}
    (hlen : maxLen ≠ 0) :
    let r := scanKeys faults column table maxBufferSize entries maxLen {}
    (r.status.ok = true ∧ r.haveMoreData = true ∧ r.lastKey = []) ↔
      ∃ x, (entries.dropWhile fun x => x.1.length <
          (encodeMetaKey table).length).head?.filter
            (fun x => (encodeMetaKey table).isPrefixOf x.1) = some x ∧
        FitsOnlyAlone maxBufferSize x := by
  induction entries with
  | nil => exact iff_of_false (fun h => Bool.false_ne_true h.2.1) (by simp)
  | cons x entries ih =>
      intro r
      have hr : r = scanKeys faults column table maxBufferSize (x :: entries)
        maxLen {} := rfl
      by_cases hshort : x.1.length < (encodeMetaKey table).length
      · rw [scanKeys, if_neg hlen, if_pos hshort] at hr
        rw [hr, List.dropWhile_cons, if_pos (decide_eq_true hshort)]
        exact ih
      · rw [List.dropWhile_cons, if_neg (by simpa using hshort),
          List.head?_cons, Option.filter_some]
        cases hpre : (encodeMetaKey table).isPrefixOf x.1 with
        | false =>
            rw [scanKeys, if_neg hlen, if_neg hshort, hpre] at hr
            refine iff_of_false (fun h => ?_) (by simp)
            rw [hr] at h
            exact Bool.false_ne_true h.2.1
        | true =>
            refine (scanKeys_stuck_head x entries hlen hshort hpre).trans
              ⟨fun h => ⟨x, rfl, h⟩, ?_⟩
            rintro ⟨y, hy, h⟩
            exact Option.some.inj hy ▸ h

/-- **A failed scan keeps the cursor**, except where it was not empty and the
next entry fits into the buffer by itself only. -/
theorem scan_keeps_cursor_iff (faults : Faults) (op : DocListMergeOperator)
    (table : TableID) (db : VirtualDB) (column : StorageColumnType)
    (startKey : Bytes) (maxLen : Nat) (writeBatch : List Mutation)
    (maxBufferSize : Nat) :
    let r := scanTableData faults op table db column startKey maxLen writeBatch
      maxBufferSize
    (r.status.ok = false → r.startKey = startKey) ↔
      maxLen ≤ 1 ∨ startKey = [] ∨
        ∀ x, nextEntry op table db column startKey = some x →
          ¬ FitsOnlyAlone maxBufferSize x := by
  intro r
  have hr : r = scanTableData faults op table db column startKey maxLen
    writeBatch maxBufferSize := rfl
  rw [scanTableData] at hr
  by_cases hlen : maxLen ≤ 1
  · rw [if_pos hlen] at hr
    rw [hr]
    exact iff_of_true (fun _ => rfl) (.inl hlen)
  · rw [if_neg hlen] at hr
    dsimp only at hr
    have hstuck := @scanKeys_stuck faults table column maxBufferSize
      (scanEntries op db column (encodeMetaKey table) startKey) maxLen
      (by omega)
    dsimp only at hstuck
    generalize scanKeys faults column table maxBufferSize (scanEntries op db
      column (encodeMetaKey table) startKey) maxLen {} = st at hr hstuck
    have hiff : (∀ x, nextEntry op table db column startKey = some x →
        ¬ FitsOnlyAlone maxBufferSize x) ↔
        ¬ (st.status.ok = true ∧ st.haveMoreData = true ∧ st.lastKey = []) := by
      rw [hstuck]
      refine ⟨?_, fun h x hx hfit => h ⟨x, hx, hfit⟩⟩
      rintro h ⟨x, hx, hfit⟩
      exact h x hx hfit
    rw [hiff, or_iff_right hlen]
    split at hr
    · next hok =>
        by_cases hmore : st.haveMoreData = true ∧ st.lastKey = []
        · rw [if_pos hmore, hmore.2] at hr
          rw [hr]
          exact ⟨fun h => .inl (h rfl).symm, fun h _ =>
            (h.resolve_right (not_not_intro ⟨hok, hmore⟩)).symm⟩
        · rw [if_neg hmore] at hr
          rw [hr]
          exact iff_of_true (fun hno => absurd (hok.symm.trans hno) (by decide))
            (.inr fun h => hmore h.2)
    · next hno =>
        rw [hr]
        exact iff_of_true (fun _ => rfl) (.inr fun h => hno h.1)

/-- The second entry of a table with three, asked for with a buffer that has
room for the entry and not for the header: the cursor is gone. -/
theorem cursor_lost_twoNumbers :
    let startKey := encodeSequenceMappingKey ⟨1, 2⟩ [65]
    let r := scanTableData {} millionOperator ⟨1, 2⟩ twoNumbers .metaColumn
      startKey 2 [] 19
    r.status.ok = false ∧ startKey ≠ [] ∧ r.startKey = [] := by
  decide +kernel

end Wwsearch.Spec
