import Wwsearch.Lib.KeyOrder
import Wwsearch.Ref.Query
import Wwsearch.Spec.Columns

/-!
# What a scan of a prefix sees

An iterator that is put on a key with some prefix shows first the keys with
the prefix, so a loop that stops at the first other key depends on those alone
(`seek_takeWhile`).
-/

namespace Wwsearch.Ref

open Wwsearch.Lib

theorem mem_prefixEntries {col : Column} {p key : Bytes} {cell : Cell} :
    (key, cell) ∈ prefixEntries col p ↔
      p <+: key ∧ col[key]? = some cell := by
  rw [prefixEntries, List.mem_filter, List.isPrefixOf_iff_prefix,
    Std.ExtTreeMap.mem_toList_iff_getElem?_eq_some, and_comm]

theorem sorted_toList (col : Column) :
    col.toList.Pairwise fun x y => compare x.1 y.1 = .lt :=
  Std.ExtTreeMap.ordered_keys_toList

theorem takeWhile_readableEntries (op : DocListMergeOperator)
    (q : Bytes → Bool) (l : List (Bytes × Cell)) :
    (readableEntries op l).takeWhile (fun x => q x.1) =
      readableEntries op (l.takeWhile fun x => q x.1) := by
  induction l with
  | nil => rfl
  | cons x l ih =>
      obtain ⟨key, cell⟩ := x
      rw [List.takeWhile_cons]
      cases hq : q key with
      | true =>
          simp only [readableEntries, if_true]
          split
          · simp only [List.takeWhile_cons, hq, if_true, ih]
          · rfl
      | false =>
          simp only [readableEntries]
          split
          · simp [hq, readableEntries]
          · rfl

/-- From a key with the prefix on, the keys with the prefix come first. -/
theorem seek_takeWhile (op : DocListMergeOperator) (db : VirtualDB)
    (column : StorageColumnType) {p start : Bytes} (hp : p <+: start) :
    (db.seek op column start).takeWhile (fun x => p.isPrefixOf x.1) =
      readableEntries op ((prefixEntries (db column) p).filter fun x =>
        compare start x.1 != .gt) := by
  have hle : ∀ key, compare start key ≠ .gt → compare p key ≠ .gt := by
    obtain ⟨r, rfl⟩ := hp
    intro key hkey
    exact Ordering.isLE_iff_ne_gt.1 (Std.TransOrd.isLE_trans
      (Ordering.isLE_iff_ne_gt.2 (KeyOrder.compare_prefix_ne_gt p r))
      (Ordering.isLE_iff_ne_gt.2 hkey))
  rw [VirtualDB.seek, takeWhile_readableEntries,
    KeyOrder.takeWhile_prefix ((sorted_toList _).filter _), prefixEntries,
    List.filter_filter, List.filter_filter]
  · refine congrArg _ (List.filter_congr fun x _ => ?_)
    exact Bool.and_comm _ _
  · intro x hx
    exact hle _ (by simpa using (List.mem_filter.1 hx).2)

theorem prefixEntries_from (col : Column) (p : Bytes) :
    (prefixEntries col p).filter (fun x => compare p x.1 != .gt) =
      prefixEntries col p := by
  rw [List.filter_eq_self]
  intro x hx
  obtain ⟨r, hr⟩ := (mem_prefixEntries.1 hx).1
  rw [← hr]
  simpa using KeyOrder.compare_prefix_ne_gt p r

/-- A scan from the prefix itself sees all of its keys. -/
theorem seek_prefix_eq (op : DocListMergeOperator) (db : VirtualDB)
    (column : StorageColumnType) (p : Bytes) :
    (db.seek op column p).takeWhile (fun x => p.isPrefixOf x.1) =
      readableEntries op (prefixEntries (db column) p) := by
  rw [seek_takeWhile op db column (List.prefix_refl p), prefixEntries_from]

end Wwsearch.Ref
