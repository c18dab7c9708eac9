import Wwsearch.Proofs.InvertedColumn
import Wwsearch.Proofs.SameReads
import Wwsearch.Spec.Migration

/-!
# A table that was moved answers as before

The batches of a loop are the puts of what an iterator shows of the table
(`scan_from`), and where every key has a value it shows all of them
(`mem_tableEntries`). So a replay leaves the values of the source under the keys
of the table (`sameReads_replay`), and that is all that reading depends on
(`SameReads.answersAlike`). It does not leave the same cells: a list that was
merged from operands arrives as one put.
-/

namespace Wwsearch.Spec

open Wwsearch.Lib Wwsearch.Ref

variable {config : IndexConfig} {op : DocListMergeOperator} {table : TableID}
  {db db' : VirtualDB}

theorem mem_columns (column : StorageColumnType) : column ∈ columns := by
  cases column <;> decide

/-- Document 7 after its update. -/
def sevenTable : VirtualDB :=
  runCalls spaceConfig millionOperator ⟨1, 2⟩ .empty [addSeven, updateSeven]

theorem mergeable_sevenTable (column : StorageColumnType) :
    Mergeable millionOperator ⟨1, 2⟩ sevenTable column := by
  have hall : ∀ c ∈ columns, (sevenTable c).toList.all (fun x =>
      (VirtualDB.cellValue millionOperator x.2).isSome) = true := by
    decide +kernel
  intro key _ hne
  obtain ⟨cell, hcell⟩ := Option.ne_none_iff_exists'.1 hne
  rw [VirtualDB.get, hcell]
  exact List.all_eq_true.1 (hall column (mem_columns column)) (key, cell)
    (Std.ExtTreeMap.mem_toList_iff_getElem?_eq_some.2 hcell)

end Wwsearch.Spec
