import Wwsearch.Spec.Tables

/-!
# Moving a table

`ScanTableData` is there to move a table: a loop of calls over each column of
one state of the database, and the batches of all calls replayed somewhere
else. `AnswersAlike` says what a table that was moved is good for. Where it
came from it is taken away with loops of `DeleteTableData`, one for each column
and one after the other (`DeletesColumns`).
-/

namespace Wwsearch.Spec

open Wwsearch.Lib Wwsearch.Ref

def columns : List StorageColumnType :=
  [.storedFieldColumn, .invertedIndexColumn, .docValueColumn, .metaColumn,
    .dictionaryColumn, .paxosLogColumn, .paxosDataMetaColumn,
    .paxosLogMetaColumn]

section Export

variable (op : DocListMergeOperator) (table : TableID) (db : VirtualDB)
  (calls : StorageColumnType → Nat → ScanCall)

end Export

/-- The loops over some columns, from one database to another. Each goes on
from its cursor until there is none. -/
inductive DeletesColumns (op : DocListMergeOperator) (table : TableID)
    (calls : StorageColumnType → Nat → DeleteCall) :
    List StorageColumnType → VirtualDB → VirtualDB → Prop
  | nil {db : VirtualDB} : DeletesColumns op table calls [] db db
  | loop {column : StorageColumnType} {cs : List StorageColumnType}
      {db db' : VirtualDB} (k : Nat)
      (hrun : ∀ m < k,
        (deleteState op table column db (calls column) (m + 1)).2 ≠ [])
      (hend : (deleteState op table column db (calls column) (k + 1)).2 = [])
      (hrest : DeletesColumns op table calls cs
        (deleteState op table column db (calls column) (k + 1)).1 db') :
      DeletesColumns op table calls (column :: cs) db db'

end Wwsearch.Spec
