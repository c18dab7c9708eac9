import Wwsearch.Lib.SilentSteps
import Wwsearch.Spec.History
import Wwsearch.Spec.Merge

/-!
# A database whose storage engine compacts

The storage engine merges operands whenever it likes: neighbouring ones into
one operand, or the oldest ones into the value below them. It does so in the
one column that has the merge operator, and nobody who writes or reads is asked.
`Compacted` are the databases that a run of operations can leave then.
-/

namespace Wwsearch.Spec

open Wwsearch.Lib Wwsearch.Ref

/-- The operator with what other merges have left in its heap. -/
def withHeap (op : DocListMergeOperator) (heap : Array HeapItem)
    (hsize : heap.size = mergeOperatorHeapSize) : DocListMergeOperator :=
  { op with heap, heap_size := hsize }

/-- A merge in one cell. -/
inductive Compacts (op : DocListMergeOperator) : Cell → Cell → Prop
  | partialMerge {base : Option Bytes} {before segment after : List Bytes}
      {value : Bytes} (heap : Array HeapItem)
      (hsize : heap.size = mergeOperatorHeapSize) (hne : segment ≠ [])
      (h : mergeValue ((withHeap op heap hsize).partialMergeMulti segment) =
        some value) :
      Compacts op ⟨base, before ++ (segment ++ after)⟩
        ⟨base, before ++ value :: after⟩
  | fullMerge {base : Option Bytes} {segment after : List Bytes}
      {value : Bytes} (heap : Array HeapItem)
      (hsize : heap.size = mergeOperatorHeapSize) (hne : segment ≠ [])
      (h : mergeValue ((withHeap op heap hsize).fullMergeV2 base segment) =
        some value) :
      Compacts op ⟨base, segment ++ after⟩ ⟨some value, after⟩

/-- The column of lists with another cell at a key. -/
def setCell (db : VirtualDB) (key : Bytes) (cell : Cell) : VirtualDB :=
  fun c => if c = .invertedIndexColumn then (db c).insert key cell else db c

/-- One merge somewhere in the database. -/
inductive Compaction (op : DocListMergeOperator) (db : VirtualDB) :
    VirtualDB → Prop
  | merge {key : Bytes} {cell cell' : Cell}
      (hcell : (db .invertedIndexColumn)[key]? = some cell)
      (h : Compacts op cell cell') : Compaction op db (setCell db key cell')

section Runs

variable (config : IndexConfig) (op : DocListMergeOperator)

/-- What a run of operations on an empty database can leave, with any merges in
between. -/
abbrev Compacted : List TableOperation → VirtualDB → Prop :=
  Interleaved (TableOperation.perform config op) (Compaction op) .empty

/-- The ids that the operands of a cell have records of. -/
def recordedIds (cell : Option Cell) : Finset DocumentID :=
  mentioned ((cell.getD {}).operands.map fun value =>
    (docListOf value).getD [])

/-- No list of the table has records of more ids than that. -/
def ListsWithin (n : Nat) (table : TableID) (db : VirtualDB) : Prop :=
  ∀ key, encodeMetaKey table <+: key →
    (recordedIds (db .invertedIndexColumn)[key]?).card ≤ n

/-- Without any merges the lists of the table would stay within the bound at
every moment of the run. -/
def StaysWithin (n : Nat) (table : TableID) (run : List TableOperation) :
    Prop :=
  Throughout (TableOperation.perform config op) (ListsWithin n table) .empty
    run

end Runs

/-- Two databases that hold the same of the table, but in the column of lists,
where they read the same. -/
structure SameButLists (op : DocListMergeOperator) (table : TableID)
    (db db' : VirtualDB) : Prop where
  reads : SameReads op table db db'
  records : ∀ column ≠ .invertedIndexColumn, ∀ key,
    encodeMetaKey table <+: key → (db' column)[key]? = (db column)[key]?

/-- An operation on the table ingests no list that is longer, and none with the
id zero, and it goes on from a cursor of its own table. -/
def WellBehaved (n : Nat) (table : TableID) (o : TableOperation) : Prop :=
  o.table = table →
    match o.operation with
    | .ingestInvertIndex _ _ indices =>
        ∀ item ∈ indices, item.docList.length ≤ n ∧ 0 ∉ item.docList
    | .deleteTableData _ _ startKey _ => CursorOf table startKey
    | .writeDocuments _ | .acquireCurrentSequence _ _ _
    | .acquireNewSequence _ | .dropTable _ _ => True

end Wwsearch.Spec
