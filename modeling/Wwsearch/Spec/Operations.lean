import Wwsearch.Ref.TableData
import Wwsearch.Spec.Concurrency
import Wwsearch.Spec.Sequence

/-!
# Runs of operations on any tables

Everything the library does to a database is an operation on one table. A run
is a list of them, each with its table; what a client keeps from one call for
the next (updaters, items, a cursor, a store buffer) is in the operation, and
may be anything.
-/

namespace Wwsearch.Spec

open Wwsearch.Lib Wwsearch.Ref

inductive Operation where
  | writeDocuments (c : BatchCall)
  | ingestInvertIndex (faults : Faults) (storeBuffer : Option StoreBuffer)
      (indices : List InvertIndexItem)
  | acquireCurrentSequence (faults : Faults) (currentMax : UInt64)
      (sequenceList : List DocumentWriter.AllocSequence)
  | acquireNewSequence (c : SequenceCall)
  | dropTable (faults : Faults) (storeBuffer : Option StoreBuffer)
  | deleteTableData (faults : Faults) (column : StorageColumnType)
      (startKey : Bytes) (maxLen : Nat)

structure TableOperation where
  table : TableID
  operation : Operation

namespace TableOperation

variable (config : IndexConfig) (op : DocListMergeOperator)

/-- The database after the operation. -/
def perform (db : VirtualDB) (o : TableOperation) : VirtualDB :=
  match o.operation with
  | .writeDocuments c => (c.perform config op o.table db).db
  | .ingestInvertIndex faults storeBuffer indices =>
      (DocumentWriter.ingestInvertIndex config faults o.table db storeBuffer
        indices).db
  | .acquireCurrentSequence _ _ _ => db
  | .acquireNewSequence c => (c.perform op o.table db).db
  | .dropTable faults storeBuffer =>
      (DocumentWriter.dropTable faults o.table db storeBuffer).db
  | .deleteTableData faults column startKey maxLen =>
      (IndexWriter.deleteTableData faults op o.table db column startKey
        maxLen).db

/-- The database after a run. -/
def runAll (db : VirtualDB) (run : List TableOperation) : VirtualDB :=
  run.foldl (perform config op) db

/-- The users of the table that the operation stores a number for. -/
def allocated (table : TableID) (db : VirtualDB) (o : TableOperation) :
    List Bytes :=
  match o.operation with
  | .acquireNewSequence c =>
      if o.table = table then c.allocated op table db else []
  | .writeDocuments _ | .ingestInvertIndex _ _ _
  | .acquireCurrentSequence _ _ _ | .dropTable _ _
  | .deleteTableData _ _ _ _ => []

/-- The users of the table that a run stores a number for, in their order. -/
def allocatedAll (table : TableID) :
    VirtualDB → List TableOperation → List Bytes
  | _, [] => []
  | db, o :: run =>
      allocated op table db o ++
        allocatedAll table (perform config op db o) run

/-- Every call of the allocator on the table asks once. -/
def AsksOnceAll (table : TableID) : VirtualDB → List TableOperation → Prop
  | _, [] => True
  | db, o :: run =>
      (∀ c, o = ⟨table, .acquireNewSequence c⟩ →
        AsksOnce op table db c.sequenceList) ∧
      AsksOnceAll table (perform config op db o) run

/-- The operation deletes page by page. -/
def IsDelete (o : TableOperation) : Prop :=
  ∃ faults column startKey maxLen,
    o.operation = .deleteTableData faults column startKey maxLen

end TableOperation

end Wwsearch.Spec
