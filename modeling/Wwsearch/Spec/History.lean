import Wwsearch.Lib.Noninterference
import Wwsearch.Spec.Operations
import Wwsearch.Spec.Tables

/-!
# The clients of a database

Clients write and read, each call on one table. `Action` has all that a client
can do, and `Answer` all that it is told: what a call returns and leaves in its
arguments, the database apart. A status that a prefix leaf has come to its
limit is not counted as an answer, since it depends on whether any table has a
key behind the leaf.
-/

namespace Wwsearch.Spec

open Wwsearch.Lib Wwsearch.Ref

section Actions

variable (σ : Type) [LT σ] [DecidableLT σ]

/-- A call on a table. -/
inductive Action where
  | operate (operation : Operation)
  | getFields (faults : Faults) (mode : EncodeTarget)
      (documents : List Document)
  | scanTableData (faults : Faults) (column : StorageColumnType)
      (startKey : Bytes) (maxLen : Nat) (writeBatch : List Mutation)
      (maxBufferSize : Nat)
  | doQuery (faults : Faults) (fuel : Nat) (a : Searcher.QueryArgs σ)
      (queues : CollectorQueues σ a.sorter) (offset limit : UInt64)

structure TableAction where
  table : TableID
  action : Action σ

end Actions

inductive Answer where
  | documents (r : Returned)
  | batch (storeBuffer : Option StoreBuffer) (status : SearchStatus)
  | current (r : DocumentWriter.CurrentSequence)
  | sequence (storeBuffer : Option StoreBuffer) (status : SearchStatus)
      (sequenceList : List DocumentWriter.AllocSequence)
  | deleted (startKey : Bytes) (status : SearchStatus)
  | fields (rows : List (SearchStatus × Document))
  | scanned (r : Searcher.ScanResult)
  | found (r : Option Searcher.QueryResult)

def answerOfBatch (r : DocumentWriter.BatchResult) : Answer :=
  .batch r.storeBuffer r.status

/-- What is told of a query. -/
def asideResult (r : Searcher.QueryResult) : Searcher.QueryResult :=
  { r with status := asideLimit r.status }

section Machine

variable (config : IndexConfig) (op : DocListMergeOperator)

def Operation.answer (db : VirtualDB) (table : TableID) : Operation → Answer
  | .writeDocuments c => .documents (returned (c.perform config op table db))
  | .ingestInvertIndex faults storeBuffer indices =>
      answerOfBatch (DocumentWriter.ingestInvertIndex config faults table db
        storeBuffer indices)
  | .acquireCurrentSequence faults currentMax sequenceList =>
      .current (DocumentWriter.acquireCurrentSequence faults op table db
        currentMax sequenceList)
  | .acquireNewSequence c =>
      let r := c.perform op table db
      .sequence r.storeBuffer r.status r.sequenceList
  | .dropTable faults storeBuffer =>
      answerOfBatch (DocumentWriter.dropTable faults table db storeBuffer)
  | .deleteTableData faults column startKey maxLen =>
      let r := IndexWriter.deleteTableData faults op table db column startKey
        maxLen
      .deleted r.startKey r.status

variable (σ : Type) [LT σ] [DecidableLT σ] [Zero σ] [Add σ]

/-- The database as a machine with the tables as its domains. -/
def clients : DomainMachine VirtualDB (TableAction σ) Answer TableID where
  domain a := a.table
  step db a :=
    match a.action with
    | .operate operation =>
        TableOperation.perform config op db ⟨a.table, operation⟩
    | .getFields _ _ _ | .scanTableData _ _ _ _ _ _ | .doQuery _ _ _ _ _ _ =>
        db
  output db a :=
    match a.action with
    | .operate operation => operation.answer config op db a.table
    | .getFields faults mode documents =>
        .fields (documents.map
          (Searcher.innerGetField config faults op a.table db mode))
    | .scanTableData faults column startKey maxLen writeBatch maxBufferSize =>
        .scanned (Searcher.scanTableData faults op a.table db column startKey
          maxLen writeBatch maxBufferSize)
    | .doQuery faults fuel args queues offset limit =>
        .found ((Searcher.doQuery fuel (tableContext config faults op a.table
          db) args queues offset limit []).map asideResult)

end Machine

/-- A cursor of the table: an empty one, or a key of the table. -/
def CursorOf (table : TableID) (startKey : Bytes) : Prop :=
  startKey = [] ∨ encodeMetaKey table <+: startKey

/-- The client goes on from a cursor of its own table. -/
def OwnCursor {σ : Type} [LT σ] [DecidableLT σ] (a : TableAction σ) : Prop :=
  match a.action with
  | .operate (.deleteTableData _ _ startKey _)
  | .scanTableData _ _ startKey _ _ _ => CursorOf a.table startKey
  | .operate (.writeDocuments _) | .operate (.ingestInvertIndex _ _ _)
  | .operate (.acquireCurrentSequence _ _ _)
  | .operate (.acquireNewSequence _) | .operate (.dropTable _ _)
  | .getFields _ _ _ | .doQuery _ _ _ _ _ _ => True

end Wwsearch.Spec
