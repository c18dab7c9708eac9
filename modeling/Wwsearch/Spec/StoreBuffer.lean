import Wwsearch.Ref.IndexWriter
import Wwsearch.Ref.TableData
import Wwsearch.Spec.Sequence

/-!
# Calls that leave their batch in a store buffer

A caller who passes a store buffer gets the batch of the call in it and nothing
is flushed. A batch that is already there is continued, so a caller can pass
one buffer to call after call and flush it once. What a call adds is measured
by the same call without a buffer: `FlushesAlone` are the mutations that it
then hands to `FlushBuffer`.
-/

namespace Wwsearch.Spec

open Wwsearch.Lib Wwsearch.Ref

/-- The calls that take a store buffer. -/
inductive BufferedRequest where
  | writeDocuments (mode : DocumentUpdaterType)
      (updaters : List DocumentUpdater)
  | ingestInvertIndex (indices : List InvertIndexItem)
  | acquireNewSequence (sequenceList : List DocumentWriter.AllocSequence)
      (length_lt : sequenceList.length < 2 ^ 64)
  | dropTable

/-- A call on a table, in its environment. -/
structure BufferedCall where
  table : TableID
  faults : Faults := {}
  request : BufferedRequest

/-- What a call leaves behind, and whether it went through. -/
structure BufferedResult where
  db : VirtualDB
  storeBuffer : Option StoreBuffer
  ok : Bool

/-- The mutations that a store buffer holds. -/
def queued (storeBuffer : Option StoreBuffer) : List Mutation :=
  (WriteBuffer.new storeBuffer).mutations

namespace BufferedCall

variable (config : IndexConfig) (op : DocListMergeOperator)

def perform (db : VirtualDB) (storeBuffer : Option StoreBuffer)
    (c : BufferedCall) : BufferedResult :=
  match c.request with
  | .writeDocuments mode updaters =>
      let r := IndexWriter.innerWriteDocuments config c.faults op c.table db
        storeBuffer mode updaters
      { db := r.db, storeBuffer := r.storeBuffer, ok := r.ok }
  | .ingestInvertIndex indices =>
      let r := DocumentWriter.ingestInvertIndex config c.faults c.table db
        storeBuffer indices
      { db := r.db, storeBuffer := r.storeBuffer, ok := r.status.ok }
  | .acquireNewSequence sequenceList _ =>
      let r := DocumentWriter.acquireNewSequence c.faults op c.table db
        storeBuffer sequenceList
      { db := r.db, storeBuffer := r.storeBuffer, ok := r.status.ok }
  | .dropTable =>
      let r := DocumentWriter.dropTable c.faults c.table db storeBuffer
      { db := r.db, storeBuffer := r.storeBuffer, ok := r.status.ok }

/-- The call where reads answer as they do, every append works, and the flush
is up to `flush`. -/
def alone (flush : List Mutation → Option String) (c : BufferedCall) :
    BufferedCall :=
  { c with faults := { read := c.faults.read, flush } }

/-- Without a store buffer the call flushes these mutations: it goes through
whenever a batch of just them is taken. -/
def FlushesAlone (db : VirtualDB) (c : BufferedCall) (ms : List Mutation) :
    Prop :=
  ∀ flush, flush ms = none →
    let r := (c.alone flush).perform config op db none
    r.ok = true ∧ r.db = db.applyAll ms

/-- The call leaves the database alone and puts its mutations behind those in
the store buffer. -/
def Accumulates (db : VirtualDB) (storeBuffer : StoreBuffer)
    (c : BufferedCall) : Prop :=
  let r := c.perform config op db (some storeBuffer)
  r.db = db ∧ r.storeBuffer.isSome = true ∧
    ∃ ms, c.FlushesAlone config op db ms ∧
      queued r.storeBuffer = queued (some storeBuffer) ++ ms

/-- A call of the allocator has a number to give or nothing to lose: some item
comes in as not found or has a user without a number, or the store buffer holds
no mutation. -/
def HasNewOrEmpty (db : VirtualDB) (storeBuffer : Option StoreBuffer)
    (c : BufferedCall) : Prop :=
  match c.request with
  | .acquireNewSequence sequenceList _ =>
      (∃ item ∈ sequenceList, item.status.documentNotExist = true ∨
        storedNumber op c.table db item.userId = none) ∨
        queued storeBuffer = []
  | .writeDocuments _ _ | .ingestInvertIndex _ | .dropTable => True

/-! ## One buffer for many calls -/

/-- The store buffer after calls on these databases. -/
def chain (storeBuffer : Option StoreBuffer)
    (calls : List (VirtualDB × BufferedCall)) : Option StoreBuffer :=
  calls.foldl (fun sb c => (c.2.perform config op c.1 sb).storeBuffer)
    storeBuffer

/-- Every call of the chain goes through and meets the condition. -/
def ChainMeets : Option StoreBuffer → List (VirtualDB × BufferedCall) → Prop
  | _, [] => True
  | sb, c :: rest =>
      (c.2.perform config op c.1 sb).ok = true ∧
        c.2.HasNewOrEmpty op c.1 sb ∧
        ChainMeets (c.2.perform config op c.1 sb).storeBuffer rest

end BufferedCall

end Wwsearch.Spec
