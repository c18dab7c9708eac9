import Wwsearch.Ref.Mock
import Wwsearch.Ref.Storage
import Wwsearch.Spec.Merge

/-!
# What the store in memory is measured by

Two measures. The doc lists that it keeps are those of RocksDB, where one
operator merges all the operands of a key at once; here the operands come in
groups, each merged in a write buffer of its own and then into the database.
And a write buffer is the bytes it gives out: what is rebuilt from them is
flushed to the same effect.
-/

namespace Wwsearch.Spec

open Wwsearch.Lib Wwsearch.Ref

/-! ## Runs of a write buffer -/

/-- `Put`, `Delete`, `DeleteRange` and `Merge`. -/
def bufferCall (type : DocListCompressionType) (b : WriteBufferMock) :
    Mutation → Option WriteBufferMock
  | .put column key value => some (b.put column key value)
  | .delete column key => some (b.delete column key)
  | .deleteRange column beginKey endKey =>
      some (b.deleteRange column beginKey endKey)
  | .merge column key value => b.merge type column key value

/-- Calls on a new write buffer, one after the other. -/
def bufferCalls (type : DocListCompressionType) (calls : List Mutation) :
    Option WriteBufferMock :=
  calls.foldlM (bufferCall type) {}

/-- The buffer has bytes to give out. -/
def Serialized (pb : MockPb) (b : WriteBufferMock) : Prop :=
  (b.seriableData pb).2.ok = true

/-! ## Operands in groups -/

/-- One write buffer takes a group of operands of one inverted key. -/
def groupCalls (key : Bytes) (group : List Bytes) : List Mutation :=
  group.map (.merge .invertedIndexColumn key)

/-- Group after group is merged in a new write buffer and flushed. -/
def flushGroups (pb : MockPb) (type : DocListCompressionType) (key : Bytes)
    (db : VirtualDBMock) (groups : List (List Bytes)) :
    Option VirtualDBMock :=
  groups.foldlM (fun db group => do
    let b ← bufferCalls type (groupCalls key group)
    let (db, _) ← db.flushBuffer pb type b
    some db) db

/-! ## The bytes of a buffer -/

/-- The records that a loop over the value goes through. -/
def recordsOf (data : Bytes) : Option (List DocList) :=
  (newDocListReaderCodec data (-1)).map (·.remaining)

/-- Each record as a list of its own: the last one to mention an id decides. -/
def oneByOne (docs : List DocList) : List (List DocList) := docs.map ([·])

/-- The live part of the merged map. -/
def liveMerged (lists : List (List DocList)) : List DocList :=
  (merged lists).filter (fun doc => doc.docState ≠ kDocumentStateDelete)

/-- The value is itself the encoding of what is live in the old value and in
it. -/
def Absorbs (type : DocListCompressionType) (old value : Bytes) : Prop :=
  ∃ oldDocs docs, recordsOf old = some oldDocs ∧ recordsOf value = some docs ∧
    writeDocList type (liveMerged (oneByOne (oldDocs ++ docs))) =
      some (true, value)

/-- The value of a key with the buffer's own values over the database's. -/
def heldAt (db : VirtualDBMock) (b : WriteBufferMock)
    (column : StorageColumnType) (key : Bytes) : Option Bytes :=
  (((b.cfKvList column)[key]?).map (·.1)).or (db column)[key]?

/-- Nothing is lost with the kinds of the entries and the ends of the ranges:
no key is deleted, a value is merged only into one that it absorbs, and a range
is empty and begins at a key that holds nothing but the empty value. -/
structure OnlyPuts (type : DocListCompressionType) (db : VirtualDBMock)
    (b : WriteBufferMock) : Prop where
  noDelete : ∀ (column : StorageColumnType) (key value : Bytes),
    (b.cfKvList column)[key]? ≠ some (value, .kDelete)
  merges : ∀ (column : StorageColumnType) (key value old : Bytes),
    (b.cfKvList column)[key]? = some (value, .kMerge) →
    (db column)[key]? = some old → Absorbs type old value
  ranges : ∀ (column : StorageColumnType) (range : Bytes × Bytes),
    range ∈ b.cfDeleteKeyrangeList column →
    compare range.1 range.2 ≠ .lt ∧ heldAt db b column range.1 = some []

/-- The buffer rebuilt from the bytes is flushed to the same effect. -/
def Survives (pb : MockPb) (type : DocListCompressionType)
    (db : VirtualDBMock) (b : WriteBufferMock) : Prop :=
  db.flushBuffer pb type
      (VirtualDBMock.newWriteBuffer pb (some (b.getData pb))) =
    db.flushBuffer pb type b

end Wwsearch.Spec
