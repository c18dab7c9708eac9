import Std.Data.ExtTreeMap.Lemmas
import Wwsearch.Ref.Merge

/-!
# The key-value store and its write batches (`virtual_db_rocks.cpp`,
`write_buffer_rocks.cpp`)

RocksDB is vendored under `deps` and too large to embed. What is modelled of it
is what the sources rely on: a column is a map from keys to values in byte
order, a key of the inverted column collects merge operands and is read through
the merge operator, and a write batch is a list of mutations that takes effect
as a whole or not at all. A batch refuses a key or a value of `2 ^ 32` bytes or
more, because it writes their lengths as 32-bit varints.

Everything else that can go wrong is a choice of the environment: `Faults`
says which reads fail, which mutations a batch refuses and which flushes fail,
each with the message that RocksDB gave.
-/

namespace Wwsearch.Ref

open Wwsearch.Lib

/-- What a key holds: a value and the merge operands written over it. -/
structure Cell where
  base : Option Bytes := none
  operands : List Bytes := []
  deriving DecidableEq, Repr, Inhabited

abbrev Column := Std.ExtTreeMap Bytes Cell

abbrev VirtualDB := StorageColumnType → Column

namespace VirtualDB

def empty : VirtualDB := fun _ => ∅

/-- What a read of the cell returns. There is nothing to return for operands
that the merge operator does not get through. -/
def cellValue (op : DocListMergeOperator) (cell : Cell) : Option Bytes :=
  match cell.operands with
  | [] => cell.base
  | operands => mergeValue (op.fullMergeV2 cell.base operands)

def get (op : DocListMergeOperator) (db : VirtualDB)
    (column : StorageColumnType) (key : Bytes) : Option Bytes :=
  (db column)[key]?.bind (cellValue op)

end VirtualDB

/-! ## Write batches -/

inductive Mutation where
  | put (column : StorageColumnType) (key value : Bytes)
  | delete (column : StorageColumnType) (key : Bytes)
  | deleteRange (column : StorageColumnType) (beginKey endKey : Bytes)
  | merge (column : StorageColumnType) (key value : Bytes)
  deriving DecidableEq, Repr

namespace Mutation

/-- The effect on one column: a range is half open. -/
def applyColumn (col : Column) : Mutation → Column
  | .put _ key value => col.insert key { base := some value }
  | .delete _ key => col.erase key
  | .deleteRange _ beginKey endKey => col.filter fun key _ =>
      !(compare beginKey key != .gt && compare key endKey == .lt)
  | .merge _ key value =>
      let cell := (col[key]?).getD {}
      col.insert key { cell with operands := cell.operands ++ [value] }

def column : Mutation → StorageColumnType
  | .put c _ _ | .delete c _ | .deleteRange c _ _ | .merge c _ _ => c

def apply (db : VirtualDB) (m : Mutation) : VirtualDB :=
  fun c => if c = m.column then m.applyColumn (db c) else db c

/-- The bytes of a length-prefixed string in a batch. -/
def stringSize (s : Bytes) : Nat := (Varint.encode 4 s.length).length + s.length

/-- The bytes of a record: its tag, the column family unless it is the default
one, and its strings. -/
def size (m : Mutation) : Nat :=
  let tag := if m.column = .storedFieldColumn then 1
    else 1 + (Varint.encode 4 m.column.toNat).length
  match m with
  | .put _ key value | .merge _ key value =>
      tag + stringSize key + stringSize value
  | .delete _ key => tag + stringSize key
  | .deleteRange _ beginKey endKey =>
      tag + stringSize beginKey + stringSize endKey

/-- The check of `WriteBatch::Put` and `WriteBatch::Merge`. -/
def tooLarge : Mutation → Option String
  | .put _ key value | .merge _ key value =>
      if 2 ^ 32 ≤ key.length then some "key is too large"
      else if 2 ^ 32 ≤ value.length then some "value is too large"
      else none
  | .delete _ _ | .deleteRange _ _ _ => none

end Mutation

/-- What the environment does to one call. -/
structure Faults where
  read : StorageColumnType → Bytes → Option String := fun _ _ => none
  append : List Mutation → Mutation → Option String := fun _ _ => none
  flush : List Mutation → Option String := fun _ => none

/-- What `*store_buffer` holds: an empty string, or the bytes of a batch. -/
inductive StoreBuffer where
  | empty
  | batch (mutations : List Mutation)
  deriving DecidableEq, Repr

structure WriteBuffer where
  mutations : List Mutation := []
  deriving DecidableEq, Repr

namespace WriteBuffer

/-- `NewWriteBuffer`: a batch in the store buffer is continued. -/
def new : Option StoreBuffer → WriteBuffer
  | some (.batch mutations) => { mutations }
  | some .empty | none => {}

/-- `Put`, `Delete`, `DeleteRange` and `Merge`. -/
def append (faults : Faults) (buffer : WriteBuffer) (m : Mutation) :
    WriteBuffer × SearchStatus :=
  match m.tooLarge.or (faults.append buffer.mutations m) with
  | some msg => (buffer, ⟨kRocksDBErrorStatus, msg⟩)
  | none => ({ mutations := buffer.mutations ++ [m] }, {})

/-- `DataSize`: a header of twelve bytes and the records. -/
def dataSize (buffer : WriteBuffer) : Nat :=
  12 + (buffer.mutations.map Mutation.size).sum

end WriteBuffer

namespace VirtualDB

def applyAll (db : VirtualDB) (mutations : List Mutation) : VirtualDB :=
  mutations.foldl Mutation.apply db

def flushBuffer (faults : Faults) (db : VirtualDB) (buffer : WriteBuffer) :
    VirtualDB × SearchStatus :=
  match faults.flush buffer.mutations with
  | some msg => (db, ⟨kRocksDBErrorStatus, msg⟩)
  | none => (db.applyAll buffer.mutations, {})

/-- One entry of a `MultiGet`. -/
def getStatus (faults : Faults) (op : DocListMergeOperator) (db : VirtualDB)
    (column : StorageColumnType) (key : Bytes) : SearchStatus × Bytes :=
  match faults.read column key with
  | some msg => (⟨kRocksDBErrorStatus, msg⟩, [])
  | none =>
      match db.get op column key with
      | some value => ({}, value)
      | none => (⟨kDocumentNotExistStatus, ""⟩, [])

end VirtualDB

end Wwsearch.Ref
