import Std.Data.ExtTreeMap.Lemmas
import Std.Data.ExtTreeSet.Lemmas
import Wwsearch.Ref.DocIterator

/-!
# The store in memory (`virtual_db_mock.cpp`, `write_buffer_mock.cpp`)

The backend of the tests. A write buffer is a map from keys to values for each
column, every value with the kind of its last change, and next to it a set of
ranges to delete. It reaches the database as a `MockDataList`: the entries of
the map in the order of columns and keys, then the ranges. `WriteBufferMock`
reads such a message back with one `Put` for each entry.

Doc lists are merged twice, once between two changes in the same buffer and
once between a buffer and the database. Both go through a map from ids to
states; the buffer keeps tombstones in it, the database takes the id out.

An assertion that fails stops the process, and the functions below answer
nothing there. Nor do they where a range is deleted that holds a key: the loop
erases the element it stands on and goes on from there.
-/

namespace Wwsearch.Ref

open Wwsearch.Lib

/-- `MockData::Type`. -/
inductive MockDataType where
  | kUnknown
  | kUpdate
  | kMerge
  | kDelete
  | kDeleteRange
  deriving DecidableEq, Repr

structure MockData where
  columnType : StorageColumnType
  key : Bytes
  value : Bytes
  type : MockDataType
  endKey : Option Bytes := none
  deriving DecidableEq, Repr

/-- What the sources rely on in the serializer of `MockDataList`: a message
that is written can be read, an empty one takes no bytes, and one is refused
only for its size. The size is that of its entries, and of two entries with
the same key and value a plain `kUpdate` is the smaller. -/
structure MockPb where
  serializeToString : List MockData → Option Bytes
  parseFromString : Bytes → Option (List MockData)
  byteSize : MockData → Nat
  parse_serialize : ∀ list data, serializeToString list = some data →
    parseFromString data = some list
  serialize_nil : serializeToString [] = some []
  serialize_isSome : ∀ list, (serializeToString list).isSome = true ↔
    (list.map byteSize).sum < 2 ^ 31
  byteSize_update : ∀ m : MockData,
    byteSize { m with type := .kUpdate, endKey := none } ≤ byteSize m

/-- The column families, in the order of a map over them. -/
def StorageColumnType.all : List StorageColumnType :=
  [.storedFieldColumn, .invertedIndexColumn, .docValueColumn, .metaColumn,
    .dictionaryColumn, .paxosLogColumn, .paxosDataMetaColumn,
    .paxosLogMetaColumn]

/-! ## Merging two doc lists -/

/-- `std::map<DocumentID, DocumentState, std::greater<uint64_t>>`: the map is
gone through from its end. -/
abbrev DocStates := Std.ExtTreeMap DocumentID DocumentState

/-- What `DocID()`, `State()`, `NextDoc()` show until `NO_MORE_DOCS`. -/
def DocListReaderCodecImpl.remaining (r : DocListReaderCodecImpl) :
    List DocList :=
  (r.slice.drop r.pos).takeWhile (·.docId ≠ noMoreDocs)

/-- The lambda `handle_doclist`; `change` is the body of its loop. -/
def handleDoclist (change : DocStates → DocList → DocStates)
    (docListStr : Bytes) (doclist : DocStates) : Option DocStates := do
  let reader ← newDocListReaderCodec docListStr (-1)
  some (reader.remaining.foldl change doclist)

/-- The order writer over the map, largest id first. -/
def buildValueString (type : DocListCompressionType) (doclist : DocStates) :
    Option Bytes := do
  let (ok, finalValue) ← writeDocList type
    (doclist.toList.reverse.map fun doc => ⟨doc.1, doc.2⟩)
  if ok then some finalValue else none

/-- The old doc list, then the new one, then the value string. -/
def mergeDoclist (change : DocStates → DocList → DocStates)
    (type : DocListCompressionType) (old value : Bytes) : Option Bytes := do
  let doclist ← handleDoclist change old ∅
  let doclist ← handleDoclist change value doclist
  buildValueString type doclist

/-! ## The write buffer -/

/-- `std::less` on `std::pair<std::string, std::string>`. -/
def compareRange : Bytes × Bytes → Bytes × Bytes → Ordering :=
  lexOrd.compare

instance transCmp_compareRange : Std.TransCmp compareRange :=
  inferInstanceAs (Std.TransCmp (lexOrd (α := Bytes) (β := Bytes)).compare)

instance lawfulEqCmp_compareRange : Std.LawfulEqCmp compareRange :=
  inferInstanceAs (Std.LawfulEqCmp (lexOrd (α := Bytes) (β := Bytes)).compare)

structure WriteBufferMock where
  cfKvList : StorageColumnType →
    Std.ExtTreeMap Bytes (Bytes × MockDataType) := fun _ => ∅
  cfDeleteKeyrangeList : StorageColumnType →
    Std.ExtTreeSet (Bytes × Bytes) compareRange := fun _ => ∅
  kvCnt : UInt64 := 0
  totalSize : UInt32 := 0
  data : Bytes := []

namespace WriteBufferMock

/-- `cf_kv_list_[column]` after a change. -/
def setKvs (b : WriteBufferMock) (column : StorageColumnType)
    (kvs : Std.ExtTreeMap Bytes (Bytes × MockDataType)) : WriteBufferMock :=
  { b with cfKvList := fun c => if c = column then kvs else b.cfKvList c }

def put (b : WriteBufferMock) (column : StorageColumnType)
    (key value : Bytes) : WriteBufferMock :=
  let kvs := b.cfKvList column
  let kvCnt := if kvs[key]?.isSome then b.kvCnt else b.kvCnt + 1
  { b.setKvs column (kvs.insert key (value, .kUpdate)) with kvCnt }

/-- `Delete`: the entry stays, with the kind of the change. The count goes
down whether or not there was an entry. -/
def delete (b : WriteBufferMock) (column : StorageColumnType)
    (key : Bytes) : WriteBufferMock :=
  let kvs := (b.cfKvList column).erase key
  { b.setKvs column (kvs.insert key ([], .kDelete)) with
    kvCnt := b.kvCnt - 1 }

def deleteRange (b : WriteBufferMock) (column : StorageColumnType)
    (beginKey endKey : Bytes) : WriteBufferMock :=
  { b with
    cfDeleteKeyrangeList := fun c =>
      if c = column then (b.cfDeleteKeyrangeList c).insert (beginKey, endKey)
      else b.cfDeleteKeyrangeList c
    kvCnt := b.kvCnt - 1 }

/-- The loop body of `WriteBufferMock::Merge`. -/
def change (doclist : DocStates) (doc : DocList) : DocStates :=
  doclist.insert doc.docId doc.docState

/-- `Merge`: an entry of any kind becomes a merge; without one the value is
kept as it came. -/
def merge (type : DocListCompressionType) (b : WriteBufferMock)
    (column : StorageColumnType) (key value : Bytes) :
    Option WriteBufferMock :=
  let kvs := b.cfKvList column
  if column ≠ .invertedIndexColumn then none
  else
    match kvs[key]? with
    | some (old, _) => do
        let finalValue ← mergeDoclist change type old value
        some (b.setKvs column (kvs.insert key (finalValue, .kMerge)))
    | none =>
        some { b.setKvs column (kvs.insert key (value, .kMerge)) with
          kvCnt := b.kvCnt + 1 }

/-- The entries of the map, column by column. -/
def kvData (b : WriteBufferMock) : List MockData :=
  StorageColumnType.all.flatMap fun c => (b.cfKvList c).toList.map fun kv =>
    { columnType := c, key := kv.1, value := kv.2.1, type := kv.2.2 }

/-- The ranges, column by column; a range goes out with an empty value. -/
def rangeData (b : WriteBufferMock) : List MockData :=
  StorageColumnType.all.flatMap fun c =>
    (b.cfDeleteKeyrangeList c).toList.map fun range =>
      { columnType := c, key := range.1, value := [], type := .kDeleteRange
        endKey := some range.2 }

/-- `SeriableData`. The count is of the entries, without the ranges. -/
def seriableData (pb : MockPb) (b : WriteBufferMock) :
    WriteBufferMock × SearchStatus :=
  let b := { b with kvCnt := b.kvData.length.toUInt64, totalSize := 0 }
  match pb.serializeToString (b.kvData ++ b.rangeData) with
  | none => ({ b with data := [] },
      ⟨kRocksDBErrorStatus, "RocksDBErrorStatus WriteBufferMock::Append"⟩)
  | some data => ({ b with data, totalSize := data.length.toUInt32 }, {})

/-- `Data`: the bytes, or none of them after an error. -/
def getData (pb : MockPb) (b : WriteBufferMock) : Bytes :=
  let (b, s) := b.seriableData pb
  if s.ok then b.data else []

/-- `DeSeriableData`: one `Put` for each entry, whatever its kind. -/
def deSeriableData (pb : MockPb) (b : WriteBufferMock) :
    WriteBufferMock × SearchStatus :=
  if b.data = [] then (b, {})
  else
    let b := { b with kvCnt := 0, totalSize := b.data.length.toUInt32 }
    match pb.parseFromString b.data with
    | none => (b,
        ⟨kRocksDBErrorStatus, "RocksDBErrorStatus WriteBufferMock::Append"⟩)
    | some dataList =>
        (dataList.foldl (fun b m => b.put m.columnType m.key m.value) b, {})

/-- `WriteBufferMock(codec, data)`. -/
def ofData (pb : MockPb) (data : Bytes) : WriteBufferMock :=
  (deSeriableData pb { data }).1

end WriteBufferMock

/-! ## The database -/

abbrev VirtualDBMock := StorageColumnType → Std.ExtTreeMap Bytes Bytes

namespace VirtualDBMock

/-- `NewWriteBuffer`. -/
def newWriteBuffer (pb : MockPb) : Option Bytes → WriteBufferMock
  | some writeBuffer => .ofData pb writeBuffer
  | none => {}

/-- The loop body of `VirtualDBMock::ParsePbString`. -/
def change (doclist : DocStates) (doc : DocList) : DocStates :=
  if doc.docState = kDocumentStateDelete then doclist.erase doc.docId
  else doclist.insert doc.docId doc.docState

def setKvs (db : VirtualDBMock) (column : StorageColumnType)
    (kvs : Std.ExtTreeMap Bytes Bytes) : VirtualDBMock :=
  fun c => if c = column then kvs else db c

/-- One entry of the message. -/
def applyData (type : DocListCompressionType) (db : VirtualDBMock)
    (m : MockData) : Option VirtualDBMock :=
  let kvs := db m.columnType
  match m.type with
  | .kUpdate => some (db.setKvs m.columnType (kvs.insert m.key m.value))
  | .kMerge =>
      if m.columnType ≠ .invertedIndexColumn then none
      else
        match kvs[m.key]? with
        | some old => do
            let finalValue ← mergeDoclist change type old m.value
            some (db.setKvs m.columnType (kvs.insert m.key finalValue))
        | none => some (db.setKvs m.columnType (kvs.insert m.key m.value))
  | .kDelete => some (db.setKvs m.columnType (kvs.erase m.key))
  | .kDeleteRange =>
      let endKey := m.endKey.getD []
      if kvs.keys.any fun targetKey => compare targetKey m.key != .lt &&
          compare targetKey endKey == .lt then none
      else some db
  | .kUnknown => none

/-- `ParsePbString`. -/
def parsePbString (pb : MockPb) (type : DocListCompressionType)
    (db : VirtualDBMock) (writeBufferData : Bytes) :
    Option (VirtualDBMock × SearchStatus) :=
  if writeBufferData = [] then some (db, {})
  else
    match pb.parseFromString writeBufferData with
    | none => some (db, ⟨kRocksDBErrorStatus,
        "RocksDBErrorStatus in parse write_buffer_data"⟩)
    | some dataList => do
        let db ← dataList.foldlM (applyData type) db
        some (db, {})

/-- `FlushBuffer`. -/
def flushBuffer (pb : MockPb) (type : DocListCompressionType)
    (db : VirtualDBMock) (writeBuffer : WriteBufferMock) :
    Option (VirtualDBMock × SearchStatus) :=
  parsePbString pb type db (writeBuffer.getData pb)

/-- `Get`. -/
def get (db : VirtualDBMock) (column : StorageColumnType) (key : Bytes) :
    SearchStatus × Bytes :=
  match (db column)[key]? with
  | some value => ({}, value)
  | none => (⟨kDocumentNotExistStatus, ""⟩, [])

end VirtualDBMock

end Wwsearch.Ref
