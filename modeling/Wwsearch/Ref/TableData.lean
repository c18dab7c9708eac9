import Wwsearch.Ref.Query
import Wwsearch.Ref.Sequence

/-!
# Whole tables (`document_writer.cpp`, `index_writer.cpp`, `searcher.cpp`)

The operations that take no documents: an inverted index that was built
elsewhere is merged in, a table is dropped, and the keys of a table are deleted
or copied page by page. A page goes on from the last key of the page before;
an empty key is both the start and the end. The partition sets of a business
type are listed in the same way, by a cursor that is the last set.

The iterator of a column that the database has is never null.
-/

namespace Wwsearch.Ref

open Wwsearch.Lib

/-- `TableID::PrintToStr`: at most nineteen characters of it. -/
def TableID.printToStr (table : TableID) : String :=
  String.ofList ((toString table.businessType.toNat ++ ":" ++
    toString table.partitionSet.toNat).toList.take 19)

/-- `InvertIndexItem`; its doc list is a set in decreasing order. -/
structure InvertIndexItem where
  fieldId : FieldID
  term : Bytes
  docList : List DocumentID
  decreasing : docList.Pairwise (· > ·)

/-- The records of an item, none of them deleted. -/
def InvertIndexItem.records (item : InvertIndexItem) : List DocList :=
  item.docList.map fun docId => ⟨docId, kDocumentStateOK⟩

namespace DocumentWriter

/-! ## `IngestInvertIndex` -/

/-- The loop of `IngestInvertIndex`. The ids are in order, so the writer of the
list does not stop at an assertion. -/
def ingestItems (config : IndexConfig) (faults : Faults) (table : TableID) :
    List InvertIndexItem → WriteBuffer → WriteBuffer × SearchStatus
  | [], buffer => (buffer, {})
  | item :: rest, buffer =>
      match writeDocList config.compressionType item.records with
      | some (true, value) =>
          let (buffer, status) := buffer.append faults (.merge
            .invertedIndexColumn
            (encodeInvertedKey table item.fieldId item.term) value)
          if status.ok then ingestItems config faults table rest buffer
          else (buffer, status)
      | some (false, _) | none => (buffer, ⟨kSerializeErrorStatus,
          "Serialize to bytes error for invert doc list"⟩)

def ingestInvertIndex (config : IndexConfig) (faults : Faults)
    (table : TableID) (db : VirtualDB) (storeBuffer : Option StoreBuffer)
    (indices : List InvertIndexItem) : BatchResult :=
  finishBuffer faults db storeBuffer
    (ingestItems config faults table indices (WriteBuffer.new storeBuffer))

/-! ## `DropTable` -/

def writeStoreFieldForDropTable (table : TableID) : Mutation :=
  .deleteRange .storedFieldColumn (encodeStoredFieldKey table 0)
    (encodeStoredFieldKey table 0xFFFFFFFFFFFFFFFF)

/-- The greatest term that is looked for: 256 times the greatest byte. -/
def maxTerm : Bytes := List.replicate 256 255

def writeInvertedIndexForDropTable (table : TableID) : Mutation :=
  .deleteRange .invertedIndexColumn (encodeInvertedKey table 0 [])
    (encodeInvertedKey table 255 maxTerm)

def writeDocvalueForDropTable (table : TableID) : Mutation :=
  .deleteRange .docValueColumn (encodeStoredFieldKey table 0)
    (encodeStoredFieldKey table 0xFFFFFFFFFFFFFFFF)

def writeTableMetaForDropTable (table : TableID) : Mutation :=
  .delete .metaColumn (encodeMetaKey table)

/-- The mutations of `DropTable`; the dictionary has none. -/
def dropTableMutations (table : TableID) : List Mutation :=
  [writeStoreFieldForDropTable table, writeInvertedIndexForDropTable table,
    writeDocvalueForDropTable table, writeTableMetaForDropTable table]

def dropTable (faults : Faults) (table : TableID) (db : VirtualDB)
    (storeBuffer : Option StoreBuffer) : BatchResult :=
  finishBuffer faults db storeBuffer
    (appendAll faults (dropTableMutations table)
      (WriteBuffer.new storeBuffer))

end DocumentWriter

/-! ## `DeleteTableData` -/

namespace IndexWriter

/-- What a call leaves behind. -/
structure DeleteResult where
  db : VirtualDB
  startKey : Bytes
  status : SearchStatus

/-- The loop of `DeleteTableData`, with the last key it has come to. -/
def deleteKeys (faults : Faults) (column : StorageColumnType)
    (tablePrefix : Bytes) : List (Bytes × Bytes) → Nat → Bytes → WriteBuffer →
      Bytes × WriteBuffer × SearchStatus
  | [], _, lastKey, buffer => (lastKey, buffer, {})
  | (key, _) :: rest, maxLen, lastKey, buffer =>
      if maxLen = 0 then (lastKey, buffer, {})
      else if key.length < tablePrefix.length then
        (lastKey, buffer, ⟨kRocksDBErrorStatus, "Key size too small"⟩)
      else if !tablePrefix.isPrefixOf key then (lastKey, buffer, {})
      else
        let (buffer, status) := buffer.append faults (.delete column key)
        if status.ok then
          deleteKeys faults column tablePrefix rest (maxLen - 1) key buffer
        else (key, buffer, status)

def deleteTableData (faults : Faults) (op : DocListMergeOperator)
    (table : TableID) (db : VirtualDB) (column : StorageColumnType)
    (startKey : Bytes) (maxLen : Nat) : DeleteResult :=
  if maxLen ≤ 1 then
    { db, startKey, status := ⟨kRocksDBErrorStatus, "max_len must > 1"⟩ }
  else
    let tablePrefix := encodeMetaKey table
    let entries := db.seek op column
      (if startKey = [] then tablePrefix else startKey)
    let (lastKey, buffer, status) :=
      deleteKeys faults column tablePrefix entries maxLen [] {}
    let (db, status) :=
      if status.ok then db.flushBuffer faults buffer else (db, status)
    { db, startKey := if status.ok then lastKey else startKey, status }

end IndexWriter

/-! ## `ScanTableData` -/

namespace Searcher

/-- What changes in the loop of `ScanTableData`. -/
structure ScanState where
  lastKey : Bytes := []
  buffer : WriteBuffer := {}
  haveMoreData : Bool := false
  status : SearchStatus := {}

/-- What a call leaves behind; `writeBatch` is the data of a batch. -/
structure ScanResult where
  startKey : Bytes
  writeBatch : List Mutation
  status : SearchStatus

/-- The entries of the iterator as the loop gets it: the entry of the start
key is skipped. -/
def scanEntries (op : DocListMergeOperator) (db : VirtualDB)
    (column : StorageColumnType) (tablePrefix startKey : Bytes) :
    List (Bytes × Bytes) :=
  if startKey = [] then db.seek op column tablePrefix
  else
    match db.seek op column startKey with
    | (key, value) :: rest =>
        if key = startKey then rest else (key, value) :: rest
    | [] => []

/-- The loop of `ScanTableData`. -/
def scanKeys (faults : Faults) (column : StorageColumnType) (table : TableID)
    (maxBufferSize : Nat) :
    List (Bytes × Bytes) → Nat → ScanState → ScanState
  | [], _, st => st
  | (key, value) :: rest, maxLen, st =>
      let tablePrefix := encodeMetaKey table
      if maxLen = 0 then st
      else if key.length < tablePrefix.length then
        scanKeys faults column table maxBufferSize rest maxLen st
      else if !tablePrefix.isPrefixOf key then st
      else
        let st := { st with haveMoreData := true }
        let approximateSize := key.length + value.length
        if maxBufferSize < st.buffer.dataSize + approximateSize then
          if maxBufferSize < approximateSize then
            { st with status := ⟨kRocksDBErrorStatus,
                "keyvalue size too big,table:" ++ table.printToStr⟩ }
          else st
        else
          let (buffer, status) :=
            st.buffer.append faults (.put column key value)
          let st := { st with lastKey := key, buffer }
          if status.ok then
            scanKeys faults column table maxBufferSize rest (maxLen - 1) st
          else
            { st with status :=
                ⟨kRocksDBErrorStatus, "WriteBuffer put error"⟩ }

/-- `ScanTableData`. The start key is set before the last check. -/
def scanTableData (faults : Faults) (op : DocListMergeOperator)
    (table : TableID) (db : VirtualDB) (column : StorageColumnType)
    (startKey : Bytes) (maxLen : Nat) (writeBatch : List Mutation)
    (maxBufferSize : Nat) : ScanResult :=
  if maxLen ≤ 1 then
    { startKey, writeBatch
      status := ⟨kRocksDBErrorStatus, "max_len must > 1"⟩ }
  else
    let st := scanKeys faults column table maxBufferSize
      (scanEntries op db column (encodeMetaKey table) startKey) maxLen {}
    let writeBatch := st.buffer.mutations
    if st.status.ok then
      { startKey := st.lastKey, writeBatch
        status :=
          if st.haveMoreData ∧ st.lastKey = [] then ⟨kDataErrorStatus,
            "We have more data,but last key is set to empty."⟩
          else st.status }
    else { startKey, writeBatch, status := st.status }

/-! ## `ScanBusinessType` -/

/-- What a call leaves behind. -/
structure BusinessTypeResult where
  startPartitionSet : UInt64
  sets : List UInt64
  status : SearchStatus

/-- The loop of `ScanBusinessType`, with the last set it has come to. A key that
ends before its set stops the process. -/
def scanSets (typePrefix : Bytes) : List (Bytes × Bytes) → Nat → UInt64 →
    List UInt64 → Option (UInt64 × List UInt64)
  | [], _, lastPartitionSet, sets => some (lastPartitionSet, sets)
  | (key, _) :: rest, maxLen, lastPartitionSet, sets =>
      if maxLen = 0 then some (lastPartitionSet, sets)
      else if key.length < typePrefix.length then
        scanSets typePrefix rest maxLen lastPartitionSet sets
      else if !typePrefix.isPrefixOf key then some (lastPartitionSet, sets)
      else
        let (_, key) := removeFixed8 key
        if key.length < 8 then none
        else
          let (partitionSet, _) := removeFixed64 key
          scanSets typePrefix rest (maxLen - 1) partitionSet
            (sets ++ [partitionSet])

/-- `ScanBusinessType`. The cursor is zero again where it has not moved. -/
def scanBusinessType (op : DocListMergeOperator) (db : VirtualDB)
    (businessType : UInt8) (startPartitionSet : UInt64) (maxLen : Nat)
    (sets : List UInt64) : Option BusinessTypeResult :=
  if maxLen ≤ 1 then
    some { startPartitionSet, sets,
           status := ⟨kRocksDBErrorStatus, "max_len must > 1"⟩ }
  else
    let typePrefix := appendFixed8 [] businessType
    (scanSets typePrefix (db.seek op .paxosLogMetaColumn
      (appendFixed64 typePrefix startPartitionSet)) maxLen 0 sets).map
      fun (lastPartitionSet, sets) =>
        { startPartitionSet :=
            if lastPartitionSet = startPartitionSet then 0
            else lastPartitionSet
          sets, status := {} }

end Searcher

end Wwsearch.Ref
