import Wwsearch.Ref.Coding
import Wwsearch.Ref.Storage

/-!
# Sequence numbers (`document_writer.cpp`)

A table numbers its users. The meta column has the number of every user and,
under a key of its own, the largest number that was given out.
`AcquireCurrentSequence` reads both for a list of users, and
`AcquireNewSequence` goes on from there: whoever has no number gets the next
one.

Who has none is read off the status of the item. The read sets the status of a
user without a number, and leaves that of a user with one as the caller had it.

The reading and the writing are two functions here, because another client can
come in between.
-/

namespace Wwsearch.Ref

open Wwsearch.Lib

namespace DocumentWriter

structure AllocSequence where
  userId : Bytes
  sequence : UInt64 := 0
  status : SearchStatus := {}
  deriving DecidableEq, Repr

/-- The bytes of a `uint64_t`, in host order. -/
def sequenceBytes (sequence : UInt64) : Bytes :=
  Internal.appendFixed64 [] sequence

/-- A value of eight bytes as a `uint64_t`. -/
def sequenceOf (value : Bytes) : Option UInt64 :=
  if value.length = 8 then some (UInt64.ofNat (Word.ofLE value)) else none

/-! ## Reading -/

/-- What `AcquireCurrentSequence` returns and leaves in its arguments. -/
structure CurrentSequence where
  currentMax : UInt64
  sequenceList : List AllocSequence
  status : SearchStatus
  deriving DecidableEq, Repr

/-- The loop over the items, each with its entry of the `MultiGet`. -/
def parseItems : List (AllocSequence × SearchStatus × Bytes) →
    List AllocSequence × SearchStatus
  | [] => ([], {})
  | (item, status, value) :: rest =>
      if status.ok then
        match sequenceOf value with
        | some sequence =>
            let (items, status) := parseItems rest
            ({ item with sequence } :: items, status)
        | none => (item :: rest.map (·.1),
            ⟨kDataErrorStatus, "sequence item's meta key size not match"⟩)
      else
        let (items, status') := parseItems rest
        ({ item with status } :: items, status')

/-- `AcquireCurrentSequence`. -/
def acquireCurrentSequence (faults : Faults) (op : DocListMergeOperator)
    (table : TableID) (db : VirtualDB) (currentMax : UInt64)
    (sequenceList : List AllocSequence) : CurrentSequence :=
  let (metaStatus, metaValue) :=
    db.getStatus faults op .metaColumn (encodeSequenceMetaKey table)
  let rows := sequenceList.map fun item => (item,
    db.getStatus faults op .metaColumn
      (encodeSequenceMappingKey table item.userId))
  let error := (metaStatus :: rows.map (·.2.1)).find? fun status =>
    !status.ok && !status.documentNotExist
  match error with
  | some status => { currentMax, sequenceList, status }
  | none =>
      let stored := if metaStatus.documentNotExist then some 0
        else sequenceOf metaValue
      match stored with
      | some currentMax =>
          let (sequenceList, status) := parseItems rows
          { currentMax, sequenceList, status }
      | none =>
          { currentMax, sequenceList
            status :=
              ⟨kDataErrorStatus, "sequence's meta key size not match"⟩ }

/-! ## Writing -/

/-- The loop of `AcquireNewSequence`. -/
def allocateSequences (faults : Faults) (table : TableID) :
    List AllocSequence → UInt64 → WriteBuffer →
      List AllocSequence × UInt64 × WriteBuffer × SearchStatus
  | [], nextSequence, buffer => ([], nextSequence, buffer, {})
  | item :: rest, nextSequence, buffer =>
      if item.status.documentNotExist then
        let item := { item with status := {}, sequence := nextSequence + 1 }
        let nextSequence := nextSequence + 1
        let (buffer, putStatus) := buffer.append faults (.put .metaColumn
          (encodeSequenceMappingKey table item.userId)
          (sequenceBytes item.sequence))
        if putStatus.ok then
          let (rest, nextSequence, buffer, status) :=
            allocateSequences faults table rest nextSequence buffer
          (item :: rest, nextSequence, buffer, status)
        else (item :: rest, nextSequence, buffer, putStatus)
      else
        let (rest, nextSequence, buffer, status) :=
          allocateSequences faults table rest nextSequence buffer
        (item :: rest, nextSequence, buffer, status)

/-- What is left of a batch that was built. -/
structure BatchResult where
  db : VirtualDB
  storeBuffer : Option StoreBuffer
  status : SearchStatus

/-- The end of a call: the batch is flushed, or left in the store buffer. -/
def finishBuffer (faults : Faults) (db : VirtualDB)
    (storeBuffer : Option StoreBuffer)
    (r : WriteBuffer × SearchStatus) : BatchResult :=
  let (buffer, status) := r
  if status.ok then
    match storeBuffer with
    | none =>
        let (db, status) := db.flushBuffer faults buffer
        { db, storeBuffer, status }
    | some _ => { db, storeBuffer := some (.batch buffer.mutations), status }
  else { db, storeBuffer, status }

/-- What a call leaves behind. -/
structure SequenceResult extends BatchResult where
  sequenceList : List AllocSequence

/-- `AcquireNewSequence` from the check of what it has read. Where no item
gets a number, a store buffer is cleared. -/
def writeNewSequence (faults : Faults) (table : TableID) (db : VirtualDB)
    (storeBuffer : Option StoreBuffer) (current : CurrentSequence) :
    SequenceResult :=
  if current.status.ok then
    let (sequenceList, nextSequence, buffer, status) :=
      allocateSequences faults table current.sequenceList current.currentMax
        (WriteBuffer.new storeBuffer)
    if status.ok then
      if nextSequence ≠ current.currentMax then
        { finishBuffer faults db storeBuffer (buffer.append faults
            (.put .metaColumn (encodeSequenceMetaKey table)
              (sequenceBytes nextSequence))) with sequenceList }
      else
        { db, storeBuffer := storeBuffer.map fun _ => .empty
          sequenceList, status }
    else { db, storeBuffer, sequenceList, status }
  else
    { db, storeBuffer, sequenceList := current.sequenceList
      status := current.status }

/-- `AcquireNewSequence`. The maximum is not initialised before it is read. -/
def acquireNewSequence (faults : Faults) (op : DocListMergeOperator)
    (table : TableID) (db : VirtualDB) (storeBuffer : Option StoreBuffer)
    (sequenceList : List AllocSequence) : SequenceResult :=
  writeNewSequence faults table db storeBuffer
    (acquireCurrentSequence faults op table db 0 sequenceList)

end DocumentWriter

end Wwsearch.Ref
