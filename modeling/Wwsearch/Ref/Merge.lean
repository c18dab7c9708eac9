import Wwsearch.Lib.Heap
import Wwsearch.Ref.DocList

/-!
# The doc-list merge operator (`virtual_db_rocks.cpp`)

`OptimizeMerger` merges any number of doc lists through a binary heap of list
heads. The heap is ordered by id and, among equal ids, by the list's position,
so the newest mention of an id is the one that is written and the older ones
are skipped. A list that has run out counts as id zero and stays in the heap.

The heap is either one of the merger's preallocated arrays, with whatever the
last merge left in it, or a fresh array when a thousand lists or more have to
be merged. `DocListMergeOperator.heap` is the preallocated array that the
sequence counter selects for the call at hand; nothing is assumed about its
contents, only that it has the thousand slots it was allocated with.

A merge answers nothing where the process would be stopped by an assertion:
an operand of `2 ^ 31` bytes or more, a value that does not decode, or a
writer that is handed ids out of order.
-/

namespace Wwsearch.Ref

open Wwsearch.Lib

/-- `merge::HeapItem`: what is left of one list (`ptr_` and `left_size_`) and
the list's position among the inputs, of which there are fewer than `2 ^ 32`. -/
structure HeapItem where
  ptr : List DocList
  priority : Nat
  deriving DecidableEq, Repr, Inhabited

/-- `DOCID(a)`. -/
def HeapItem.docID (a : HeapItem) : DocumentID :=
  match a.ptr with
  | [] => 0
  | doc :: _ => doc.docId

/-- `HeapItemGreater(a, b)`. -/
def heapItemGreater (a b : HeapItem) : Bool :=
  decide (b.docID < a.docID) ||
    (a.docID == b.docID && decide (b.priority < a.priority))

/-- `ptr_++` and `left_size_ -= ONE_DOCID_SIZE`. -/
def HeapItem.next (a : HeapItem) : HeapItem := { a with ptr := a.ptr.tail }

def mergeOperatorHeapSize : Nat := 1000

/-- `DocListMergeOperator` together with the state of its merger that a call
can see. -/
structure DocListMergeOperator where
  compressionType : DocListCompressionType
  maxDocListNum : UInt32
  heap : Array HeapItem
  /-- The assertion in `OptimizeMerger`'s constructor. -/
  limit_pos : 0 < maxDocListNum.toNat
  heap_size : heap.size = mergeOperatorHeapSize

/-- The constructor. -/
def DocListMergeOperator.new (compressionType : DocListCompressionType)
    (maxDocListNum : UInt32) (limit_pos : 0 < maxDocListNum.toNat) :
    DocListMergeOperator where
  compressionType
  maxDocListNum
  heap := Array.replicate mergeOperatorHeapSize default
  limit_pos
  heap_size := Array.size_replicate

def heapShiftUp (items : Array HeapItem) (pos : Nat) : Array HeapItem :=
  Heap.siftUp heapItemGreater pos items pos

def heapShiftDown (items : Array HeapItem) (size pos : Nat) :
    Array HeapItem :=
  Heap.siftDown heapItemGreater size size items pos

/-- The records the first `size` items still hold; a bound on both loops. -/
def leftRecords (items : Array HeapItem) (size : Nat) : Nat :=
  ((Heap.items items size).map (·.ptr.length)).sum

/-- The `do .. while` that takes every copy of `docId` off the heap. -/
def skipSameDocID (size : Nat) (docId : DocumentID) :
    Nat → Array HeapItem → Option (Array HeapItem)
  | 0, _ => none
  | fuel + 1, items =>
      let items := heapShiftDown (items.set! 0 items[0]!.next) size 0
      if items[0]!.docID = docId then skipSameDocID size docId fuel items
      else some items

/-- The writer and the two counters of the merge loop. -/
structure MergeOutput where
  writer : DocListWriterCodec
  matchDocCount : Nat := 0
  matchDeleteDocCount : Nat := 0

/-- What the loop does with the record on top of the heap, and whether it
breaks there. -/
def mergeRecord (maxDocListNum : Nat) (purgeDeletedoc : Bool) (doc : DocList)
    (out : MergeOutput) : Option (MergeOutput × Bool) :=
  if purgeDeletedoc then
    if doc.docState ≠ kDocumentStateDelete then do
      let writer ← out.writer.addDocID doc.docId doc.docState
      let matchDocCount := out.matchDocCount + 1
      some ({ out with writer, matchDocCount },
        decide (maxDocListNum ≤ matchDocCount))
    else some (out, false)
  else if doc.docState ≠ kDocumentStateDelete then
    if out.matchDocCount < maxDocListNum then do
      let writer ← out.writer.addDocID doc.docId doc.docState
      some ({ out with writer, matchDocCount := out.matchDocCount + 1 }, false)
    else some (out, false)
  else do
    let writer ← out.writer.addDocID doc.docId doc.docState
    let matchDeleteDocCount := out.matchDeleteDocCount + 1
    some ({ out with writer, matchDeleteDocCount },
      decide (10000000 < matchDeleteDocCount))

/-- The merge loop: `while (DOCID(items[0]) != 0)`. -/
def mergeLoop (maxDocListNum : Nat) (purgeDeletedoc : Bool) (size : Nat) :
    Nat → Array HeapItem → MergeOutput → Option DocListWriterCodec
  | 0, _, _ => none
  | fuel + 1, items, out =>
      match items[0]!.ptr with
      | [] => some out.writer
      | doc :: _ =>
          if doc.docId = 0 then some out.writer
          else do
            let (out, stop) ← mergeRecord maxDocListNum purgeDeletedoc doc out
            if stop then some out.writer
            else
              let items ←
                skipSameDocID size doc.docId (leftRecords items size) items
              mergeLoop maxDocListNum purgeDeletedoc size fuel items out

/-- `OptimizeDocListMerge`: build the heap, run the loop, serialize. -/
def optimizeDocListMerge (compressionType : DocListCompressionType)
    (maxDocListNum : Nat) (items : Array HeapItem) (queueSize : Nat)
    (purgeDeletedoc : Bool) : Option (Bool × Bytes) := do
  let items := (List.range queueSize).foldl heapShiftUp items
  let writer ← mergeLoop maxDocListNum purgeDeletedoc queueSize
    (leftRecords items queueSize + 1) items
    { writer := newOrderDocListWriterCodec compressionType }
  writer.serializeToBytes

/-- `heap[i].Set(doc_lists[i].first, doc_lists[i].second, i)` for every list. -/
def setHeap (heap : Array HeapItem) (docLists : List (List DocList)) :
    Array HeapItem :=
  docLists.zipIdx.foldl (fun heap (l, i) => heap.set! i ⟨l, i⟩) heap

namespace DocListMergeOperator

/-- `DecodeDocList`: the length is asserted, and so is a value that decodes. -/
def decodeDocList (data : Bytes) : Option (List DocList) :=
  if data.length < 2 ^ 31 then docListOf data else none

def doMerge (op : DocListMergeOperator) (docLists : List (List DocList))
    (fullMerge : Bool) : Option (Bool × Bytes) :=
  let listSize := docLists.length
  let heap :=
    if listSize < mergeOperatorHeapSize then op.heap
    else Array.replicate listSize default
  optimizeDocListMerge op.compressionType op.maxDocListNum.toNat
    (setHeap heap docLists) listSize fullMerge

def fullMergeV2 (op : DocListMergeOperator) (existingValue : Option Bytes)
    (operandList : List Bytes) : Option (Bool × Bytes) := do
  let docLists ← (existingValue.toList ++ operandList).mapM decodeDocList
  op.doMerge docLists true

def partialMergeMulti (op : DocListMergeOperator) (operandList : List Bytes) :
    Option (Bool × Bytes) := do
  let docLists ← operandList.mapM decodeDocList
  op.doMerge docLists false

end DocListMergeOperator

/-- The value of a merge that returned true. -/
def mergeValue : Option (Bool × Bytes) → Option Bytes
  | some (true, value) => some value
  | _ => none

end Wwsearch.Ref
