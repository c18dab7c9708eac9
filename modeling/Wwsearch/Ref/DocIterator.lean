import Wwsearch.Lib.HeapList
import Wwsearch.Ref.DocList

/-!
# Iterators over document ids (`doc_iterator.h`, `codec_doclist_impl.cpp`,
`merge_iterator.cpp`, `or_iterator.cpp`)

Ids come in descending order, and zero is the end. There are three kinds of
iterator: a reader of one doc list, `MergeIterator` for what all of its parts
have, and `OrIterator` for what any of them has; the parts are iterators of any
kind. They are objects that change, so a call of `NextDoc` or `Advance` answers
the iterator as the call leaves it.

`Advance` does not mean the same everywhere. A reader searches its whole list,
forwards or backwards, and goes back to the start for `MAX_DOCID`; an
`OrIterator` only ever moves the parts that are past the target.

The two loops without a condition are fueled, and with them the calls that run
them: a call answers nothing when its fuel runs out. `Cost` is an assertion
that fails, and is left out. The binary search of a reader is there twice, as a
function and with its reads and its fuel.
-/

namespace Wwsearch.Ref

open Wwsearch.Lib

/-! ## One doc list -/

/-- `DocListReaderCodecImpl`: the records of the slice, and `pos_` counted in
records. -/
structure DocListReaderCodecImpl where
  slice : List DocList
  pos : Nat := 0
  fieldId : Int := -1
  deriving DecidableEq, Repr, Inhabited

namespace DocListReaderCodecImpl

def docID (r : DocListReaderCodecImpl) : DocumentID :=
  match r.slice[r.pos]? with
  | some doc => doc.docId
  | none => noMoreDocs

/-- `State`: an assertion fails behind the last record. -/
def state (r : DocListReaderCodecImpl) : Option DocumentState :=
  r.slice[r.pos]?.map (·.docState)

def nextDoc (r : DocListReaderCodecImpl) : DocListReaderCodecImpl :=
  if r.docID ≠ noMoreDocs then { r with pos := r.pos + 1 } else r

/-- `CURR_DOC(idx)`. -/
def currDoc (r : DocListReaderCodecImpl) (idx : Nat) : DocumentID :=
  r.slice[idx]!.docId

/-- The binary search: the position where its loop breaks. -/
def search (r : DocListReaderCodecImpl) (target : DocumentID) :
    Nat → Nat → Nat → Nat → Nat
  | 0, _, _, curr => curr
  | fuel + 1, min, max, curr =>
      if min ≤ max then
        if r.currDoc curr = target then curr
        else
          let (min, max) :=
            if target < r.currDoc curr then (curr, max) else (min, curr)
          if max = min then curr
          else if min + 1 = max then
            if target < r.currDoc min then max else min
          else search r target fuel min max ((min + max) / 2)
      else curr

def advance (r : DocListReaderCodecImpl) (target : DocumentID) :
    DocListReaderCodecImpl :=
  if r.slice = [] then r
  else if target = maxDocID then { r with pos := 0 }
  else
    let max := r.slice.length - 1
    let r := { r with pos := r.search target r.slice.length 0 max (max / 2) }
    if target < r.docID then { r with pos := r.slice.length } else r

/-- The binary search with its reads: nothing where `CURR_DOC` reads outside of
the slice, or where the loop goes on. -/
def searchReads (r : DocListReaderCodecImpl) (target : DocumentID) :
    Nat → Nat → Nat → Nat → Option Nat
  | 0, _, _, _ => none
  | fuel + 1, min, max, curr =>
      if min ≤ max then do
        let currDoc ← r.slice[curr]?
        if currDoc.docId = target then some curr
        else
          let (min, max) :=
            if target < currDoc.docId then (curr, max) else (min, curr)
          if max = min then some curr
          else if min + 1 = max then do
            let minDoc ← r.slice[min]?
            if target < minDoc.docId then some max else some min
          else searchReads r target fuel min max ((min + max) / 2)
      else some curr

/-- `Advance` with its reads; `DocID` looks at the size before it reads. -/
def advanceReads (fuel : Nat) (r : DocListReaderCodecImpl)
    (target : DocumentID) : Option DocListReaderCodecImpl :=
  if r.slice = [] then some r
  else if target = maxDocID then some { r with pos := 0 }
  else do
    let max := r.slice.length - 1
    let curr ← r.searchReads target fuel 0 max (max / 2)
    let r := { r with pos := curr }
    some (if target < r.docID then { r with pos := r.slice.length } else r)

end DocListReaderCodecImpl

/-- `NewDocListReaderCodec`: an empty value is an empty list, and a value that
does not decode stops the process. -/
def newDocListReaderCodec (data : Bytes) (fieldId : Int) :
    Option DocListReaderCodecImpl :=
  if data = [] then some { slice := [], fieldId }
  else (docListOf data).map fun slice => { slice, fieldId }

/-! ## All kinds of iterator -/

inductive DocIdSetIterator where
  | reader (r : DocListReaderCodecImpl)
  | merge (subIterator : List DocIdSetIterator) (curr : DocumentID)
      (fieldId : Int)
  | or (subIterator : List DocIdSetIterator)

namespace DocIdSetIterator

instance instInhabited : Inhabited DocIdSetIterator := ⟨.or []⟩

def docID : DocIdSetIterator → DocumentID
  | .reader r => r.docID
  | .merge _ curr _ => curr
  | .or [] => noMoreDocs
  | .or (front :: _) => front.docID

def fieldId : DocIdSetIterator → Int
  | .reader r => r.fieldId
  | .merge _ _ fieldId => fieldId
  | .or [] => -1
  | .or (front :: _) => front.fieldId

/-- `IteratorGreater(b, a)`: whether `a` has to be nearer to the front. -/
def greater (a b : DocIdSetIterator) : Bool := decide (b.docID < a.docID)

/-- The two calls that move an iterator, behind one virtual call. -/
inductive Call where
  | nextDoc
  | advance (target : DocumentID)
  deriving DecidableEq, Repr

/-- One round of the scan of `MergeIterator::InnderNextDoc`: the least id so
far, its field, and `retry`. -/
def scanMin (acc : DocumentID × FieldID × Bool) (iterator : DocIdSetIterator) :
    DocumentID × FieldID × Bool :=
  if iterator.docID < acc.1 then
    (iterator.docID, UInt8.ofInt iterator.fieldId, true)
  else (acc.1, acc.2.1, acc.2.2 || decide (acc.1 < iterator.docID))

/-- The scan: the least id, its field, and whether any two ids differ. -/
def findMin : List DocIdSetIterator → DocumentID × FieldID × Bool
  | [] => (noMoreDocs, 0, false)
  | first :: rest =>
      rest.foldl scanMin (first.docID, UInt8.ofInt first.fieldId, false)

mutual

/-- `NextDoc()` and `Advance(target)`. -/
def call : Nat → Call → DocIdSetIterator → Option DocIdSetIterator
  | 0, _, _ => none
  | _ + 1, .nextDoc, .reader r => some (.reader r.nextDoc)
  | _ + 1, .advance target, .reader r => some (.reader (r.advance target))
  | fuel + 1, c, .merge subIterator _ _ => do
      let subIterator ← subIterator.mapM (call fuel c)
      mergeLoop fuel subIterator
  | fuel + 1, .nextDoc, .or subIterator =>
      let curr := docID (.or subIterator)
      if curr = noMoreDocs then some (.or subIterator)
      else orLoop fuel .nextDoc (curr - 1) subIterator
  | fuel + 1, .advance target, .or subIterator =>
      orLoop fuel (.advance target) target subIterator

/-- The loop of `MergeIterator::InnderNextDoc`: whatever is past the least id
is advanced to it, until all have the same id. -/
def mergeLoop : Nat → List DocIdSetIterator → Option DocIdSetIterator
  | 0, _ => none
  | fuel + 1, subIterator =>
      match findMin subIterator with
      | (min, fieldId, false) =>
          some (.merge subIterator min (fieldId.toNat : Int))
      | (min, _, true) => do
          let subIterator ← subIterator.mapM fun iterator =>
            if min < iterator.docID then call fuel (.advance min) iterator
            else some iterator
          mergeLoop fuel subIterator

/-- The loop of `OrIterator::InnderNextDoc`: the front is popped, moved and
pushed again, while it is past the target. -/
def orLoop : Nat → Call → DocumentID → List DocIdSetIterator →
    Option DocIdSetIterator
  | 0, _, _, _ => none
  | _ + 1, _, _, [] => some (.or [])
  | fuel + 1, c, target, front :: rest =>
      if front.docID ≠ noMoreDocs ∧ target < front.docID then do
        let popped := Heap.popHeap greater (front :: rest)
        let back ← call fuel c (popped.getLastD default)
        orLoop fuel c target
          (Heap.pushHeap greater (popped.dropLast ++ [back]))
      else some (.or (front :: rest))

end

/-- `FinishAddIterator` of a `MergeIterator`. -/
def finishMerge (fuel : Nat) (subIterator : List DocIdSetIterator) :
    Option DocIdSetIterator :=
  call fuel (.advance maxDocID) (.merge subIterator noMoreDocs (-1))

/-- `FinishAddIterator` of an `OrIterator`. -/
def finishOr (subIterator : List DocIdSetIterator) : DocIdSetIterator :=
  .or (Heap.makeHeap greater subIterator)

/-- `DocID()`, `NextDoc()`, `NextDoc()`, .. up to the end. -/
def enumerate : Nat → DocIdSetIterator → Option (List DocumentID)
  | 0, _ => none
  | fuel + 1, iterator =>
      if iterator.docID = noMoreDocs then some []
      else do
        let next ← call fuel .nextDoc iterator
        let rest ← enumerate fuel next
        some (iterator.docID :: rest)

end DocIdSetIterator

end Wwsearch.Ref
