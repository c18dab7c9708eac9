import Wwsearch.Ref.Coding
import Wwsearch.Ref.DocIterator
import Wwsearch.Ref.DocumentWriter

/-!
# Query trees and their scorers (`*_query.h`, `*_weight.cpp`, `*_scorer.cpp`)

A query is a tree; `GetScorer` walks it and reads the doc list of every leaf.
The leaves do not read alike. A `BooleanWeight` asks the database as it is at
that moment, a `PrefixWeight` scans the snapshot of the query. So the context
has both: the snapshot, and what the database is at every read that goes past
it.

A scorer answers its iterator through `Iterator()`, which finishes it; a parent
asks each of its parts when it adds them, and whoever runs the query asks the
root. Where a part has no scorer the whole has none, and the status is in the
context.

RocksDB's iterator is what its documentation says: it shows the keys from a
given one on, in order, each with its value, and ends at a key whose operands
the merge operator gives up on.
-/

namespace Wwsearch.Ref

open Wwsearch.Lib

/-! ## Iterators of the database -/

/-- What can be shown of a run of entries. -/
def readableEntries (op : DocListMergeOperator) :
    List (Bytes × Cell) → List (Bytes × Bytes)
  | [] => []
  | (key, cell) :: rest =>
      match VirtualDB.cellValue op cell with
      | some value => (key, value) :: readableEntries op rest
      | none => []

/-- `Seek(start)`, and `Next()` up to the end. -/
def VirtualDB.seek (op : DocListMergeOperator) (db : VirtualDB)
    (column : StorageColumnType) (start : Bytes) : List (Bytes × Bytes) :=
  readableEntries op ((db column).toList.filter fun (key, _) =>
    compare start key != .gt)

/-! ## Queries -/

/-- What a `BooleanQuery` looks for: one of its three constructors. -/
inductive MatchValue where
  | term (matchTerm : Bytes)
  | uint32 (matchNumeric : UInt32)
  | uint64 (matchNumeric : UInt64)
  deriving DecidableEq, Repr

/-- The term that the value is indexed under. -/
def MatchValue.toTerm : MatchValue → Bytes
  | .term matchTerm => matchTerm
  | .uint32 matchNumeric => appendFixed32 [] matchNumeric
  | .uint64 matchNumeric => appendFixed64 [] matchNumeric

inductive Query where
  | booleanQuery (fieldId : FieldID) (value : MatchValue)
  | prefixQuery (fieldId : FieldID) (matchTerm : Bytes)
      (maxDocListSize : UInt32)
  | andQuery (subQuery : List Query)
  | orQuery (subQuery : List Query)

/-- `SearchContext`. `live n` is the database at the `n`-th read of the call
that goes past the snapshot. -/
structure SearchContext where
  config : IndexConfig
  faults : Faults
  op : DocListMergeOperator
  table : TableID
  snapshot : VirtualDB
  live : Nat → VirtualDB

/-- What changes in a context: its status, and the number of reads so far that
went past the snapshot. -/
structure ContextState where
  reads : Nat := 0
  status : SearchStatus := {}
  deriving DecidableEq, Repr

/-- The scorers, with the iterators of their parts. -/
inductive Scorer where
  | booleanScorer (iterator : DocIdSetIterator)
  | prefixScorer (iterator : DocIdSetIterator)
  | andScorer (subIterator : List DocIdSetIterator)
  | orScorer (subIterator : List DocIdSetIterator)

/-- `Iterator()`. -/
def Scorer.iterator (fuel : Nat) : Scorer → Option DocIdSetIterator
  | .booleanScorer iterator | .prefixScorer iterator => some iterator
  | .andScorer subIterator => DocIdSetIterator.finishMerge fuel subIterator
  | .orScorer subIterator => some (DocIdSetIterator.finishOr subIterator)

/-! ## Weights -/

/-- `BooleanWeight::GetScorer`. -/
def booleanScorer (context : SearchContext) (fieldId : FieldID)
    (value : MatchValue) (st : ContextState) :
    Option (Option Scorer × ContextState) :=
  let key := encodeInvertedKey context.table fieldId value.toTerm
  let (status, data) := (context.live st.reads).getStatus context.faults
    context.op .invertedIndexColumn key
  let st := { st with reads := st.reads + 1 }
  if status.ok ∨ status.documentNotExist then do
    let data := if status.ok then data else []
    let reader ← newDocListReaderCodec data fieldId.toNat
    some (some (.booleanScorer (.reader reader)), st)
  else some (none, { st with status })

/-- The loop of `PrefixWeight::GetScorer`: the values of the keys with the
prefix, and the size where the limit was reached. The size is counted in 32
bits. -/
def prefixValues (maxDocListSize : UInt32) (prefixKey : Bytes) :
    List (Bytes × Bytes) → UInt32 → List Bytes × Option UInt32
  | [], _ => ([], none)
  | (key, value) :: rest, totalDocListSize =>
      if maxDocListSize ≤ totalDocListSize then ([], some totalDocListSize)
      else if !prefixKey.isPrefixOf key then ([], none)
      else
        let (values, reached) := prefixValues maxDocListSize prefixKey rest
          (totalDocListSize + value.length.toUInt32)
        (value :: values, reached)

/-- The status after a scan. -/
def prefixStatus (maxDocListSize : UInt32) (status : SearchStatus) :
    Option UInt32 → SearchStatus
  | some size => ⟨kReachMaxDocListSizeLimit,
      "PrefixWeight::GetScorer default MaxDocListSize(" ++
        toString maxDocListSize ++ "), total_doc_list_size(" ++
        toString size ++ ")"⟩
  | none => status

/-- `PrefixWeight::GetScorer`. -/
def prefixScorer (context : SearchContext) (fieldId : FieldID)
    (matchTerm : Bytes) (maxDocListSize : UInt32) (st : ContextState) :
    Option (Option Scorer × ContextState) := do
  let prefixKey := encodeInvertedKey context.table fieldId matchTerm
  let (values, reached) := prefixValues maxDocListSize prefixKey
    (context.snapshot.seek context.op .invertedIndexColumn prefixKey) 0
  let readers ← values.mapM fun value =>
    newDocListReaderCodec value fieldId.toNat
  some (some (.prefixScorer
    (DocIdSetIterator.finishOr (readers.map .reader))),
    { st with status := prefixStatus maxDocListSize st.status reached })

mutual

/-- `CreateWeight` and `GetScorer`. -/
def getScorer (fuel : Nat) (context : SearchContext) :
    Query → ContextState → Option (Option Scorer × ContextState)
  | .booleanQuery fieldId value, st => booleanScorer context fieldId value st
  | .prefixQuery fieldId matchTerm maxDocListSize, st =>
      prefixScorer context fieldId matchTerm maxDocListSize st
  | .andQuery subQuery, st => do
      let (subIterator, st) ← addScorers fuel context subQuery st
      some (subIterator.map .andScorer, st)
  | .orQuery subQuery, st => do
      let (subIterator, st) ← addScorers fuel context subQuery st
      some (subIterator.map .orScorer, st)

/-- The loop of `AndWeight::GetScorer` and `OrWeight::GetScorer`: `AddScorer`
for every part, until one has no scorer. -/
def addScorers (fuel : Nat) (context : SearchContext) :
    List Query → ContextState →
      Option (Option (List DocIdSetIterator) × ContextState)
  | [], st => some (some [], st)
  | query :: rest, st => do
      match ← getScorer fuel context query st with
      | (none, st) => some (none, st)
      | (some scorer, st) => do
          let iterator ← scorer.iterator fuel
          let (subIterator, st) ← addScorers fuel context rest st
          some (subIterator.map (iterator :: ·), st)

end

end Wwsearch.Ref
