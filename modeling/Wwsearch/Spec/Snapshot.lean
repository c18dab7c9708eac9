import Mathlib.Order.Monotone.Basic
import Wwsearch.Spec.Paging

/-!
# What a query sees while others write

A call of `DoQuery` takes a snapshot, and then reads: the list of every leaf in
the order of the tree, and the records of the documents it collects. A
`CallHistory` has what happens to the database meanwhile: the batches that are
flushed, each as a whole, and how many of them the database has at every read
that goes past the snapshot.

`SeenIn` says that a state of the database would have shown the call what it
was shown.
-/

namespace Wwsearch.Spec

open Wwsearch.Lib Wwsearch.Ref

structure CallHistory where
  start : VirtualDB
  batches : List (List Mutation)
  readAt : Nat → Nat
  mono : Monotone readAt

namespace CallHistory

variable (h : CallHistory)

/-- The database after `k` of the batches. -/
def state (k : Nat) : VirtualDB := h.start.applyAll (h.batches.take k).flatten

/-- The context of the call. -/
def context (config : IndexConfig) (faults : Faults)
    (op : DocListMergeOperator) (table : TableID) : SearchContext where
  config := config
  faults := faults
  op := op
  table := table
  snapshot := h.start
  live n := h.state (h.readAt n)

end CallHistory

/-- The same call where every read sees one state. -/
def onState (context : SearchContext) (db : VirtualDB) : SearchContext :=
  { context with snapshot := db, live := fun _ => db }

/-! ## The reads of a call -/

mutual

/-- The leaves of a tree, in the order in which they are read. -/
def leaves : Query → List Query
  | .booleanQuery fieldId value => [.booleanQuery fieldId value]
  | .prefixQuery fieldId matchTerm maxDocListSize =>
      [.prefixQuery fieldId matchTerm maxDocListSize]
  | .andQuery subQuery => leavesOf subQuery
  | .orQuery subQuery => leavesOf subQuery

def leavesOf : List Query → List Query
  | [] => []
  | query :: rest => leaves query ++ leavesOf rest

end

/-- The key that a Boolean leaf reads. -/
def booleanKey (table : TableID) : Query → Option Bytes
  | .booleanQuery fieldId value =>
      some (encodeInvertedKey table fieldId value.toTerm)
  | .prefixQuery _ _ _ | .andQuery _ | .orQuery _ => none

/-- The keys of the reads that go past the snapshot, in their order. -/
def booleanKeys (table : TableID) (leaves : List Query) : List Bytes :=
  leaves.filterMap (booleanKey table)

/-- What the scan of a prefix leaf finds. -/
def scanned (context : SearchContext) (db : VirtualDB) (fieldId : FieldID)
    (matchTerm : Bytes) (maxDocListSize : UInt32) :
    List Bytes × Option UInt32 :=
  let prefixKey := encodeInvertedKey context.table fieldId matchTerm
  prefixValues maxDocListSize prefixKey
    (db.seek context.op .invertedIndexColumn prefixKey) 0

/-- Every leaf finds in `db` what it finds in the call, where `reads` reads
have gone past the snapshot before. -/
structure LeavesSeenIn (context : SearchContext) (db : VirtualDB)
    (leaves : List Query) (reads : Nat) : Prop where
  booleans : ∀ i key, (booleanKeys context.table leaves)[i]? = some key →
    (context.live (reads + i)).get context.op .invertedIndexColumn key =
      db.get context.op .invertedIndexColumn key
  scans : ∀ fieldId matchTerm maxDocListSize,
    Query.prefixQuery fieldId matchTerm maxDocListSize ∈ leaves →
    scanned context context.snapshot fieldId matchTerm maxDocListSize =
      scanned context db fieldId matchTerm maxDocListSize

/-- The records of one column are the same in both. -/
def RecordsSeenIn (context : SearchContext) (db : VirtualDB)
    (column : StorageColumnType) : Prop :=
  ∀ d, context.snapshot.get context.op column
      (encodeStoredFieldKey context.table d) =
    db.get context.op column (encodeStoredFieldKey context.table d)

/-- Every read of the call finds in `db` what it finds in the call. -/
structure SeenIn {σ : Type} (context : SearchContext)
    (a : Searcher.QueryArgs σ) (db : VirtualDB) : Prop where
  leaves : LeavesSeenIn context db (leaves a.query) 0
  docValues : (a.sorter.isNone && a.filter.isNone &&
      a.scoreStrategyList.isEmpty) = false →
    RecordsSeenIn context db .docValueColumn
  stored : a.scoreStrategyList.isEmpty = false →
    RecordsSeenIn context db .storedFieldColumn

end Wwsearch.Spec
