import Wwsearch.Spec.Columns
import Wwsearch.Spec.Operations
import Wwsearch.Spec.Paging

/-!
# What one table shows

All tables share the columns, and a table is what has its nine bytes in front.
`SameTable` says that two databases hold the same of a table. A query on it can
tell them apart in one way only: at the limit of a prefix leaf, where it is
said whether there was another key, and that key may be another table's.

Every key of the log column starts with the business type and the partition set
of a table, and whoever wants to know the tables of a business type asks for the
sets page by page until the cursor is zero again. A page has one set for each
key, and the next page starts with the set that the cursor is at, so a set can
be listed more than once; what is asked is which sets are listed at all.
-/

namespace Wwsearch.Spec

open Wwsearch.Lib Wwsearch.Ref

/-- Every key of the table holds the same in both. -/
def SameTable (table : TableID) (db db' : VirtualDB) : Prop :=
  ∀ column key, encodeMetaKey table <+: key →
    (db' column)[key]? = (db column)[key]?

/-- Every key of the table has the same value in both, or none, or is not
there. -/
def SameReads (op : DocListMergeOperator) (table : TableID)
    (db db' : VirtualDB) : Prop :=
  ∀ column key, encodeMetaKey table <+: key →
    ((db' column)[key]?).map (VirtualDB.cellValue op) =
      ((db column)[key]?).map (VirtualDB.cellValue op)

/-- Every key is long enough to be one of a table. -/
def LongKeys (db : VirtualDB) : Prop :=
  ∀ (column : StorageColumnType) (key : Bytes), (db column)[key]? ≠ none →
    9 ≤ key.length

/-- A query on a table of a database that nobody writes to. -/
def tableContext (config : IndexConfig) (faults : Faults)
    (op : DocListMergeOperator) (table : TableID) (db : VirtualDB) :
    SearchContext where
  config := config
  faults := faults
  op := op
  table := table
  snapshot := db
  live _ := db

/-- The status without the one for a prefix leaf at its limit. -/
def asideLimit (status : SearchStatus) : SearchStatus :=
  if status.code = kReachMaxDocListSizeLimit then {} else status

/-- Two results of a query that differ at most in that status. -/
structure SameButLimit (r r' : Searcher.QueryResult) : Prop where
  docs : r.docs = r'.docs
  getMatchTotalCnt : r.getMatchTotalCnt = r'.getMatchTotalCnt
  status : asideLimit r.status = asideLimit r'.status

/-! ## Copies of a table -/

/-- What an iterator shows of the table. -/
def tableEntries (op : DocListMergeOperator) (table : TableID)
    (db : VirtualDB) (column : StorageColumnType) : List (Bytes × Bytes) :=
  readableEntries op (prefixEntries (db column) (encodeMetaKey table))

/-- A call of `ScanTableData` without its cursor. -/
structure ScanCall where
  faults : Faults := {}
  maxLen : Nat
  maxBufferSize : Nat

section Scan

variable (op : DocListMergeOperator) (table : TableID) (db : VirtualDB)
  (column : StorageColumnType)

def ScanCall.perform (c : ScanCall) (startKey : Bytes) :
    Searcher.ScanResult :=
  Searcher.scanTableData c.faults op table db column startKey c.maxLen []
    c.maxBufferSize

/-- The entry of the table that a page comes to first: keys that are too short
are passed over, and a key of another table ends the page. -/
def nextEntry (startKey : Bytes) : Option (Bytes × Bytes) :=
  ((Searcher.scanEntries op db column (encodeMetaKey table)
    startKey).dropWhile fun x =>
      x.1.length < (encodeMetaKey table).length).head?.filter
    fun x => (encodeMetaKey table).isPrefixOf x.1

end Scan

/-! ## Deletions of a table -/

/-- Every key of the table has a value. Operands that do not merge stop the
process in the merge operator, and so every call that comes to them. -/
def Mergeable (op : DocListMergeOperator) (table : TableID) (db : VirtualDB)
    (column : StorageColumnType) : Prop :=
  ∀ key, encodeMetaKey table <+: key → (db column)[key]? ≠ none →
    (db.get op column key).isSome

/-- A call of `DeleteTableData` without its cursor. -/
structure DeleteCall where
  faults : Faults := {}
  maxLen : Nat

section Delete

variable (op : DocListMergeOperator) (table : TableID)
  (column : StorageColumnType)

def DeleteCall.perform (c : DeleteCall) (db : VirtualDB) (startKey : Bytes) :
    IndexWriter.DeleteResult :=
  IndexWriter.deleteTableData c.faults op table db column startKey c.maxLen

/-- The database and the cursor before each call of a loop that starts with an
empty one, and no one else writes. -/
def deleteState (db : VirtualDB) (calls : Nat → DeleteCall) :
    Nat → VirtualDB × Bytes
  | 0 => (db, [])
  | n + 1 =>
      let r := (calls n).perform op table column (deleteState db calls n).1
        (deleteState db calls n).2
      (r.db, r.startKey)

/-- The call that the loop makes there. -/
def deleteCall (db : VirtualDB) (calls : Nat → DeleteCall) (n : Nat) :
    IndexWriter.DeleteResult :=
  (calls n).perform op table column (deleteState op table column db calls n).1
    (deleteState op table column db calls n).2

end Delete

/-! ## Cursors -/

/-- The entry fits into the buffer by itself, but not behind the header of an
empty batch. -/
def FitsOnlyAlone (maxBufferSize : Nat) (x : Bytes × Bytes) : Prop :=
  x.1.length + x.2.length ≤ maxBufferSize ∧
    maxBufferSize < 12 + (x.1.length + x.2.length)

/-! ## The tables of a business type -/

section Sets

variable (op : DocListMergeOperator) (db : VirtualDB) (businessType : UInt8)

/-- Every key of the business type has a partition set and a value. -/
structure NamesSets : Prop where
  long : ∀ key, [businessType] <+: key →
    (db .paxosLogMetaColumn)[key]? ≠ none → 9 ≤ key.length
  readable : ∀ key, [businessType] <+: key →
    (db .paxosLogMetaColumn)[key]? ≠ none →
      (db.get op .paxosLogMetaColumn key).isSome

/-- How many keys a partition set has. -/
def setKeys (partitionSet : UInt64) : Nat :=
  (prefixEntries (db .paxosLogMetaColumn)
    (encodeMetaKey ⟨businessType, partitionSet⟩)).length

/-- The loop of a caller, from a cursor and the sets it has on; every call
returns OK, and nobody writes to the column. -/
inductive SetListing (maxLen : Nat) :
    UInt64 → List UInt64 → List UInt64 → Prop
  | last {start : UInt64} {sets : List UInt64}
      {r : Searcher.BusinessTypeResult} :
      Searcher.scanBusinessType op db businessType start maxLen sets = some r →
      r.status.ok = true → r.startPartitionSet = 0 →
      SetListing maxLen start sets r.sets
  | next {start : UInt64} {sets out : List UInt64}
      {r : Searcher.BusinessTypeResult} :
      Searcher.scanBusinessType op db businessType start maxLen sets = some r →
      r.status.ok = true → r.startPartitionSet ≠ 0 →
      SetListing maxLen r.startPartitionSet r.sets out →
      SetListing maxLen start sets out

end Sets

end Wwsearch.Spec
