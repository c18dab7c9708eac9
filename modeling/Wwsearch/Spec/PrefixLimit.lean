import Wwsearch.Ref.Query
import Wwsearch.Spec.Columns

/-!
# What a prefix query reports

A prefix query reads the lists of the terms that begin with its prefix, in key
order, until the sizes of the lists add up to its limit. The keys of these
terms are a run of a column that goes on behind them, with other terms, other
fields and other tables. `ReportsTruncation` is what the status is for: it is
set if and only if a term was left out. `WithinLimits` says when it is not set.
-/

namespace Wwsearch.Spec

open Wwsearch.Lib Wwsearch.Ref

section

variable (op : DocListMergeOperator) (table : TableID) (db : VirtualDB)
  (f : FieldID) (start : Bytes) (limit : UInt32)

/-- The terms of the field that begin with `start`, in key order: the bytes of
a term are what its key has behind the table and the field. -/
def termCells : List (Bytes × Cell) :=
  (db .invertedIndexColumn).toList.filter fun x =>
    (encodeInvertedKey table f []).isPrefixOf x.1 &&
      start.isPrefixOf (x.1.drop (encodeInvertedKey table f []).length)

/-- The cells that the iterator of a prefix comes to: those of the prefix, and
the next one. -/
def scanCells : List (Bytes × Cell) :=
  let cells := (db .invertedIndexColumn).toList.filter fun x =>
    compare (encodeInvertedKey table f start) x.1 != .gt
  let same := fun (x : Bytes × Cell) =>
    (encodeInvertedKey table f start).isPrefixOf x.1
  cells.takeWhile same ++ (cells.dropWhile same).take 1

/-- The loop of `GetScorer`: the lists it collects, and the size at which it
reached the limit. -/
def prefixScan : List Bytes × Option UInt32 :=
  prefixValues limit (encodeInvertedKey table f start)
    (db.seek op .invertedIndexColumn (encodeInvertedKey table f start)) 0

/-- The lists are those of the first terms, and the status is set exactly if
these are not all terms. -/
structure ReportsTruncation : Prop where
  initial : (prefixScan op table db f start limit).1.map some =
    ((termCells table db f start).take
      (prefixScan op table db f start limit).1.length).map fun x =>
        VirtualDB.cellValue op x.2
  status : (prefixStatus limit {} (prefixScan op table db f start limit).2).code =
      kReachMaxDocListSizeLimit ↔
    (prefixScan op table db f start limit).1.length <
      (termCells table db f start).length

/-- The size of some lists, in 32 bits. -/
def listsSize (cells : List (Bytes × Cell)) : Nat :=
  (cells.map fun x => ((VirtualDB.cellValue op x.2).getD []).length).sum % 2 ^ 32

/-- The limit is reached with the list of the last term and not before, and a
key stands behind it. -/
structure MetAtTheEnd : Prop where
  before : ∀ k < (termCells table db f start).length,
    listsSize op ((termCells table db f start).take k) < limit.toNat
  reached : limit.toNat ≤ listsSize op (termCells table db f start)
  behind : ∃ key ∈ db .invertedIndexColumn,
    compare (encodeInvertedKey table f start) key = .lt ∧
      ¬ encodeInvertedKey table f start <+: key

/-- The scan comes to the end of the terms: there is room in front of each, and
behind the last one if a key stands there. -/
structure StaysUnder : Prop where
  before : ∀ k < (termCells table db f start).length,
    listsSize op ((termCells table db f start).take k) < limit.toNat
  behind : ∀ key ∈ db .invertedIndexColumn,
    compare (encodeInvertedKey table f start) key = .lt →
    ¬ encodeInvertedKey table f start <+: key →
    listsSize op (termCells table db f start) < limit.toNat

end

/-- No prefix leaf of the tree reaches its limit. -/
def WithinLimits (op : DocListMergeOperator) (table : TableID)
    (db : VirtualDB) : Query → Prop
  | .booleanQuery _ _ => True
  | .prefixQuery f start limit => StaysUnder op table db f start limit
  | .andQuery sub | .orQuery sub => ∀ q ∈ sub, WithinLimits op table db q

end Wwsearch.Spec
