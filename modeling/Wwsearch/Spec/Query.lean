import Wwsearch.Ref.Query
import Wwsearch.Spec.Cursor
import Wwsearch.Spec.Index

/-!
# What a query means

A query tree is an expression over sets of ids. A leaf is the list of a term,
a prefix the union of the lists of all terms that begin with it, `And` is
intersection and `Or` union; without parts both are empty. Nothing of this
depends on order, and a scorer answers its iterator for the same set.
-/

namespace Wwsearch.Spec

open Wwsearch.Lib Wwsearch.Ref

section Denote

variable (op : DocListMergeOperator) (table : TableID) (db : VirtualDB)

/-- The ids of the list that is read for a term. -/
def termIds (f : FieldID) (t : Bytes) : Set DocumentID :=
  { d | ∃ doc ∈ termList op table db f t, doc.docId = d }

/-- The ids that a tree stands for. A term that a key has room for is shorter
than `2 ^ 32` bytes. -/
def denote : Query → Set DocumentID
  | .booleanQuery f value => termIds op table db f value.toTerm
  | .prefixQuery f start _ => { d | ∃ t, start <+: t ∧ t.length < 2 ^ 32 ∧
      d ∈ termIds op table db f t }
  | .andQuery sub => { d | sub ≠ [] ∧ ∀ q ∈ sub, d ∈ denote q }
  | .orQuery sub => { d | ∃ q, ∃ _ : q ∈ sub, d ∈ denote q }

/-- Every list can be read and is descending in ids that are not zero, and
every key is one that a batch takes. -/
structure ReadableIndex : Prop where
  key_length : ∀ key ∈ db .invertedIndexColumn, key.length < 2 ^ 32
  list : ∀ (key : Bytes) (cell : Cell), (db .invertedIndexColumn)[key]? = some cell →
    ∃ value reader, VirtualDB.cellValue op cell = some value ∧
      newDocListReaderCodec value 0 = some reader ∧
      reader.slice.Pairwise (fun a b => b.docId < a.docId) ∧
      ∀ doc ∈ reader.slice, doc.docId ≠ 0

/-- The same of one entry, as a test. -/
def readableEntry (x : Bytes × Cell) : Bool :=
  decide (x.1.length < 2 ^ 32) &&
    match (VirtualDB.cellValue op x.2).bind (newDocListReaderCodec · 0) with
    | some reader =>
        decide (reader.slice.Pairwise fun a b => b.docId < a.docId) &&
          reader.slice.all fun doc => doc.docId != 0
    | none => false

end Denote

/-- No prefix in the tree is too long for a key. -/
def PrefixesFit : Query → Prop
  | .booleanQuery _ _ => True
  | .prefixQuery _ start _ => start.length < 2 ^ 32
  | .andQuery sub | .orQuery sub => ∀ q ∈ sub, PrefixesFit q

/-- The context of a query on a database that nobody writes to, with storage
that answers. -/
def quietContext (config : IndexConfig) (op : DocListMergeOperator)
    (table : TableID) (db : VirtualDB) : SearchContext where
  config := config
  faults := {}
  op := op
  table := table
  snapshot := db
  live := fun _ => db

end Wwsearch.Spec
