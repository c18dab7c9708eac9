import Wwsearch.Spec.Index
import Wwsearch.Spec.Merge

/-!
# What the columns hold

A record is the bytes of a document, and the cell of a term collects lists of
one record each. `Keeps` and `Posts` say that the columns tell of the documents
that a map has: the stored records and the doc-value records of them, and for
every term the ids of those that are indexed under it. A table is `Consistent`
if there is such a map and its records have all the terms.
-/

namespace Wwsearch.Ref

open Wwsearch.Lib

/-- The entries of a column whose keys have the prefix, in order. -/
def prefixEntries (col : Column) (p : Bytes) : List (Bytes × Cell) :=
  col.toList.filter fun x => p.isPrefixOf x.1

end Wwsearch.Ref

namespace Wwsearch.Spec

open Wwsearch.Lib Wwsearch.Ref

/-! ## The cell of a term -/

def listOf (value : Bytes) : List DocList := (docListOf value).getD []

/-- The lists of a cell, oldest first. -/
def cellLists (cell : Option Cell) : List (List DocList) :=
  (cell.getD {}).operands.map listOf

/-- A cell that only ever saw merges of well-formed lists. -/
structure TermCell (cell : Option Cell) : Prop where
  merges : ∀ x ∈ cell, x.base = none ∧ x.operands ≠ []
  stores : ∀ x ∈ cell, ∀ value ∈ x.operands, Stores value (listOf value)

/-- Every cell of the inverted column only ever saw merges of well-formed
lists. -/
def TermColumn (db : VirtualDB) : Prop :=
  ∀ key : Bytes, TermCell (db .invertedIndexColumn)[key]?

/-! ## Records -/

def hasDocValue (doc : Document) : Bool := doc.fields.any (·.flag.docValue)

/-- The cell of a record: none for no document, and else the bytes of the
document. -/
inductive RecordCell (config : IndexConfig) (target : EncodeTarget) :
    Option Document → Option Cell → Prop
  | absent : RecordCell config target none none
  | record {doc : Document} {value : Bytes} {flag : Bool}
      (hser : doc.serializeToBytes config.pb target = some (value, flag))
      (hlen : value.length < 2 ^ 32) :
      RecordCell config target (some doc) (some { base := some value })

/-- Both columns hold the records of `docs`. -/
structure Keeps (config : IndexConfig) (table : TableID) (db : VirtualDB)
    (docs : DocumentID → Option Document) : Prop where
  stored : ∀ d, RecordCell config .storedField (docs d)
    (db .storedFieldColumn)[encodeStoredFieldKey table d]?
  docValue : ∀ d, ∀ doc ∈ (docs d).filter hasDocValue,
    RecordCell config .docValue (some doc)
      (db .docValueColumn)[encodeStoredFieldKey table d]?

/-- No doc-value record outlives its document. -/
def NoStale (table : TableID) (db : VirtualDB)
    (docs : DocumentID → Option Document) : Prop :=
  ∀ d, (docs d).filter hasDocValue = none →
    (db .docValueColumn)[encodeStoredFieldKey table d]? = none

/-- The stored record has all the terms. -/
def TermsStored (doc : Document) : Prop :=
  ∀ field ∈ doc.fields, field.flag.notStoreInvertTerm = false

/-! ## All columns -/

/-- The document of an id is indexed under the term. -/
def HasTerm (config : IndexConfig) (doc : Option Document) (f : FieldID)
    (t : Bytes) : Prop :=
  ∃ x ∈ doc, Indexed config x.fields f t

/-- The live ids of every term are those of the documents that have it. -/
structure Posts (config : IndexConfig) (table : TableID) (db : VirtualDB)
    (docs : DocumentID → Option Document) : Prop where
  cell : ∀ f t, t.length < 2 ^ 32 → TermCell
    (db .invertedIndexColumn)[encodeInvertedKey table f t]?
  live : ∀ f t, t.length < 2 ^ 32 → ∀ d, lastState (cellLists
      (db .invertedIndexColumn)[encodeInvertedKey table f t]?) d =
        some kDocumentStateOK ↔ HasTerm config (docs d) f t

/-- All three columns tell of the same documents, and the records have all the
terms. -/
def Consistent (config : IndexConfig) (table : TableID) (db : VirtualDB) :
    Prop :=
  ∃ docs, Keeps config table db docs ∧ Posts config table db docs ∧
    ∀ d, ∀ doc ∈ docs d, TermsStored doc

end Wwsearch.Spec
