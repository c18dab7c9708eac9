import Wwsearch.Lib.Utf8Text
import Wwsearch.Ref.IndexWriter

/-!
# A table and the calls that write it

What a reader can see of a table: the document that the stored record of an id
decodes to, the one its doc-value record decodes to, and the ids in the list of
a term. A `WriteCall` is a call of the index writer with fresh updaters, of
different documents; whatever goes wrong in it is up to its `faults`.
`runCalls` is a serial run.

A field with suffixes indexes a term under several of its ends, so that a query
for a prefix finds what is inside of the term. Only ends that start at a
character are taken, and besides the term itself only ends of a minimal length.
What a query can find in a term is what occurs at one of these places.
-/

namespace Wwsearch.Ref

/-- `SuffixLen()` with its default. -/
def IndexField.effectiveSuffixLen (field : IndexField) : UInt32 :=
  if field.suffixLen ≠ 0 then field.suffixLen else 5

end Wwsearch.Ref

namespace Wwsearch.Spec

open Wwsearch.Lib Wwsearch.Ref

/-! ## The table -/

section Table

variable (config : IndexConfig) (op : DocListMergeOperator) (table : TableID)
  (db : VirtualDB)

/-- The document of a record, as `GetStoredFields` and `GetDocValue` decode
it. -/
def recordOf (column : StorageColumnType) (d : DocumentID) : Option Document :=
  (db.get op column (encodeStoredFieldKey table d)).bind
    (Document.deSerializeFromByte config.pb {})

def storedDocument : DocumentID → Option Document :=
  recordOf config op table db .storedFieldColumn

def docValueDocument : DocumentID → Option Document :=
  recordOf config op table db .docValueColumn

/-- The list that is read for a term; no list is an empty one. -/
def termList (f : FieldID) (t : Bytes) : List DocList :=
  ((db.get op .invertedIndexColumn (encodeInvertedKey table f t)).bind
    docListOf).getD []

end Table

/-- The value of a field of a known type. -/
inductive FieldValue where
  | string (s : Bytes)
  | numeric (n : UInt64)
  | unknown
  deriving DecidableEq, Repr

def valueOf (field : IndexField) : FieldValue :=
  if field.fieldType = kStringIndexField then .string field.stringValue
  else if field.fieldType = kUint32IndexField ∨
      field.fieldType = kUint64IndexField then
    .numeric field.numericValue
  else .unknown

/-- The value of a field that was never set: empty, or zero. -/
def defaultValue (fieldType : IndexFieldType) : FieldValue :=
  valueOf { fieldType }

/-- The value that the doc-value record has for a field. -/
def docValueOf (config : IndexConfig) (op : DocListMergeOperator)
    (table : TableID) (db : VirtualDB) (d : DocumentID) (f : FieldID) :
    Option FieldValue :=
  ((docValueDocument config op table db d).bind (·.findField f)).map valueOf

/-- Some field with the id `f` is indexed under the term. -/
def Indexed (config : IndexConfig) (fields : List IndexField) (f : FieldID)
    (t : Bytes) : Prop :=
  ∃ field ∈ fields, field.fieldId = f ∧
    t ∈ DocumentWriter.expandedTerms config field

instance decidableIndexed (config : IndexConfig) (fields : List IndexField)
    (f : FieldID) (t : Bytes) : Decidable (Indexed config fields f t) :=
  inferInstanceAs (Decidable (∃ field ∈ fields, field.fieldId = f ∧
    t ∈ DocumentWriter.expandedTerms config field))

/-! ## Substrings found by prefixes -/

/-- The terms that one term of a field is indexed under; an empty one is
skipped. -/
def indexedTerms (config : IndexConfig) (field : IndexField) (t : Bytes) :
    List Bytes :=
  if t = [] then [] else DocumentWriter.expandTerm config field t

/-- `p` occurs in `t` where a character starts, and that is the start of `t` or
has the minimal length behind it. -/
def OccursFrom (suffixLen : Nat) (t p : Bytes) : Prop :=
  ∃ i, Utf8Text.StartsAt t i ∧ p <+: t.drop i ∧
    (i = 0 ∨ suffixLen ≤ t.length - i)

/-- The test of a prefix scan, on the key of an indexed term. -/
def ScanHits (table : TableID) (fieldId : FieldID) (p term : Bytes) : Prop :=
  (encodeInvertedKey table fieldId p).isPrefixOf
    (encodeInvertedKey table fieldId term) = true

/-- Prefixes of the indexed terms are substrings of the term. -/
structure SuffixSearch (config : IndexConfig) (table : TableID)
    (field : IndexField) (t p : Bytes) : Prop where
  starts : (∃ term ∈ indexedTerms config field t, p <+: term) ↔
    OccursFrom field.effectiveSuffixLen.toNat t p
  hits : field.effectiveSuffixLen.toNat ≤ p.length →
    ((∃ term ∈ indexedTerms config field t,
      ScanHits table field.fieldId p term) ↔ p <:+: t)

/-! ## The calls -/

structure WriteCall where
  mode : DocumentUpdaterType
  faults : Faults := {}
  storeBuffer : Option StoreBuffer := none
  documents : List Document
  distinct : (documents.map (·.documentId)).Nodup

namespace WriteCall

variable (config : IndexConfig) (op : DocListMergeOperator) (table : TableID)

/-- A fresh updater for each document. -/
def updaters (c : WriteCall) : List DocumentUpdater :=
  c.documents.map fun document => { newDocument := document }

def perform (db : VirtualDB) (c : WriteCall) : IndexWriter.CallResult :=
  IndexWriter.innerWriteDocuments config c.faults op table db c.storeBuffer
    c.mode c.updaters

end WriteCall

/-- Every call is in one of the modes that read what they write over. -/
def ReadFirst (calls : List WriteCall) : Prop :=
  ∀ c ∈ calls, c.mode ≠ .addWithoutRead

/-- The database after a serial run of calls. -/
def runCalls (config : IndexConfig) (op : DocListMergeOperator)
    (table : TableID) (db : VirtualDB) (calls : List WriteCall) : VirtualDB :=
  calls.foldl (fun db c => (c.perform config op table db).db) db

end Wwsearch.Spec
