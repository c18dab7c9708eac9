import Std.Data.ExtTreeSet.Lemmas
import Wwsearch.Ref.Types

/-!
# Fields, documents and updaters (`index_field.cpp`, `document.cpp`)

A document is its id and its fields; a field has its flags, its type, a value
and the set of its terms. `EncodeToStoreField` and `DecodeFromStoreField` turn
a field into the message that is written to disk and back, and they are not
inverse to each other: a value is written only when the flag for the column at
hand is set, and read whenever either of the two flags is.

The protocol-buffer library is vendored under `deps` and too large to embed.
What is used of it is `StorePb`: bytes for a message, a message for bytes, and
the two facts about the pair that every reader of a stored record relies on. A
message is written verbatim, so no term in it is longer than the whole, and what
was written is read back.
-/

namespace Wwsearch.Ref

open Wwsearch.Lib

/-- `std::set<std::string>`, in byte order. -/
abbrev TermSet := Std.ExtTreeSet Bytes

/-- `kIndexFieldType`; a decoded field can carry any number here. -/
structure IndexFieldType where
  code : UInt32
  deriving DecidableEq, Repr, Inhabited

def kIndexFieldUnknowType : IndexFieldType := ⟨0⟩
def kUint32IndexField : IndexFieldType := ⟨1⟩
def kUint64IndexField : IndexFieldType := ⟨2⟩
def kStringIndexField : IndexFieldType := ⟨3⟩

structure IndexFieldFlag where
  flag : UInt8 := 0
  deriving DecidableEq, Repr, Inhabited

namespace IndexFieldFlag

def tokenize (f : IndexFieldFlag) : Bool := f.flag &&& 1 != 0
def storedField (f : IndexFieldFlag) : Bool := f.flag &&& 2 != 0
def docValue (f : IndexFieldFlag) : Bool := f.flag &&& 4 != 0
def suffixBuild (f : IndexFieldFlag) : Bool := f.flag &&& 8 != 0
def invertIndex (f : IndexFieldFlag) : Bool := f.flag &&& 16 != 0
def notStoreInvertTerm (f : IndexFieldFlag) : Bool := f.flag &&& 32 != 0

end IndexFieldFlag

structure IndexField where
  fieldId : FieldID := 255
  flag : IndexFieldFlag := {}
  fieldType : IndexFieldType := kIndexFieldUnknowType
  numericValue : UInt64 := 0
  stringValue : Bytes := []
  useOuterSegmentTerms : Bool := false
  terms : TermSet := ∅
  suffixLen : UInt32 := 0
  numericList : List UInt64 := []

/-! ## Messages -/

/-- `lsmsearch::StoreIndexField`. -/
structure StoreIndexField where
  fieldId : UInt32
  fieldFlag : UInt32
  fieldType : UInt32
  numericValue : Option UInt64 := none
  stringValue : Option Bytes := none
  terms : List Bytes := []
  suffixLen : Option UInt32 := none
  deriving DecidableEq, Repr

/-- `lsmsearch::StoreDocument`. -/
structure StoreDocument where
  documentId : UInt64
  fields : List StoreIndexField
  deriving DecidableEq, Repr

/-- `SerializeToString` and `ParseFromArray` of `lsmsearch::StoreDocument`.
Serializing fails on a message past the library's size limit. -/
structure StorePb where
  serialize : StoreDocument → Option Bytes
  parse : Bytes → Option StoreDocument
  parse_serialize : ∀ {message bytes}, serialize message = some bytes →
    parse bytes = some message
  term_length_le : ∀ {message bytes}, serialize message = some bytes →
    ∀ field ∈ message.fields, ∀ term ∈ field.terms, term.length ≤ bytes.length

/-- The column a record is encoded for: the `int flag` of the source. -/
inductive EncodeTarget where
  | storedField
  | docValue
  deriving DecidableEq, Repr

namespace IndexField

def encodeToStoreField (field : IndexField) (target : EncodeTarget) :
    StoreIndexField :=
  let needValue : Bool :=
    match target with
    | .storedField => field.flag.storedField
    | .docValue => field.flag.docValue
  { fieldId := field.fieldId.toUInt32
    fieldFlag := field.flag.flag.toUInt32
    fieldType := field.fieldType.code
    stringValue :=
      if needValue ∧ field.fieldType = kStringIndexField then
        some field.stringValue
      else none
    numericValue :=
      if needValue ∧ (field.fieldType = kUint32IndexField ∨
          field.fieldType = kUint64IndexField) then
        some field.numericValue
      else none
    terms :=
      if target = .storedField ∧ ¬ field.flag.notStoreInvertTerm then
        field.terms.toList
      else []
    suffixLen := if field.suffixLen ≠ 0 then some field.suffixLen else none }

/-- `DecodeFromStoreField` on a new field. -/
def decodeFromStoreField (field : StoreIndexField) : IndexField :=
  let flag : IndexFieldFlag := ⟨field.fieldFlag.toUInt8⟩
  let fieldType : IndexFieldType := ⟨field.fieldType⟩
  let needValue := flag.storedField || flag.docValue
  { fieldId := field.fieldId.toUInt8
    flag
    fieldType
    stringValue :=
      if needValue ∧ fieldType = kStringIndexField then
        field.stringValue.getD []
      else []
    numericValue :=
      if needValue ∧ (fieldType = kUint32IndexField ∨
          fieldType = kUint64IndexField) then
        field.numericValue.getD 0
      else 0
    terms := Std.ExtTreeSet.ofList field.terms
    suffixLen :=
      if flag.suffixBuild then
        let suffixLen := field.suffixLen.getD 0
        if suffixLen = 0 then 5 else suffixLen
      else 0 }

end IndexField

/-! ## Documents -/

structure Document where
  documentId : DocumentID := 0
  fields : List IndexField := []

namespace Document

def findField (doc : Document) (fieldId : FieldID) : Option IndexField :=
  doc.fields.find? (fun field => field.fieldId == fieldId)

def addField (doc : Document) (field : IndexField) : Document :=
  { doc with fields := doc.fields ++ [field] }

/-- The fields that `SerializeToBytes` encodes. -/
def encodeFields (doc : Document) : EncodeTarget → List StoreIndexField
  | .storedField => doc.fields.map (·.encodeToStoreField .storedField)
  | .docValue => (doc.fields.filter (·.flag.docValue)).map
      (·.encodeToStoreField .docValue)

/-- `SerializeToBytes`: the bytes and `have_field`. -/
def serializeToBytes (pb : StorePb) (doc : Document) (target : EncodeTarget) :
    Option (Bytes × Bool) := do
  let fields := doc.encodeFields target
  let buffer ← pb.serialize ⟨doc.documentId, fields⟩
  some (buffer, !fields.isEmpty)

/-- `DeSerializeFromByte` into `doc`: the fields are added to the ones it has.
The buffer's length is passed as a `uint32_t`. -/
def deSerializeFromByte (pb : StorePb) (doc : Document) (buffer : Bytes) :
    Option Document := do
  let message ← pb.parse (buffer.take buffer.length.toUInt32.toNat)
  some { documentId := message.documentId
         fields := doc.fields ++
           message.fields.map IndexField.decodeFromStoreField }

/-- `BuildDocValue` into `doc`. -/
def buildDocValue (doc document : Document) : Document :=
  { documentId := document.documentId
    fields := doc.fields ++ document.fields.filter (·.flag.docValue) }

end Document

/-! ## Updaters -/

inductive DocumentUpdaterType where
  | add
  | update
  | addOrUpdate
  | delete
  | replace
  | addWithoutRead
  deriving DecidableEq, Repr

structure DocumentUpdater where
  status : SearchStatus := {}
  oldDocument : Document := {}
  newDocument : Document := {}
  oldDocValueDocument : Document := {}
  newDocValueDocument : Document := {}
  updateType : DocumentUpdaterType := .add

namespace DocumentUpdater

def delete (du : DocumentUpdater) : Bool := du.updateType = .delete

def needMergeDocValue (du : DocumentUpdater) : Bool :=
  du.updateType = .update || du.updateType = .addOrUpdate

def setStatus (du : DocumentUpdater) (code : Int) (msg : String) :
    DocumentUpdater :=
  { du with status := ⟨code, msg⟩ }

end DocumentUpdater

end Wwsearch.Ref
