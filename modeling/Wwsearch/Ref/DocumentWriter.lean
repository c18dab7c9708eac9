import Wwsearch.Ref.Storage
import Wwsearch.Ref.Tokenizer
import Wwsearch.Ref.Utf8

/-!
# The document writer (`document_writer.cpp`)

`UpdateDocuments` takes a batch of updaters through its stages: tokenize, copy
the old fields, put the stored record, merge the inverted index, put the
doc-value record, check the size of the batch, and flush. Each stage is a loop
over the updaters with a step for one of them; a step that fails ends the loop,
and what it did to its own updater and to the write buffer stays. `forEach` is
that loop.

The status of an updater is an output and a gate at once. Every writing step
first looks whether it is OK, and so does the tokenizer; `MergeOldField` alone
does not.

The parse that `WriteStoredField` runs on its own bytes feeds a log line and an
assertion that it succeeds; both are left out, and so are the two stages for
table and dictionary meta data, which return OK and do nothing.
-/

namespace Wwsearch.Ref

open Wwsearch.Lib

structure IndexConfig where
  pb : StorePb
  tokenizer : Tokenizer
  compressionType : DocListCompressionType
  maxSuffixTermSize : UInt32
  maxWriteBatchSize : UInt32
  maxInnerPurgeBatchDocsCount : UInt32 := 10000
  maxInnerPurgeDocsTotalLimit : UInt32 := 50000

/-- `for (auto du : documents)` with a `break` on the first status that is not
OK. -/
def forEach
    (step : DocumentUpdater → WriteBuffer →
      DocumentUpdater × WriteBuffer × SearchStatus) :
    List DocumentUpdater → WriteBuffer →
      List DocumentUpdater × WriteBuffer × SearchStatus
  | [], buffer => ([], buffer, {})
  | du :: rest, buffer =>
      let (du, buffer, status) := step du buffer
      if status.ok then
        let (rest, buffer, status) := forEach step rest buffer
        (du :: rest, buffer, status)
      else (du :: rest, buffer, status)

namespace DocumentWriter

/-! ## Before the writing -/

/-- `RunTokenizer`. -/
def tokenizeStep (config : IndexConfig) (du : DocumentUpdater)
    (buffer : WriteBuffer) : DocumentUpdater × WriteBuffer × SearchStatus :=
  if du.delete then (du, buffer, {})
  else if du.status.ok then
    let (newDocument, ret) := config.tokenizer.do' du.newDocument
    let du := { du with newDocument }
    if ret then (du, buffer, {})
    else
      let du := du.setStatus kTokenizerErrorStatus "tokenizer error"
      (du, buffer, du.status)
  else (du, buffer, {})

/-- The fields of `old` that `new` has no field for, one for each id. -/
def copyOldFields (new : Document) (old : List IndexField) : Document :=
  old.foldl (fun new field =>
    if (new.findField field.fieldId).isNone then new.addField field else new) new

/-- `MergeOldField`. -/
def mergeOldFieldStep (du : DocumentUpdater) (buffer : WriteBuffer) :
    DocumentUpdater × WriteBuffer × SearchStatus :=
  if du.updateType = .delete ∨ du.updateType = .replace then (du, buffer, {})
  else
    ({ du with newDocument :=
        copyOldFields du.newDocument du.oldDocument.fields }, buffer, {})

/-! ## The stored column -/

def putStoredField (config : IndexConfig) (faults : Faults) (table : TableID)
    (du : DocumentUpdater) (buffer : WriteBuffer) :
    WriteBuffer × SearchStatus :=
  let documentKey := encodeStoredFieldKey table du.newDocument.documentId
  if !du.delete then
    match du.newDocument.serializeToBytes config.pb .storedField with
    | some (value, _) =>
        buffer.append faults (.put .storedFieldColumn documentKey value)
    | none => (buffer,
        ⟨kSerializeErrorStatus, "Serialize kStoredFieldColumn error"⟩)
  else buffer.append faults (.delete .storedFieldColumn documentKey)

/-- `WriteStoredField`. -/
def writeStoredFieldStep (config : IndexConfig) (faults : Faults)
    (table : TableID) (du : DocumentUpdater) (buffer : WriteBuffer) :
    DocumentUpdater × WriteBuffer × SearchStatus :=
  if du.status.ok then
    let (buffer, status) := putStoredField config faults table du buffer
    ({ du with status }, buffer, status)
  else (du, buffer, {})

/-! ## The inverted column -/

/-- The terms that one term of a field is indexed under. The default length is
for fields that were written without one. -/
def expandTerm (config : IndexConfig) (field : IndexField) (term : Bytes) :
    List Bytes :=
  if field.flag.suffixBuild ∧ field.fieldType = kStringIndexField ∧
      term.length ≤ config.maxSuffixTermSize.toNat then
    let suffixLen := if field.suffixLen ≠ 0 then field.suffixLen else 5
    UTF8SuffixBuilder.terms term.length (.init term suffixLen)
  else [term]

def expandedTerms (config : IndexConfig) (field : IndexField) : List Bytes :=
  (field.terms.toList.filter (· ≠ [])).flatMap (expandTerm config field)

/-- `std::map<FieldID, TermFlagPairList>`. -/
abbrev FieldTerms := Std.ExtTreeMap FieldID (Std.ExtTreeMap Bytes UInt8)

/-- `term_match[term] |= bit`. -/
def matchTerm (fieldId : FieldID) (bit : UInt8) (fieldTerms : FieldTerms)
    (term : Bytes) : FieldTerms :=
  let termMatch := (fieldTerms[fieldId]?).getD ∅
  fieldTerms.insert fieldId
    (termMatch.insert term ((termMatch[term]?).getD 0 ||| bit))

/-- All terms of all fields of one side, under the side's bit. -/
def matchFields (config : IndexConfig) (bit : UInt8) (fields : List IndexField)
    (fieldTerms : FieldTerms) : FieldTerms :=
  fields.foldl (fun fieldTerms field =>
    (expandedTerms config field).foldl (matchTerm field.fieldId bit)
      fieldTerms) fieldTerms

/-- Bit one for the new document, unless it is deleted, and bit two for the
old one. -/
def fieldTermsOf (config : IndexConfig) (du : DocumentUpdater) : FieldTerms :=
  let fieldTerms :=
    if !du.delete then matchFields config 1 du.newDocument.fields ∅ else ∅
  matchFields config 2 du.oldDocument.fields fieldTerms

/-- The merge for one term, or none for a term on both sides. A list of one
record is always written; the source asserts it. -/
def termMutation (config : IndexConfig) (table : TableID)
    (documentId : DocumentID) (fieldId : FieldID) (term : Bytes)
    (flag : UInt8) : Option Mutation :=
  if flag = 1 ∨ flag = 2 then
    let state := if flag = 1 then kDocumentStateOK else kDocumentStateDelete
    match writeDocList config.compressionType [⟨documentId, state⟩] with
    | some (_, value) => some (.merge .invertedIndexColumn
        (encodeInvertedKey table fieldId term) value)
    | none => none
  else none

/-- The merges of one updater, in the order of the two maps. -/
def termMutations (config : IndexConfig) (table : TableID)
    (du : DocumentUpdater) : List Mutation :=
  (fieldTermsOf config du).toList.flatMap fun (fieldId, termMatch) =>
    termMatch.toList.filterMap fun (term, flag) =>
      termMutation config table du.newDocument.documentId fieldId term flag

/-- `write_buffer.Merge` for one after the other, until one fails. -/
def appendAll (faults : Faults) :
    List Mutation → WriteBuffer → WriteBuffer × SearchStatus
  | [], buffer => (buffer, {})
  | m :: rest, buffer =>
      let (buffer, status) := buffer.append faults m
      if status.ok then appendAll faults rest buffer else (buffer, status)

/-- `WriteInvertedIndex`; it never touches the updater. -/
def writeInvertedIndexStep (config : IndexConfig) (faults : Faults)
    (table : TableID) (du : DocumentUpdater) (buffer : WriteBuffer) :
    DocumentUpdater × WriteBuffer × SearchStatus :=
  if du.status.ok then
    let (buffer, status) :=
      appendAll faults (termMutations config table du) buffer
    (du, buffer, status)
  else (du, buffer, {})

/-! ## The doc-value column -/

/-- `MergeDocvalue`: the new ids are collected before anything is added. -/
def mergeDocvalue (oldDocvalue newDocvalue : Document) : Document :=
  { newDocvalue with fields := newDocvalue.fields ++
      oldDocvalue.fields.filter fun field =>
        (newDocvalue.findField field.fieldId).isNone }

/-- `NewDocValue()` as `WriteDocValue` builds it. -/
def newDocValue (du : DocumentUpdater) : Document :=
  let newDocvalue := du.newDocValueDocument.buildDocValue du.newDocument
  if du.needMergeDocValue then mergeDocvalue du.oldDocValueDocument newDocvalue
  else newDocvalue

/-- `need_delete_old`: a record is deleted if the old document had one. -/
def deleteOldDocValue (faults : Faults) (table : TableID)
    (du : DocumentUpdater) (buffer : WriteBuffer) :
    WriteBuffer × SearchStatus :=
  if du.oldDocument.fields.any (·.flag.docValue) then
    buffer.append faults (.delete .docValueColumn
      (encodeStoredFieldKey table du.newDocument.documentId))
  else (buffer, du.status)

def putDocValue (config : IndexConfig) (faults : Faults) (table : TableID)
    (du : DocumentUpdater) (buffer : WriteBuffer) :
    WriteBuffer × SearchStatus :=
  if !du.delete then
    match (newDocValue du).serializeToBytes config.pb .docValue with
    | some (value, true) => buffer.append faults (.put .docValueColumn
        (encodeStoredFieldKey table du.newDocument.documentId) value)
    | some (_, false) => deleteOldDocValue faults table du buffer
    | none => (buffer,
        ⟨kSerializeErrorStatus, "Serialize kDocValueColumn error"⟩)
  else deleteOldDocValue faults table du buffer

/-- `WriteDocValue`. -/
def writeDocValueStep (config : IndexConfig) (faults : Faults)
    (table : TableID) (du : DocumentUpdater) (buffer : WriteBuffer) :
    DocumentUpdater × WriteBuffer × SearchStatus :=
  if du.status.ok then
    let (buffer, status) := putDocValue config faults table du buffer
    ({ du with newDocValueDocument := newDocValue du, status }, buffer,
      if status.ok then {} else status)
  else (du, buffer, {})

/-! ## The batch -/

/-- A stage runs only after an OK status. -/
def runStage (r : List DocumentUpdater × WriteBuffer × SearchStatus)
    (step : DocumentUpdater → WriteBuffer →
      DocumentUpdater × WriteBuffer × SearchStatus) :
    List DocumentUpdater × WriteBuffer × SearchStatus :=
  if r.2.2.ok then forEach step r.1 r.2.1 else r

/-- The stages up to the size check. -/
def buildBatch (config : IndexConfig) (faults : Faults) (table : TableID)
    (documents : List DocumentUpdater) (buffer : WriteBuffer) :
    List DocumentUpdater × WriteBuffer × SearchStatus :=
  [tokenizeStep config, mergeOldFieldStep,
    writeStoredFieldStep config faults table,
    writeInvertedIndexStep config faults table,
    writeDocValueStep config faults table].foldl runStage
      (documents, buffer, {})

/-- The check of the batch against `GetMaxWriteBatchSize`. -/
def checkBatchSize (config : IndexConfig) (buffer : WriteBuffer)
    (status : SearchStatus) : SearchStatus :=
  if status.ok ∧ config.maxWriteBatchSize.toNat < buffer.dataSize then
    ⟨kDocumentTooLargeStatus, "Document Too Large for write batch"⟩
  else status

/-- What a call leaves behind. -/
structure WriteResult where
  db : VirtualDB
  storeBuffer : Option StoreBuffer
  documents : List DocumentUpdater
  status : SearchStatus

/-- `DocumentWriter::UpdateDocuments`. The loop after a failed flush looks for
updaters that are not OK, and gives those the status of the flush. -/
def updateDocuments (config : IndexConfig) (faults : Faults) (table : TableID)
    (db : VirtualDB) (storeBuffer : Option StoreBuffer)
    (documents : List DocumentUpdater) : WriteResult :=
  let (documents, buffer, status) :=
    buildBatch config faults table documents (WriteBuffer.new storeBuffer)
  let status := checkBatchSize config buffer status
  if status.ok then
    match storeBuffer with
    | none =>
        let (db, status) := db.flushBuffer faults buffer
        let documents :=
          if !status.ok then documents.map fun du =>
            if !du.status.ok then { du with status } else du
          else documents
        { db, storeBuffer, documents, status }
    | some _ =>
        { db, storeBuffer := some (.batch buffer.mutations), documents, status }
  else
    { db, storeBuffer, status
      documents := documents.map fun du =>
        if du.status.ok then du.setStatus kOtherDocumentErrorStatus status.msg
        else du }

end DocumentWriter

end Wwsearch.Ref
