import Wwsearch.Ref.DocumentWriter

/-!
# The index writer (`index_writer.cpp`)

`InnerWriteDocuments` is the one body behind the six ways to write documents.
It reads the stored records of the whole batch, decides with them which
documents may be written, and hands the batch to the document writer. The
reading and the deciding are `readDocuments` and `updateDocumetStatus`; they
are apart from the writing because another writer can come in between.

`updateDocumetStatus` asks `DocumentExist` of the doc-value read. A read is
never answered with that status, only with OK, not-exist or an error.
-/

namespace Wwsearch.Ref

open Wwsearch.Lib

namespace IndexWriter

/-- One row of the two `MultiGet`s: the stored record and the doc-value
record. -/
structure ReadRow where
  status : SearchStatus
  value : Bytes
  docvalueStatus : SearchStatus
  docvalue : Bytes

/-- `SetUpdateType` and the check for a zero id. -/
def prepare (mode : DocumentUpdaterType) (du : DocumentUpdater) :
    DocumentUpdater :=
  let du := { du with updateType := mode }
  if du.newDocument.documentId = 0 then
    du.setStatus kDocumentIDCanNotZero "document id can not be zero."
  else du

/-- The reads for one document. The doc values are read for an update only,
and the row has an untouched status otherwise. -/
def readDocument (faults : Faults) (op : DocListMergeOperator)
    (table : TableID) (db : VirtualDB) (mode : DocumentUpdaterType)
    (du : DocumentUpdater) : ReadRow :=
  let key := encodeStoredFieldKey table du.newDocument.documentId
  let (status, value) := db.getStatus faults op .storedFieldColumn key
  let (docvalueStatus, docvalue) :=
    if mode = .update ∨ mode = .addOrUpdate then
      db.getStatus faults op .docValueColumn key
    else ({}, [])
  { status, value, docvalueStatus, docvalue }

/-- `Old().DeSerializeFromByte`, and the status it leaves. -/
def decodeOld (config : IndexConfig) (msg : String) (row : ReadRow)
    (du : DocumentUpdater) (ok : Bool) : DocumentUpdater × Bool :=
  match du.oldDocument.deSerializeFromByte config.pb row.value with
  | some oldDocument => ({ du with oldDocument }, ok)
  | none => (du.setStatus kSerializeErrorStatus msg, false)

/-- `OldDocValue().DeSerializeFromByte`, where the status asks for it. -/
def decodeOldDocValue (config : IndexConfig) (row : ReadRow)
    (du : DocumentUpdater) (ok : Bool) : DocumentUpdater × Bool :=
  if ok && row.docvalueStatus.documentExist then
    match du.oldDocValueDocument.deSerializeFromByte config.pb row.docvalue with
    | some oldDocValueDocument => ({ du with oldDocValueDocument }, ok)
    | none => (du.setStatus kSerializeErrorStatus "decode document error", false)
  else (du, ok)

/-- The body of the loop of `UpdateDocumetStatus`: the updater and the `ok`
that is carried through the batch. -/
def updateDocumetStatusStep (config : IndexConfig) (mode : DocumentUpdaterType)
    (row : ReadRow) (du : DocumentUpdater) (ok : Bool) :
    DocumentUpdater × Bool :=
  match mode with
  | .add =>
      if !row.status.documentNotExist then
        if row.status.ok then
          (du.setStatus kDocumentExistStatus "Document exist before add", false)
        else ({ du with status := row.status }, false)
      else (du, ok)
  | .update =>
      if !row.status.ok then ({ du with status := row.status }, false)
      else
        let (du, ok) := decodeOld config "decode document error" row du ok
        decodeOldDocValue config row du ok
  | .addOrUpdate =>
      if row.status.documentNotExist then (du, ok)
      else if !row.status.ok then ({ du with status := row.status }, false)
      else
        let (du, ok) := decodeOld config "decode old document error" row du ok
        decodeOldDocValue config row du ok
  | .delete =>
      if row.status.documentNotExist then ({ du with status := row.status }, ok)
      else if !row.status.ok then ({ du with status := row.status }, false)
      else decodeOld config "decode old document error" row du ok
  | .replace =>
      if !row.status.ok && !row.status.documentNotExist then
        ({ du with status := row.status }, false)
      else if row.status.ok then
        decodeOld config "decode old document error" row du ok
      else (du, ok)
  | .addWithoutRead => (du, ok)

/-- `UpdateDocumetStatus`. -/
def updateDocumetStatus (config : IndexConfig) (mode : DocumentUpdaterType) :
    List (DocumentUpdater × ReadRow) → Bool → List DocumentUpdater × Bool
  | [], ok => ([], ok)
  | (du, row) :: rest, ok =>
      let (du, ok) := updateDocumetStatusStep config mode row du ok
      let (rest, ok) := updateDocumetStatus config mode rest ok
      (du :: rest, ok)

/-- The first half of `InnerWriteDocuments`: what is read, and the batch as
that leaves it. -/
def readDocuments (config : IndexConfig) (faults : Faults)
    (op : DocListMergeOperator) (table : TableID) (db : VirtualDB)
    (mode : DocumentUpdaterType) (documents : List DocumentUpdater) :
    List DocumentUpdater × Bool :=
  let ok := documents.all (·.newDocument.documentId ≠ 0)
  let documents := documents.map (prepare mode)
  if mode = .addWithoutRead then (documents, ok)
  else updateDocumetStatus config mode
    (documents.map fun du => (du, readDocument faults op table db mode du)) ok

/-- What a call of the index writer leaves behind, and what it returns. -/
structure CallResult where
  db : VirtualDB
  storeBuffer : Option StoreBuffer
  documents : List DocumentUpdater
  ok : Bool

/-- The status of a healthy document in a batch that failed. -/
def markUnfinished (du : DocumentUpdater) : DocumentUpdater :=
  if du.status.ok then
    du.setStatus kOtherDocumentErrorStatus
      ("Operation not finish,Some other document meet error in batch " ++
        "documents,Please check other document")
  else du

/-- The second half: the document writer, and the status of the rest of a
batch that failed. -/
def writeDocuments (config : IndexConfig) (faults : Faults) (table : TableID)
    (db : VirtualDB) (storeBuffer : Option StoreBuffer)
    (documents : List DocumentUpdater) (ok : Bool) : CallResult :=
  let r : CallResult :=
    if ok then
      let w := DocumentWriter.updateDocuments config faults table db storeBuffer
        documents
      { db := w.db, storeBuffer := w.storeBuffer, documents := w.documents
        ok := w.status.ok }
    else { db, storeBuffer, documents, ok }
  if r.ok then r else { r with documents := r.documents.map markUnfinished }

/-- `InnerWriteDocuments`. -/
def innerWriteDocuments (config : IndexConfig) (faults : Faults)
    (op : DocListMergeOperator) (table : TableID) (db : VirtualDB)
    (storeBuffer : Option StoreBuffer) (mode : DocumentUpdaterType)
    (documents : List DocumentUpdater) : CallResult :=
  let (documents, ok) := readDocuments config faults op table db mode documents
  writeDocuments config faults table db storeBuffer documents ok

section Api

variable (config : IndexConfig) (faults : Faults) (op : DocListMergeOperator)
  (table : TableID) (db : VirtualDB) (storeBuffer : Option StoreBuffer)
  (documents : List DocumentUpdater)

def addDocuments : CallResult :=
  innerWriteDocuments config faults op table db storeBuffer .add documents

def updateDocuments : CallResult :=
  innerWriteDocuments config faults op table db storeBuffer .update documents

def addOrUpdateDocuments : CallResult :=
  innerWriteDocuments config faults op table db storeBuffer .addOrUpdate
    documents

def replaceDocuments : CallResult :=
  innerWriteDocuments config faults op table db storeBuffer .replace documents

def deleteDocuments : CallResult :=
  innerWriteDocuments config faults op table db storeBuffer .delete documents

def addDocumentsWithoutRead : CallResult :=
  innerWriteDocuments config faults op table db storeBuffer .addWithoutRead
    documents

end Api

end IndexWriter

end Wwsearch.Ref
