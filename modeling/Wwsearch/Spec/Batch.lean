import Wwsearch.Spec.DocumentMap

/-!
# What a batch writes

No stage of a batch changes what the mutations of a later one depend on, so what
is written for an updater is a function of the updater as it stands after the
old fields were copied. With a fresh updater that depends on the document and
the stored record alone.

`Undisturbed` are the calls that nothing but the map can refuse.
-/

namespace Wwsearch.Ref

open Wwsearch.Lib Wwsearch.Spec

namespace DocumentWriter

/-! ## The stages as functions of the updater -/

def tokenized (config : IndexConfig) (du : DocumentUpdater) : DocumentUpdater :=
  if ¬ du.delete ∧ du.status.ok then
    { du with newDocument := (config.tokenizer.do' du.newDocument).1 }
  else du

def mergedOld (du : DocumentUpdater) : DocumentUpdater :=
  if du.updateType = .delete ∨ du.updateType = .replace then du
  else { du with newDocument :=
      copyOldFields du.newDocument du.oldDocument.fields }

/-- The updater as the writing stages find it. -/
def ready (config : IndexConfig) (du : DocumentUpdater) : DocumentUpdater :=
  mergedOld (tokenized config du)

def storedMutations (config : IndexConfig) (table : TableID)
    (du : DocumentUpdater) : List Mutation :=
  let key := encodeStoredFieldKey table du.newDocument.documentId
  if du.status.ok then
    if du.delete then [.delete .storedFieldColumn key]
    else
      match du.newDocument.serializeToBytes config.pb .storedField with
      | some (value, _) => [.put .storedFieldColumn key value]
      | none => []
  else []

def invertedMutations (config : IndexConfig) (table : TableID)
    (du : DocumentUpdater) : List Mutation :=
  if du.status.ok then termMutations config table du else []

def deleteOldMutations (table : TableID) (du : DocumentUpdater) :
    List Mutation :=
  if du.oldDocument.fields.any (·.flag.docValue) then
    [.delete .docValueColumn
      (encodeStoredFieldKey table du.newDocument.documentId)]
  else []

def docValueMutations (config : IndexConfig) (table : TableID)
    (du : DocumentUpdater) : List Mutation :=
  if du.status.ok then
    if du.delete then deleteOldMutations table du
    else
      match (newDocValue du).serializeToBytes config.pb .docValue with
      | some (value, true) => [.put .docValueColumn
          (encodeStoredFieldKey table du.newDocument.documentId) value]
      | some (_, false) => deleteOldMutations table du
      | none => []
  else []

def batchMutations (config : IndexConfig) (table : TableID)
    (documents : List DocumentUpdater) : List Mutation :=
  documents.flatMap (storedMutations config table) ++
    documents.flatMap (invertedMutations config table) ++
    documents.flatMap (docValueMutations config table)

/-- Both records of the document can be serialized. -/
structure Serializes (config : IndexConfig) (du : DocumentUpdater) : Prop where
  stored : du.status.ok = true → du.delete = false →
    (du.newDocument.serializeToBytes config.pb .storedField).isSome
  docValue : du.status.ok = true → du.delete = false →
    ((newDocValue du).serializeToBytes config.pb .docValue).isSome

/-! ## The two sides of an updater -/

/-- The new side, which a delete does not have. -/
def NewTerm (config : IndexConfig) (du : DocumentUpdater) (f : FieldID)
    (t : Bytes) : Prop :=
  du.delete = false ∧ Indexed config du.newDocument.fields f t

def OldTerm (config : IndexConfig) (du : DocumentUpdater) (f : FieldID)
    (t : Bytes) : Prop :=
  Indexed config du.oldDocument.fields f t

end DocumentWriter

end Wwsearch.Ref

namespace Wwsearch.Spec

open Wwsearch.Lib Wwsearch.Ref Wwsearch.Ref.DocumentWriter

/-! ## Calls with fresh updaters -/

section Call

variable (config : IndexConfig) (op : DocListMergeOperator) (table : TableID)
  (db : VirtualDB)

/-- The document that the mode reads for an id. -/
def readOld (mode : DocumentUpdaterType) (d : DocumentID) : Option Document :=
  if mode = .addWithoutRead then none else storedDocument config op table db d

/-- A fresh updater after the reading half of a call that goes on. -/
def readUpdater (mode : DocumentUpdaterType) (document : Document) :
    DocumentUpdater :=
  let old := readOld config op table db mode document.documentId
  { newDocument := document
    updateType := mode
    oldDocument := old.getD {}
    status := if mode = .delete ∧ old.isNone then
        ⟨kDocumentNotExistStatus, ""⟩
      else {} }

/-- The same updater as the writing stages find it. -/
def readyUpdater (mode : DocumentUpdaterType) (document : Document) :
    DocumentUpdater :=
  ready config (readUpdater config op table db mode document)

def callMutations (c : WriteCall) : List Mutation :=
  batchMutations config table
    (c.documents.map (readyUpdater config op table db c.mode))

/-- Storage and tokenizer succeed, and a batch that gets as far as being
built has records that can be serialized and stays under the limit. -/
structure Undisturbed (c : WriteCall) : Prop where
  faults : c.faults = {}
  storeBuffer : c.storeBuffer = none
  reads : c.mode ≠ .addWithoutRead
  id_ne_zero : ∀ document ∈ c.documents, document.documentId ≠ 0
  tokenizes : ∀ document ∈ c.documents, (config.tokenizer.do' document).2 = true
  serializes : (c.mapWrite config).accepted (documentMap config op table db) →
    ∀ document ∈ c.documents, Serializes config
      (readyUpdater config op table db c.mode document)
  size_le : (c.mapWrite config).accepted (documentMap config op table db) →
    WriteBuffer.dataSize ⟨callMutations config op table db c⟩ ≤
      config.maxWriteBatchSize.toNat

end Call

/-- Every call of a run is undisturbed where it is made. -/
def UndisturbedRun (config : IndexConfig) (op : DocListMergeOperator)
    (table : TableID) (calls : List WriteCall) : Prop :=
  ∀ before c after, calls = before ++ c :: after →
    Undisturbed config op table (runCalls config op table .empty before) c

end Wwsearch.Spec
