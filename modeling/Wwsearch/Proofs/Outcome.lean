import Wwsearch.Proofs.Reading
import Wwsearch.Proofs.StoreWire

/-!
# What the return value of a call means

A call that returns false leaves no trace but in the updaters: the buffer is
dropped before it is flushed, or the flush itself fails as a whole, and the
last loop of `InnerWriteDocuments` marks whoever is still OK
(`innerWriteDocuments_failed`). It does not matter where the call failed, so
the proof never looks into a stage.

A call that returns true has written `batchMutations` of its batch, into the
database or behind what the store buffer held (`innerWriteDocuments_ok`).
-/

namespace Wwsearch.Ref

open Wwsearch.Lib

/-! ## The batch keeps its length -/

theorem length_forEach (step : DocumentUpdater → WriteBuffer →
      DocumentUpdater × WriteBuffer × SearchStatus)
    (documents : List DocumentUpdater) : ∀ buffer : WriteBuffer,
    (forEach step documents buffer).1.length = documents.length := by
  induction documents with
  | nil => intro buffer; rfl
  | cons du rest ih =>
      intro buffer
      simp only [forEach]
      split
      · rw [List.length_cons, List.length_cons, ih]
      · rfl

namespace DocumentWriter

theorem length_runStage (r : List DocumentUpdater × WriteBuffer × SearchStatus)
    (step : DocumentUpdater → WriteBuffer →
      DocumentUpdater × WriteBuffer × SearchStatus) :
    (runStage r step).1.length = r.1.length := by
  rw [runStage]
  split
  · exact length_forEach step r.1 r.2.1
  · rfl

theorem length_buildBatch (config : IndexConfig) (faults : Faults)
    (table : TableID) (documents : List DocumentUpdater)
    (buffer : WriteBuffer) :
    (buildBatch config faults table documents buffer).1.length =
      documents.length := by
  simp only [buildBatch, List.foldl_cons, List.foldl_nil, length_runStage]

/-! ## The document writer -/

section Writer

variable {config : IndexConfig} {faults : Faults} {table : TableID}
  {db : VirtualDB} {storeBuffer : Option StoreBuffer}
  {documents : List DocumentUpdater}

theorem flushBuffer_failed {buffer : WriteBuffer}
    (h : (db.flushBuffer faults buffer).2.ok = false) :
    (db.flushBuffer faults buffer).1 = db := by
  rw [VirtualDB.flushBuffer] at h ⊢
  split at h
  · rfl
  · exact absurd h Bool.noConfusion

theorem flushBuffer_ok {buffer : WriteBuffer}
    (h : (db.flushBuffer faults buffer).2.ok = true) :
    (db.flushBuffer faults buffer).1 = db.applyAll buffer.mutations := by
  rw [VirtualDB.flushBuffer] at h ⊢
  split at h
  · exact absurd h Bool.noConfusion
  · rfl

theorem checkBatchSize_ok {buffer : WriteBuffer} {status : SearchStatus}
    (h : (checkBatchSize config buffer status).ok = true) :
    status.ok = true ∧ buffer.dataSize ≤ config.maxWriteBatchSize.toNat := by
  rw [checkBatchSize] at h
  split at h
  · exact absurd h Bool.noConfusion
  · next hsize => exact ⟨h, not_lt.1 fun hlt => hsize ⟨h, hlt⟩⟩

theorem updateDocuments_failed
    (h : (updateDocuments config faults table db storeBuffer documents).status.ok
      = false) :
    (updateDocuments config faults table db storeBuffer documents).db = db ∧
      (updateDocuments config faults table db storeBuffer
        documents).storeBuffer = storeBuffer := by
  simp only [updateDocuments] at h ⊢
  split at h
  · next hok =>
      rw [if_pos hok]
      cases storeBuffer with
      | none => exact ⟨flushBuffer_failed h, rfl⟩
      | some sb => rw [hok] at h; exact absurd h Bool.noConfusion
  · next hno =>
      rw [if_neg hno]
      exact ⟨rfl, rfl⟩

theorem length_updateDocuments :
    (updateDocuments config faults table db storeBuffer documents).documents.length
      = documents.length := by
  simp only [updateDocuments]
  split
  · cases storeBuffer with
    | none =>
        dsimp only
        split
        · rw [List.length_map, length_buildBatch]
        · rw [length_buildBatch]
    | some sb => exact length_buildBatch config faults table documents _
  · rw [List.length_map, length_buildBatch]

/-- What `*store_buffer` and the database are after a batch that went
through. -/
theorem updateDocuments_ok
    (h : (updateDocuments config faults table db storeBuffer documents).status.ok
      = true) :
    let built := buildBatch config faults table documents
      (WriteBuffer.new storeBuffer)
    let r := updateDocuments config faults table db storeBuffer documents
    built.2.2.ok = true ∧
      built.2.1.dataSize ≤ config.maxWriteBatchSize.toNat ∧
      r.documents = built.1 ∧
      r.db = (if storeBuffer.isNone then db.applyAll built.2.1.mutations
        else db) ∧
      r.storeBuffer = storeBuffer.map (fun _ =>
        StoreBuffer.batch built.2.1.mutations) := by
  simp only [updateDocuments] at h ⊢
  split at h
  · next hok =>
      rw [if_pos hok]
      refine ⟨(checkBatchSize_ok hok).1, (checkBatchSize_ok hok).2, ?_⟩
      cases storeBuffer with
      | none =>
          dsimp only at h ⊢
          refine ⟨?_, flushBuffer_ok h, rfl⟩
          rw [h]
          rfl
      | some sb => exact ⟨rfl, rfl, rfl⟩
  · next hno => exact absurd h hno

end Writer

end DocumentWriter

/-! ## The index writer -/

namespace IndexWriter

theorem markUnfinished_not_ok (du : DocumentUpdater) :
    (markUnfinished du).status.ok = false := by
  rw [markUnfinished]
  split
  · rfl
  · next h => exact Bool.not_eq_true _ ▸ h

theorem writeDocuments_failed {config : IndexConfig} {faults : Faults}
    {table : TableID} {db : VirtualDB} {storeBuffer : Option StoreBuffer}
    {documents : List DocumentUpdater} {ok : Bool}
    (h : (writeDocuments config faults table db storeBuffer documents ok).ok =
      false) :
    let r := writeDocuments config faults table db storeBuffer documents ok
    r.db = db ∧ r.storeBuffer = storeBuffer ∧
      r.documents.length = documents.length ∧
      ∀ du ∈ r.documents, du.status.ok = false := by
  have hmarked : ∀ l : List DocumentUpdater, ∀ du ∈ l.map markUnfinished,
      du.status.ok = false := by
    intro l du hdu
    obtain ⟨x, -, rfl⟩ := List.mem_map.1 hdu
    exact markUnfinished_not_ok x
  cases ok with
  | false => exact ⟨rfl, rfl, List.length_map _, hmarked _⟩
  | true =>
      cases hw : (DocumentWriter.updateDocuments config faults table db
          storeBuffer documents).status.ok with
      | true =>
          simp only [writeDocuments, if_true, hw] at h
          exact absurd h Bool.noConfusion
      | false =>
          obtain ⟨hdb, hsb⟩ := DocumentWriter.updateDocuments_failed hw
          simp only [writeDocuments, if_true, hw, Bool.false_eq_true, if_false]
          refine ⟨hdb, hsb, ?_, hmarked _⟩
          rw [List.length_map]
          exact DocumentWriter.length_updateDocuments

/-- A call that went through: both halves did. -/
theorem writeDocuments_ok {config : IndexConfig} {faults : Faults}
    {table : TableID} {db : VirtualDB} {storeBuffer : Option StoreBuffer}
    {documents : List DocumentUpdater} {ok : Bool}
    (h : (writeDocuments config faults table db storeBuffer documents ok).ok =
      true) :
    let w := DocumentWriter.updateDocuments config faults table db storeBuffer
      documents
    ok = true ∧ w.status.ok = true ∧
      writeDocuments config faults table db storeBuffer documents ok =
        { db := w.db, storeBuffer := w.storeBuffer, documents := w.documents
          ok := true } := by
  cases ok with
  | false => exact absurd h Bool.noConfusion
  | true =>
      cases hw : (DocumentWriter.updateDocuments config faults table db
          storeBuffer documents).status.ok with
      | true =>
          simp only [writeDocuments, if_true, hw]
          exact ⟨trivial, trivial, trivial⟩
      | false =>
          simp only [writeDocuments, if_true, hw, Bool.false_eq_true,
            if_false] at h

/-- A failed call writes nothing. -/
theorem innerWriteDocuments_kept {config : IndexConfig} {faults : Faults}
    {op : DocListMergeOperator} {table : TableID} {db : VirtualDB}
    {storeBuffer : Option StoreBuffer} {mode : DocumentUpdaterType}
    {documents : List DocumentUpdater}
    (h : (innerWriteDocuments config faults op table db storeBuffer mode
      documents).ok = false) :
    let r := innerWriteDocuments config faults op table db storeBuffer mode
      documents
    r.db = db ∧ r.storeBuffer = storeBuffer := by
  obtain ⟨hdb, hsb, -, -⟩ := writeDocuments_failed h
  exact ⟨hdb, hsb⟩

/-- A failed call changes neither the database nor the store buffer, and
leaves every updater of the batch with a status that is not OK. -/
theorem innerWriteDocuments_failed (config : IndexConfig) (faults : Faults)
    (op : DocListMergeOperator) (table : TableID) (db : VirtualDB)
    (storeBuffer : Option StoreBuffer) (mode : DocumentUpdaterType)
    (documents : List DocumentUpdater)
    (h : (innerWriteDocuments config faults op table db storeBuffer mode
      documents).ok = false) :
    let r := innerWriteDocuments config faults op table db storeBuffer mode
      documents
    r.db = db ∧ r.storeBuffer = storeBuffer ∧
      r.documents.length = documents.length ∧
      ∀ du ∈ r.documents, du.status.ok = false := by
  obtain ⟨hdb, hsb, hlen, hstatus⟩ := writeDocuments_failed h
  exact ⟨hdb, hsb, hlen.trans (length_readDocuments documents), hstatus⟩

/-- An add of document 7 together with one that has no id. -/
theorem innerWriteDocuments_failed_zeroId :
    let r := addDocuments spaceConfig {} millionOperator ⟨1, 2⟩ .empty none
      [{ newDocument := ⟨7, []⟩ }, { newDocument := ⟨0, []⟩ }]
    r.ok = false ∧ r.db = .empty ∧ r.documents.length = 2 ∧
      ∀ du ∈ r.documents, du.status.ok = false := by
  have hfail : (addDocuments spaceConfig {} millionOperator ⟨1, 2⟩ .empty none
      [{ newDocument := ⟨7, []⟩ }, { newDocument := ⟨0, []⟩ }]).ok = false := by
    decide +kernel
  obtain ⟨hdb, -, hlen, hstatus⟩ := innerWriteDocuments_failed _ _ _ _ _ _ _ _
    hfail
  exact ⟨hfail, hdb, hlen, hstatus⟩

section Success

variable {config : IndexConfig} {faults : Faults} {op : DocListMergeOperator}
  {table : TableID} {db : VirtualDB} {storeBuffer : Option StoreBuffer}
  {mode : DocumentUpdaterType} {documents : List DocumentUpdater}

/-- Everything about a call that returned true. `read` is the batch between
its two halves. -/
structure Succeeds (config : IndexConfig) (faults : Faults)
    (op : DocListMergeOperator) (table : TableID) (db : VirtualDB)
    (storeBuffer : Option StoreBuffer) (mode : DocumentUpdaterType)
    (documents read : List DocumentUpdater) (r : CallResult) : Prop where
  id_ne_zero : ∀ du ∈ documents, du.newDocument.documentId ≠ 0
  read_eq : read = (readDocuments config faults op table db mode documents).1
  readAs : List.Forall₂ (fun du du' => ReadAs config
      (db.get op .storedFieldColumn
        (encodeStoredFieldKey table du.newDocument.documentId)) mode du du')
    documents read
  tokenizes : ∀ du ∈ read, DocumentWriter.Tokenizes config du
  writable : ∀ du ∈ read,
    DocumentWriter.Writable config (DocumentWriter.ready config du)
  mutations : (DocumentWriter.buildBatch config faults table read
      (WriteBuffer.new storeBuffer)).2.1.mutations =
    (WriteBuffer.new storeBuffer).mutations ++
      DocumentWriter.batchMutations config table
        (read.map (DocumentWriter.ready config))
  db_eq : storeBuffer = none → r.db = db.applyAll
    (DocumentWriter.batchMutations config table
      (read.map (DocumentWriter.ready config)))
  db_kept : storeBuffer ≠ none → r.db = db
  storeBuffer_eq : r.storeBuffer = storeBuffer.map (fun _ => StoreBuffer.batch
    ((WriteBuffer.new storeBuffer).mutations ++
      DocumentWriter.batchMutations config table
        (read.map (DocumentWriter.ready config))))
  documents_eq : r.documents = read.map (fun du =>
    DocumentWriter.docValued config table
      (DocumentWriter.cleared (DocumentWriter.ready config du)))

theorem innerWriteDocuments_eq :
    innerWriteDocuments config faults op table db storeBuffer mode documents =
      writeDocuments config faults table db storeBuffer
        (readDocuments config faults op table db mode documents).1
        (readDocuments config faults op table db mode documents).2 := rfl

theorem innerWriteDocuments_ok
    (h : (innerWriteDocuments config faults op table db storeBuffer mode
      documents).ok = true) :
    Succeeds config faults op table db storeBuffer mode documents
      (readDocuments config faults op table db mode documents).1
      (innerWriteDocuments config faults op table db storeBuffer mode
        documents) := by
  rw [innerWriteDocuments_eq] at h ⊢
  obtain ⟨hread, hstatus, hr⟩ := writeDocuments_ok h
  obtain ⟨hids, hreadAs⟩ := readDocuments_ok hread
  obtain ⟨hbuilt, -, hdocs, hdb, hsb⟩ :=
    DocumentWriter.updateDocuments_ok hstatus
  obtain ⟨hmut, hupd, htok, hwr⟩ := DocumentWriter.buildBatch_ok hbuilt
  refine ⟨hids, rfl, hreadAs, htok, hwr, hmut, ?_, ?_, ?_, ?_⟩
  · intro hnone
    subst hnone
    rw [hr]
    exact hdb.trans (congrArg db.applyAll hmut)
  · intro hsome
    rw [hr]
    exact hdb.trans (if_neg fun hn => hsome (Option.isNone_iff_eq_none.1 hn))
  · rw [hr, ← hmut]
    exact hsb
  · rw [hr, ← hupd]
    exact hdocs

end Success

end IndexWriter

end Wwsearch.Ref
