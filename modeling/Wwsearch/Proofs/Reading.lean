import Mathlib.Data.List.Forall2
import Wwsearch.Proofs.WriterStages

/-!
# What the reading half decides

`updateDocumetStatus` carries one `ok` through the batch and can only clear it,
so a batch that comes out with it set went through the loop as if every
updater had been alone (`updateDocumetStatus_ok`). For one updater the six
modes then differ in two ways only: which answer of the store they accept, and
whether the old record is decoded. `ReadAs` says both, and `readDocuments_ok`
is the inversion that everything about a successful call starts from.

The doc-value record is fetched and never decoded: the loop asks for
`DocumentExist`, and a read does not answer that (`getStatus_not_exist`). So
`ReadAs` says that the old doc values stay as the caller left them.
-/

namespace Wwsearch.Ref

open Wwsearch.Lib

/-- The three answers of a read. -/
theorem getStatus_cases (faults : Faults) (op : DocListMergeOperator)
    (db : VirtualDB) (column : StorageColumnType) (key : Bytes) :
    (∃ msg, faults.read column key = some msg ∧
      db.getStatus faults op column key = (⟨kRocksDBErrorStatus, msg⟩, [])) ∨
    (∃ value, db.get op column key = some value ∧
      db.getStatus faults op column key = ({}, value)) ∨
    (db.get op column key = none ∧
      db.getStatus faults op column key =
        (⟨kDocumentNotExistStatus, ""⟩, [])) := by
  cases hr : faults.read column key with
  | some msg => exact .inl ⟨msg, rfl, by rw [VirtualDB.getStatus, hr]⟩
  | none =>
      cases hg : db.get op column key with
      | some value =>
          exact .inr (.inl ⟨value, rfl, by rw [VirtualDB.getStatus, hr, hg]⟩)
      | none => exact .inr (.inr ⟨rfl, by rw [VirtualDB.getStatus, hr, hg]⟩)

theorem getStatus_not_exist (faults : Faults) (op : DocListMergeOperator)
    (db : VirtualDB) (column : StorageColumnType) (key : Bytes) :
    (db.getStatus faults op column key).1.documentExist = false := by
  rcases getStatus_cases faults op db column key with
    ⟨msg, -, h⟩ | ⟨value, -, h⟩ | ⟨-, h⟩
  · rw [h]; rfl
  · rw [h]; rfl
  · rw [h]; rfl

namespace IndexWriter

/-! ## The loop -/

theorem decodeOld_ok {config : IndexConfig} {msg : String} {row : ReadRow}
    {du : DocumentUpdater} {ok : Bool}
    (h : (decodeOld config msg row du ok).2 = true) :
    ok = true ∧ ∃ oldDocument,
      du.oldDocument.deSerializeFromByte config.pb row.value =
        some oldDocument ∧
      (decodeOld config msg row du ok).1 = { du with oldDocument } := by
  rw [decodeOld] at h ⊢
  split at h
  · next old hold => exact ⟨h, old, hold, rfl⟩
  · exact absurd h Bool.false_ne_true

theorem decodeOldDocValue_ok {config : IndexConfig} {row : ReadRow}
    {du : DocumentUpdater} {ok : Bool}
    (hrow : row.docvalueStatus.documentExist = false) :
    decodeOldDocValue config row du ok = (du, ok) := by
  rw [decodeOldDocValue, hrow, Bool.and_false]
  exact if_neg Bool.false_ne_true

/-- The loop can only clear the `ok` it carries. -/
theorem updateDocumetStatusStep_carries {config : IndexConfig}
    {mode : DocumentUpdaterType} {row : ReadRow} {du : DocumentUpdater}
    {ok : Bool} (hrow : row.docvalueStatus.documentExist = false)
    (h : (updateDocumetStatusStep config mode row du ok).2 = true) :
    ok = true := by
  cases mode with
  | add =>
      simp only [updateDocumetStatusStep] at h
      split at h
      · split at h
        · exact absurd h Bool.false_ne_true
        · exact absurd h Bool.false_ne_true
      · exact h
  | update =>
      simp only [updateDocumetStatusStep, decodeOldDocValue_ok hrow] at h
      split at h
      · exact absurd h Bool.false_ne_true
      · exact (decodeOld_ok h).1
  | addOrUpdate =>
      simp only [updateDocumetStatusStep, decodeOldDocValue_ok hrow] at h
      split at h
      · exact h
      · split at h
        · exact absurd h Bool.false_ne_true
        · exact (decodeOld_ok h).1
  | delete =>
      simp only [updateDocumetStatusStep] at h
      split at h
      · exact h
      · split at h
        · exact absurd h Bool.false_ne_true
        · exact (decodeOld_ok h).1
  | replace =>
      simp only [updateDocumetStatusStep] at h
      split at h
      · exact absurd h Bool.false_ne_true
      · split at h
        · exact (decodeOld_ok h).1
        · exact h
  | addWithoutRead => exact h

theorem updateDocumetStatus_ok {config : IndexConfig}
    {mode : DocumentUpdaterType} (rows : List (DocumentUpdater × ReadRow)) :
    (∀ r ∈ rows, r.2.docvalueStatus.documentExist = false) → ∀ ok : Bool,
    (updateDocumetStatus config mode rows ok).2 = true →
    ok = true ∧
      (updateDocumetStatus config mode rows ok).1 = rows.map (fun r =>
        (updateDocumetStatusStep config mode r.2 r.1 true).1) ∧
      ∀ r ∈ rows, (updateDocumetStatusStep config mode r.2 r.1 true).2 =
        true := by
  induction rows with
  | nil =>
      intro _ ok h
      exact ⟨h, rfl, fun r hr => absurd hr List.not_mem_nil⟩
  | cons r rest ih =>
      intro hrows ok h
      simp only [updateDocumetStatus] at h ⊢
      obtain ⟨hstep, hdocs, hall⟩ :=
        ih (fun x hx => hrows x (List.mem_cons_of_mem r hx)) _ h
      have hok : ok = true := updateDocumetStatusStep_carries
        (hrows r List.mem_cons_self) hstep
      subst hok
      refine ⟨rfl, ?_, ?_⟩
      · rw [hdocs, List.map_cons]
      · intro x hx
        rcases List.mem_cons.1 hx with rfl | hx
        · exact hstep
        · exact hall x hx

theorem length_updateDocumetStatus (config : IndexConfig)
    (mode : DocumentUpdaterType) (rows : List (DocumentUpdater × ReadRow)) :
    ∀ ok : Bool,
      (updateDocumetStatus config mode rows ok).1.length = rows.length := by
  induction rows with
  | nil => intro ok; rfl
  | cons r rest ih =>
      intro ok
      simp only [updateDocumetStatus, List.length_cons, ih]

/-! ## One updater -/

/-- What a mode asks of the stored record, and the updater it leaves: the old
document is the decoded record where there is one. -/
inductive ReadAs (config : IndexConfig) (stored : Option Bytes)
    (mode : DocumentUpdaterType) (du : DocumentUpdater) :
    DocumentUpdater → Prop
  | unread (h : mode = .addWithoutRead) :
      ReadAs config stored mode du { du with updateType := mode }
  | fresh (hmode : mode = .add ∨ mode = .addOrUpdate ∨ mode = .replace)
      (h : stored = none) :
      ReadAs config stored mode du { du with updateType := mode }
  | gone (hmode : mode = .delete) (h : stored = none) :
      ReadAs config stored mode du
        { du with updateType := mode
                  status := ⟨kDocumentNotExistStatus, ""⟩ }
  | decoded (value : Bytes) (oldDocument : Document)
      (hmode : mode ≠ .add ∧ mode ≠ .addWithoutRead) (h : stored = some value)
      (hold : du.oldDocument.deSerializeFromByte config.pb value =
        some oldDocument) :
      ReadAs config stored mode du { du with updateType := mode, oldDocument }

namespace ReadAs

variable {config : IndexConfig} {stored : Option Bytes}
  {mode : DocumentUpdaterType} {du du' : DocumentUpdater}

theorem newDocument_eq (h : ReadAs config stored mode du du') :
    du'.newDocument = du.newDocument := by
  cases h <;> rfl

theorem updateType_eq (h : ReadAs config stored mode du du') :
    du'.updateType = mode := by
  cases h <;> rfl

theorem status_eq (h : ReadAs config stored mode du du')
    (hmode : mode ≠ .delete) : du'.status = du.status := by
  cases h with
  | gone hdel => exact absurd hdel hmode
  | unread | fresh | decoded => rfl

end ReadAs

section Row

variable {config : IndexConfig} {faults : Faults} {op : DocListMergeOperator}
  {table : TableID} {db : VirtualDB} {mode : DocumentUpdaterType}
  {du : DocumentUpdater}

theorem readDocument_docvalue_not_exist :
    (readDocument faults op table db mode du).docvalueStatus.documentExist =
      false := by
  simp only [readDocument]
  split
  · exact getStatus_not_exist faults op db _ _
  · rfl

/-- A record that was found is decoded, in every mode that gets this far. -/
theorem readAs_decodeOld {stored : Option Bytes} {msg : String} {row : ReadRow}
    (hmode : mode ≠ .add ∧ mode ≠ .addWithoutRead)
    (hstored : stored = some row.value)
    (h : (decodeOld config msg row { du with updateType := mode } true).2 =
      true) :
    ReadAs config stored mode du
      (decodeOld config msg row { du with updateType := mode } true).1 := by
  obtain ⟨-, old, hold, he⟩ := decodeOld_ok h
  rw [he]
  exact .decoded row.value old hmode hstored hold

theorem updateDocumetStatusStep_ok {row : ReadRow} {stored : Option Bytes}
    (hdv : row.docvalueStatus.documentExist = false)
    (hrow : (∃ msg, row.status = ⟨kRocksDBErrorStatus, msg⟩) ∨
      (stored = some row.value ∧ row.status = {}) ∨
      (stored = none ∧ row.status = ⟨kDocumentNotExistStatus, ""⟩))
    (h : (updateDocumetStatusStep config mode row { du with updateType := mode }
      true).2 = true) :
    ReadAs config stored mode du
      (updateDocumetStatusStep config mode row { du with updateType := mode }
        true).1 := by
  rcases hrow with ⟨msg, hst⟩ | ⟨hs, hst⟩ | ⟨hs, hst⟩
  -- a read error ends the call in every mode that reads
  · cases mode with
    | addWithoutRead => exact .unread rfl
    | add | update | addOrUpdate | delete | replace =>
        simp [updateDocumetStatusStep, hst, SearchStatus.ok,
          SearchStatus.documentNotExist, kRocksDBErrorStatus,
          kDocumentNotExistStatus] at h
  · cases mode with
    | addWithoutRead => exact .unread rfl
    | add =>
        simp [updateDocumetStatusStep, hst, SearchStatus.ok, kOK,
          SearchStatus.documentNotExist, kDocumentNotExistStatus] at h
    | update =>
        simp only [updateDocumetStatusStep, hst, decodeOldDocValue_ok hdv] at h ⊢
        exact readAs_decodeOld (by decide) hs h
    | addOrUpdate =>
        simp only [updateDocumetStatusStep, hst, decodeOldDocValue_ok hdv] at h ⊢
        exact readAs_decodeOld (by decide) hs h
    | delete =>
        simp only [updateDocumetStatusStep, hst] at h ⊢
        exact readAs_decodeOld (by decide) hs h
    | replace =>
        simp only [updateDocumetStatusStep, hst] at h ⊢
        exact readAs_decodeOld (by decide) hs h
  · cases mode with
    | addWithoutRead => exact .unread rfl
    | update =>
        simp [updateDocumetStatusStep, hst, SearchStatus.ok,
          kDocumentNotExistStatus] at h
    | add =>
        simp only [updateDocumetStatusStep, hst]
        exact .fresh (by decide) hs
    | addOrUpdate =>
        simp only [updateDocumetStatusStep, hst]
        exact .fresh (by decide) hs
    | replace =>
        simp only [updateDocumetStatusStep, hst]
        exact .fresh (by decide) hs
    | delete =>
        simp only [updateDocumetStatusStep, hst]
        exact .gone rfl hs

theorem readDocument_cases :
    (∃ msg, (readDocument faults op table db mode du).status =
      ⟨kRocksDBErrorStatus, msg⟩) ∨
    (db.get op .storedFieldColumn
        (encodeStoredFieldKey table du.newDocument.documentId) =
          some (readDocument faults op table db mode du).value ∧
      (readDocument faults op table db mode du).status = {}) ∨
    (db.get op .storedFieldColumn
        (encodeStoredFieldKey table du.newDocument.documentId) = none ∧
      (readDocument faults op table db mode du).status =
        ⟨kDocumentNotExistStatus, ""⟩) := by
  simp only [readDocument]
  rcases getStatus_cases faults op db .storedFieldColumn
    (encodeStoredFieldKey table du.newDocument.documentId) with
    ⟨msg, -, h⟩ | ⟨value, hget, h⟩ | ⟨hget, h⟩
  · exact .inl ⟨msg, by rw [h]⟩
  · exact .inr (.inl ⟨by rw [h, hget], by rw [h]⟩)
  · exact .inr (.inr ⟨hget, by rw [h]⟩)

theorem prepare_of_ne_zero (h : du.newDocument.documentId ≠ 0) :
    prepare mode du = { du with updateType := mode } := if_neg h

end Row

/-! ## The batch -/

section Batch

variable {config : IndexConfig} {faults : Faults} {op : DocListMergeOperator}
  {table : TableID} {db : VirtualDB} {mode : DocumentUpdaterType}

/-- A batch that is handed to the document writer: every updater was read as
its mode asks. -/
theorem readDocuments_ok {documents : List DocumentUpdater}
    (h : (readDocuments config faults op table db mode documents).2 = true) :
    (∀ du ∈ documents, du.newDocument.documentId ≠ 0) ∧
      List.Forall₂ (fun du du' => ReadAs config
          (db.get op .storedFieldColumn
            (encodeStoredFieldKey table du.newDocument.documentId)) mode du du')
        documents
        (readDocuments config faults op table db mode documents).1 := by
  have hprep : ∀ du ∈ documents, du.newDocument.documentId ≠ 0 →
      prepare mode du = { du with updateType := mode } :=
    fun du _ hid => prepare_of_ne_zero hid
  have hids : documents.all (·.newDocument.documentId ≠ 0) = true →
      ∀ du ∈ documents, du.newDocument.documentId ≠ 0 := by
    intro hall du hdu
    exact of_decide_eq_true (List.all_eq_true.1 hall du hdu)
  simp only [readDocuments] at h ⊢
  by_cases hmode : mode = .addWithoutRead
  · rw [if_pos hmode] at h ⊢
    refine ⟨hids h, ?_⟩
    rw [List.forall₂_map_right_iff, List.forall₂_same]
    intro du hdu
    rw [hprep du hdu (hids h du hdu)]
    exact .unread hmode
  · rw [if_neg hmode] at h ⊢
    obtain ⟨hok, hdocs, hall⟩ := updateDocumetStatus_ok _
      (by
        intro r hr
        obtain ⟨du, -, rfl⟩ := List.mem_map.1 hr
        exact readDocument_docvalue_not_exist) _ h
    refine ⟨hids hok, ?_⟩
    rw [hdocs, List.map_map, List.map_map, List.forall₂_map_right_iff,
      List.forall₂_same]
    intro du hdu
    have hrow := hall _ (List.mem_map_of_mem (List.mem_map_of_mem hdu))
    simp only [Function.comp_apply, hprep du hdu (hids hok du hdu)] at hrow ⊢
    exact updateDocumetStatusStep_ok readDocument_docvalue_not_exist
      readDocument_cases hrow

theorem length_readDocuments (documents : List DocumentUpdater) :
    (readDocuments config faults op table db mode documents).1.length =
      documents.length := by
  simp only [readDocuments]
  split
  · exact List.length_map _
  · rw [length_updateDocumetStatus, List.length_map, List.length_map]

end Batch

/-! ## Reading without faults -/

/-- A mode gets past the stored record, with storage that answers: an add
wants none, an update wants one, and one that is found is decoded. -/
structure Readable (config : IndexConfig) (stored : Option Bytes)
    (mode : DocumentUpdaterType) (du : DocumentUpdater) : Prop where
  absent : mode = .add → stored = none
  present : mode = .update → stored.isSome
  decodes : ∀ value, stored = some value →
    (du.oldDocument.deSerializeFromByte config.pb value).isSome

theorem decodeOld_isOk {config : IndexConfig} {msg : String} {row : ReadRow}
    {du : DocumentUpdater}
    (h : (du.oldDocument.deSerializeFromByte config.pb row.value).isSome) :
    (decodeOld config msg row du true).2 = true := by
  obtain ⟨old, hold⟩ := Option.isSome_iff_exists.1 h
  rw [decodeOld, hold]

section Progress

variable {config : IndexConfig} {op : DocListMergeOperator} {table : TableID}
  {db : VirtualDB} {mode : DocumentUpdaterType}

theorem updateDocumetStatusStep_isOk {du : DocumentUpdater}
    (h : Readable config (db.get op .storedFieldColumn
      (encodeStoredFieldKey table du.newDocument.documentId)) mode du) :
    (updateDocumetStatusStep config mode
      (readDocument {} op table db mode du) du true).2 = true := by
  have hdv : (readDocument {} op table db mode
      du).docvalueStatus.documentExist = false :=
    readDocument_docvalue_not_exist
  cases hget : db.get op .storedFieldColumn
      (encodeStoredFieldKey table du.newDocument.documentId) with
  | none =>
      rw [hget] at h
      have hst : (readDocument {} op table db mode du).status =
          ⟨kDocumentNotExistStatus, ""⟩ := by
        simp only [readDocument, VirtualDB.getStatus, hget]
      cases mode with
      | update => exact absurd (h.present rfl) Bool.false_ne_true
      | add | addOrUpdate | delete | replace | addWithoutRead =>
          simp [updateDocumetStatusStep, hst, SearchStatus.ok,
            SearchStatus.documentNotExist, kDocumentNotExistStatus]
  | some value =>
      rw [hget] at h
      have hst : (readDocument {} op table db mode du).status = {} := by
        simp only [readDocument, VirtualDB.getStatus, hget]
      have hvalue : (readDocument {} op table db mode du).value = value := by
        simp only [readDocument, VirtualDB.getStatus, hget]
      have hdec : ∀ msg, (decodeOld config msg
          (readDocument {} op table db mode du) du true).2 = true := by
        intro msg
        refine decodeOld_isOk ?_
        rw [hvalue]
        exact h.decodes value rfl
      cases mode with
      | add => exact absurd (h.absent rfl) (Option.some_ne_none value)
      | update | addOrUpdate =>
          simp only [updateDocumetStatusStep, hst, decodeOldDocValue_ok hdv]
          exact hdec _
      | delete | replace =>
          simp only [updateDocumetStatusStep, hst]
          exact hdec _
      | addWithoutRead => rfl

theorem updateDocumetStatus_isOk {rows : List (DocumentUpdater × ReadRow)}
    (h : ∀ r ∈ rows,
      (updateDocumetStatusStep config mode r.2 r.1 true).2 = true) :
    (updateDocumetStatus config mode rows true).2 = true := by
  induction rows with
  | nil => rfl
  | cons r rest ih =>
      simp only [updateDocumetStatus, h r List.mem_cons_self]
      exact ih fun x hx => h x (List.mem_cons_of_mem r hx)

/-- The batch is handed on if every one of its updaters can be read. -/
theorem readDocuments_isOk {documents : List DocumentUpdater}
    (hids : ∀ du ∈ documents, du.newDocument.documentId ≠ 0)
    (h : ∀ du ∈ documents, Readable config (db.get op .storedFieldColumn
      (encodeStoredFieldKey table du.newDocument.documentId)) mode du) :
    (readDocuments config {} op table db mode documents).2 = true := by
  have hall : documents.all (·.newDocument.documentId ≠ 0) = true := by
    rw [List.all_eq_true]
    exact fun du hdu => decide_eq_true (hids du hdu)
  simp only [readDocuments, hall]
  split
  · rfl
  · refine updateDocumetStatus_isOk fun r hr => ?_
    obtain ⟨x, hx, rfl⟩ := List.mem_map.1 hr
    obtain ⟨du, hdu, rfl⟩ := List.mem_map.1 hx
    rw [prepare_of_ne_zero (hids du hdu)]
    have hdu := h du hdu
    exact updateDocumetStatusStep_isOk
      ⟨hdu.absent, hdu.present, hdu.decodes⟩

end Progress

end IndexWriter

end Wwsearch.Ref
