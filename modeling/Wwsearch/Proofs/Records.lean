import Wwsearch.Proofs.CallEffect
import Wwsearch.Spec.Columns

/-!
# The records of a table

A run is followed by a map from ids to the documents as they were last
written, before anything was encoded. Both records of an id are records of
that one document (`Keeps`): the stored record of the document itself, and the
doc-value record of it where it has a field flagged DocValue. A call writes
for each of its documents what `writtenDocument` says, from the document it is
given and the one it reads, and `keeps_applyAll` is the step lemma.

The old doc-value record has no part in this. It is never decoded, so what
`MergeDocvalue` merges in is empty (`newDocValue_fresh`).
-/

namespace Wwsearch.Spec

open Wwsearch.Lib Wwsearch.Ref Wwsearch.Ref.DocumentWriter

/-! ## The document that is written -/

/-- The document that a call other than a delete writes: the given fields with
their terms, and the old fields that are not given, unless it replaces. -/
def writtenDocument (config : IndexConfig) (mode : DocumentUpdaterType)
    (document : Document) (old : Option Document) : Document :=
  let new := (config.tokenizer.do' document).1
  if mode = .replace then new else copyOldFields new (old.getD {}).fields

/-- What a mode reads where `doc` was written. -/
def oldFor (mode : DocumentUpdaterType) (doc : Option Document) :
    Option Document :=
  if mode = .addWithoutRead then none
  else doc.map (Document.reread .storedField)

/-- The document of an id after a call that has `document` for it. -/
def nextDocument (config : IndexConfig) (mode : DocumentUpdaterType)
    (document : Document) (doc : Option Document) : Option Document :=
  if mode = .delete then none
  else some (writtenDocument config mode document (oldFor mode doc))

/-- The documents after a call, from those before it. -/
def nextDocuments (config : IndexConfig) (c : WriteCall)
    (docs : DocumentID → Option Document) (d : DocumentID) : Option Document :=
  match c.documentFor d with
  | none => docs d
  | some document => nextDocument config c.mode document (docs d)

variable {config : IndexConfig} {op : DocListMergeOperator} {table : TableID}
  {db : VirtualDB} {mode : DocumentUpdaterType} {document : Document}

theorem readyUpdater_newDocument (hmode : mode ≠ .delete) :
    (readyUpdater config op table db mode document).newDocument =
      writtenDocument config mode document
        (readOld config op table db mode document.documentId) := by
  have hdel : (readUpdater config op table db mode document).delete = false :=
    decide_eq_false hmode
  have hok : (readUpdater config op table db mode document).status.ok = true := by
    rw [readUpdater, if_neg fun h => hmode h.1]
    rfl
  rw [readyUpdater, ready, tokenized, if_pos ⟨by simp [hdel], hok⟩, mergedOld,
    writtenDocument]
  by_cases hrep : mode = .replace
  · rw [if_pos hrep, if_pos (.inr hrep)]
    rfl
  · rw [if_neg hrep, if_neg fun h => h.elim hmode hrep]
    rfl

theorem readyUpdater_oldDocument :
    (readyUpdater config op table db mode document).oldDocument =
      (readOld config op table db mode document.documentId).getD {} :=
  ready_oldDocument config _

theorem readyUpdater_delete :
    (readyUpdater config op table db mode document).delete =
      decide (mode = .delete) :=
  ready_delete config _

/-- An updater is passed over only where there is nothing to delete. -/
theorem readyUpdater_ok :
    (readyUpdater config op table db mode document).status.ok = true ↔
      (mode = .delete →
        (readOld config op table db mode document.documentId).isSome) := by
  rw [readyUpdater, ready_status, readUpdater]
  by_cases hdel : mode = .delete
  · cases hold : readOld config op table db mode document.documentId with
    | none => simp [hdel, SearchStatus.ok, kDocumentNotExistStatus]
    | some old => simp [hdel, SearchStatus.ok, kOK]
  · simp [hdel, SearchStatus.ok, kOK]

theorem mergeDocvalue_empty (new : Document) : mergeDocvalue {} new = new := by
  rw [mergeDocvalue, List.filter_nil, List.append_nil]

theorem newDocValue_fresh :
    let new := (readyUpdater config op table db mode document).newDocument
    newDocValue (readyUpdater config op table db mode document) =
      { documentId := new.documentId, fields := new.recordFields .docValue } := by
  obtain ⟨hold, hnew⟩ := ready_docValues config
    (readUpdater config op table db mode document)
  rw [newDocValue, readyUpdater, hold, hnew]
  split
  · exact mergeDocvalue_empty _
  · rfl

/-- The doc values of an updater are serialized as those of its document. -/
theorem serializeToBytes_newDocValue :
    (newDocValue (readyUpdater config op table db mode
      document)).serializeToBytes config.pb .docValue =
        (readyUpdater config op table db mode
          document).newDocument.serializeToBytes config.pb .docValue := by
  rw [newDocValue_fresh]
  simp only [Document.serializeToBytes, Document.encodeFields,
    Document.recordFields, List.filter_filter, Bool.and_self]

/-! ## Values -/

theorem valueOf_reread (target : EncodeTarget) (field : IndexField) :
    valueOf (field.reread target) =
      if field.carries target then valueOf field
      else defaultValue field.fieldType := by
  rw [valueOf, IndexField.reread_stringValue, IndexField.reread_numericValue,
    IndexField.reread_fieldType, defaultValue, valueOf, valueOf]
  cases hc : field.carries target with
  | true => simp only [true_and, if_true]; split_ifs <;> rfl
  | false => simp

/-! ## Records and cells -/

theorem RecordCell.decode {target : EncodeTarget} {doc : Option Document}
    {cell : Option Cell} (h : RecordCell config target doc cell) :
    (cell.bind (VirtualDB.cellValue op)).bind
      (Document.deSerializeFromByte config.pb {}) =
        doc.map (Document.reread target) := by
  cases h with
  | absent => rfl
  | record hser hlen =>
      exact Document.deSerializeFromByte_serializeToBytes hser hlen

theorem Keeps.storedDocument {docs : DocumentID → Option Document}
    (h : Keeps config table db docs) (d : DocumentID) :
    storedDocument config op table db d =
      (docs d).map (Document.reread .storedField) :=
  (h.stored d).decode

theorem Keeps.readOld {docs : DocumentID → Option Document}
    (h : Keeps config table db docs) (d : DocumentID) :
    readOld config op table db mode d = oldFor mode (docs d) := by
  rw [Spec.readOld, oldFor, h.storedDocument]

theorem Keeps.docValueDocument {docs : DocumentID → Option Document}
    (h : Keeps config table db docs) {d : DocumentID} {doc : Document}
    (hdoc : doc ∈ (docs d).filter hasDocValue) :
    docValueDocument config op table db d = some (doc.reread .docValue) :=
  (h.docValue d doc hdoc).decode

theorem keeps_empty : Keeps config table .empty (fun _ => none) where
  stored d := by
    rw [VirtualDB.empty, Std.ExtTreeMap.getElem?_empty]
    exact .absent
  docValue d := fun _ h => nomatch h

theorem noStale_empty : NoStale table .empty (fun _ => none) := by
  intro d _
  rw [VirtualDB.empty, Std.ExtTreeMap.getElem?_empty]

/-! ## The step -/

theorem nextDocuments_of_some {c : WriteCall} {d : DocumentID}
    {docs : DocumentID → Option Document}
    (h : c.documentFor d = some document) :
    nextDocuments config c docs d =
      nextDocument config c.mode document (docs d) := by
  rw [nextDocuments, h]

/-- The cells that the mutations of one document leave. -/
theorem recordCell_stored {doc : Option Document} {cell : Option Cell}
    (h : Admitted config op table db mode document)
    (hcell : RecordCell config .storedField doc cell)
    (hdoc : readOld config op table db mode document.documentId =
      oldFor mode doc) :
    RecordCell config .storedField (nextDocument config mode document doc)
      ((storedMutations config table
        (readyUpdater config op table db mode document)).foldl
          Mutation.applyCell cell) := by
  rw [storedMutations, readyUpdater_delete, nextDocument]
  by_cases hdel : mode = .delete
  · rw [if_pos hdel]
    split
    · rw [if_pos (decide_eq_true hdel)]
      exact .absent
    · next hno =>
        -- nothing was deleted because nothing is there
        have hnone : doc = none := by
          rw [readyUpdater_ok, hdoc, hdel] at hno
          cases doc with
          | none => rfl
          | some _ => exact absurd (fun _ => rfl) hno
        rw [hnone] at hcell
        exact hcell
  · have hok : (readyUpdater config op table db mode document).status.ok =
        true := readyUpdater_ok.2 fun h => absurd h hdel
    obtain ⟨value, flag, hser, hlen⟩ := h.writable.stored hok
      (readyUpdater_delete.trans (decide_eq_false hdel))
    rw [if_neg hdel, if_pos hok, if_neg (by simpa using hdel), hser, ← hdoc,
      ← readyUpdater_newDocument hdel]
    exact .record hser hlen

theorem hasDocValue_reread (doc : Document) :
    hasDocValue (doc.reread .storedField) = hasDocValue doc := by
  simp only [hasDocValue, Document.reread, Document.recordFields, List.any_map,
    Function.comp_def, IndexField.reread_flag]

theorem isEmpty_recordFields (doc : Document) :
    (!(doc.recordFields .docValue).isEmpty) = hasDocValue doc := by
  rw [Document.recordFields, hasDocValue, Bool.eq_iff_iff]
  simp [List.filter_eq_nil_iff]

/-- What the doc-value stage does for a document that is written. -/
theorem docValueMutations_written
    (h : Admitted config op table db mode document) (hdel : mode ≠ .delete) :
    let new := (readyUpdater config op table db mode document).newDocument
    (hasDocValue new = true → ∃ value flag,
      new.serializeToBytes config.pb .docValue = some (value, flag) ∧
      value.length < 2 ^ 32 ∧
      docValueMutations config table
        (readyUpdater config op table db mode document) =
          [.put .docValueColumn (encodeStoredFieldKey table
            (readyUpdater config op table db mode
              document).newDocument.documentId) value]) ∧
    (hasDocValue new = false → docValueMutations config table
        (readyUpdater config op table db mode document) =
      deleteOldMutations table
        (readyUpdater config op table db mode document)) := by
  have hok : (readyUpdater config op table db mode document).status.ok =
      true := readyUpdater_ok.2 fun h => absurd h hdel
  have hnodel : (readyUpdater config op table db mode document).delete =
      false := readyUpdater_delete.trans (decide_eq_false hdel)
  obtain ⟨value, flag, hser, hlen⟩ := h.writable.docValue hok hnodel
  have hmut : docValueMutations config table
      (readyUpdater config op table db mode document) =
        if flag then [.put .docValueColumn (encodeStoredFieldKey table
          (readyUpdater config op table db mode
            document).newDocument.documentId) value]
        else deleteOldMutations table
          (readyUpdater config op table db mode document) := by
    rw [docValueMutations, if_pos hok, if_neg (by simp [hnodel]), hser]
    cases flag with
    | true => rfl
    | false => rfl
  rw [serializeToBytes_newDocValue] at hser
  have hflag := (Document.serializeToBytes_eq_some hser).2
  rw [isEmpty_recordFields] at hflag
  constructor
  · intro hdv
    rw [hdv] at hflag
    subst hflag
    exact ⟨value, true, hser, hlen rfl, hmut⟩
  · intro hdv
    rw [hdv] at hflag
    subst hflag
    exact hmut

theorem recordCell_docValue {doc : Option Document} {cell : Option Cell}
    (h : Admitted config op table db mode document)
    (hdoc : readOld config op table db mode document.documentId =
      oldFor mode doc) {new : Document}
    (hnew : new ∈ (nextDocument config mode document doc).filter hasDocValue) :
    RecordCell config .docValue (some new)
      ((docValueMutations config table
        (readyUpdater config op table db mode document)).foldl
          Mutation.applyCell cell) := by
  rw [nextDocument] at hnew
  by_cases hdel : mode = .delete
  · rw [if_pos hdel] at hnew
    cases hnew
  · rw [if_neg hdel, ← hdoc, ← readyUpdater_newDocument hdel] at hnew
    obtain ⟨hsome, hdv⟩ := Option.filter_eq_some_iff.1 hnew
    obtain rfl := Option.some.inj hsome
    obtain ⟨value, flag, hser, hlen, hmut⟩ :=
      (docValueMutations_written h hdel).1 hdv
    rw [hmut]
    exact .record hser hlen

/-- The old record is deleted wherever there can be one. -/
theorem deleteOldMutations_cell {doc : Option Document} {cell : Option Cell}
    (hread : mode ≠ .addWithoutRead)
    (hstale : doc.filter hasDocValue = none → cell = none)
    (hdoc : readOld config op table db mode document.documentId =
      oldFor mode doc) :
    (deleteOldMutations table
      (readyUpdater config op table db mode document)).foldl
        Mutation.applyCell cell = none := by
  rw [deleteOldMutations, readyUpdater_oldDocument, hdoc, oldFor, if_neg hread]
  split
  · rfl
  · next hno =>
      refine hstale ?_
      cases doc with
      | none => rfl
      | some doc =>
          rw [Option.filter_some, if_neg]
          rw [← hasDocValue_reread]
          exact hno

theorem noStale_docValue {doc : Option Document} {cell : Option Cell}
    (h : Admitted config op table db mode document)
    (hread : mode ≠ .addWithoutRead)
    (hstale : doc.filter hasDocValue = none → cell = none)
    (hdoc : readOld config op table db mode document.documentId =
      oldFor mode doc)
    (hnew : (nextDocument config mode document doc).filter hasDocValue =
      none) :
    (docValueMutations config table
      (readyUpdater config op table db mode document)).foldl
        Mutation.applyCell cell = none := by
  by_cases hdel : mode = .delete
  · rw [docValueMutations, readyUpdater_delete, if_pos (decide_eq_true hdel)]
    split
    · exact deleteOldMutations_cell hread hstale hdoc
    · next hno =>
        refine hstale ?_
        rw [readyUpdater_ok, hdoc, hdel] at hno
        cases doc with
        | none => rfl
        | some _ => exact absurd (fun _ => rfl) hno
  · rw [nextDocument, if_neg hdel, ← hdoc, ← readyUpdater_newDocument hdel,
      Option.filter_some] at hnew
    have hdv : hasDocValue (readyUpdater config op table db mode
        document).newDocument = false := by
      by_contra hyes
      rw [if_pos (by simpa using hyes)] at hnew
      cases hnew
    rw [(docValueMutations_written h hdel).2 hdv]
    exact deleteOldMutations_cell hread hstale hdoc

/-- A call takes the records of `docs` to those of the next documents. -/
theorem keeps_applyAll {docs : DocumentID → Option Document} {c : WriteCall}
    (h : Keeps config table db docs)
    (hadm : ∀ document ∈ c.documents,
      Admitted config op table db c.mode document) :
    Keeps config table (db.applyAll (callMutations config op table db c))
      (nextDocuments config c docs) where
  stored d := by
    rw [storedCell_applyAll]
    cases hfor : c.documentFor d with
    | none =>
        rw [nextDocuments, hfor]
        exact h.stored d
    | some document =>
        rw [nextDocuments_of_some hfor]
        obtain ⟨hmem, rfl⟩ := c.documentFor_eq_some hfor
        exact recordCell_stored (hadm document hmem) (h.stored _) (h.readOld _)
  docValue d new hnew := by
    rw [docValueCell_applyAll]
    cases hfor : c.documentFor d with
    | none =>
        rw [nextDocuments, hfor] at hnew
        exact h.docValue d new hnew
    | some document =>
        rw [nextDocuments_of_some hfor] at hnew
        obtain ⟨hmem, rfl⟩ := c.documentFor_eq_some hfor
        exact recordCell_docValue (hadm document hmem) (h.readOld _) hnew

theorem noStale_applyAll {docs : DocumentID → Option Document} {c : WriteCall}
    (h : Keeps config table db docs) (hstale : NoStale table db docs)
    (hread : c.mode ≠ .addWithoutRead)
    (hadm : ∀ document ∈ c.documents,
      Admitted config op table db c.mode document) :
    NoStale table (db.applyAll (callMutations config op table db c))
      (nextDocuments config c docs) := by
  intro d hnew
  rw [docValueCell_applyAll]
  cases hfor : c.documentFor d with
  | none =>
      rw [nextDocuments, hfor] at hnew
      exact hstale d hnew
  | some document =>
      rw [nextDocuments_of_some hfor] at hnew
      obtain ⟨hmem, rfl⟩ := c.documentFor_eq_some hfor
      exact noStale_docValue (hadm document hmem) hread (hstale _)
        (h.readOld _) hnew

/-- After every run both columns hold the records of some documents. -/
theorem exists_keeps_runCalls (config : IndexConfig)
    (op : DocListMergeOperator) (table : TableID) (calls : List WriteCall) :
    ∃ docs, Keeps config table (runCalls config op table .empty calls) docs := by
  refine runCalls_induction (P := fun db => ∃ docs, Keeps config table db docs)
    ?_ ⟨_, keeps_empty⟩
  rintro db ⟨docs, hdocs⟩ c _ hadm
  exact ⟨_, keeps_applyAll hdocs hadm⟩

theorem exists_noStale_runCalls (config : IndexConfig)
    (op : DocListMergeOperator) (table : TableID) {calls : List WriteCall}
    (hread : ReadFirst calls) :
    ∃ docs, Keeps config table (runCalls config op table .empty calls) docs ∧
      NoStale table (runCalls config op table .empty calls) docs := by
  refine runCalls_induction (P := fun db => ∃ docs,
    Keeps config table db docs ∧ NoStale table db docs)
    ?_ ⟨_, keeps_empty, noStale_empty⟩
  rintro db ⟨docs, hdocs, hstale⟩ c hc hadm
  exact ⟨_, keeps_applyAll hdocs hadm,
    noStale_applyAll hdocs hstale (hread c hc) hadm⟩

/-- An id that no call of a run has a document for has no stored record. -/
theorem storedDocument_of_not_written {calls : List WriteCall}
    {d : DocumentID} (h : ∀ c ∈ calls, c.documentFor d = none) :
    storedDocument config op table (runCalls config op table .empty calls) d =
      none := by
  have hcell : (runCalls config op table .empty calls
      .storedFieldColumn)[encodeStoredFieldKey table d]? = none := by
    refine runCalls_induction (P := fun db =>
      (db .storedFieldColumn)[encodeStoredFieldKey table d]? = none) ?_ ?_
    · intro db hdb c hc _
      rw [storedCell_applyAll, h c hc]
      exact hdb
    · rw [VirtualDB.empty, Std.ExtTreeMap.getElem?_empty]
  rw [storedDocument_eq, VirtualDB.get, hcell]
  rfl

/-! ## The two columns stay in step -/

/-- After every run in the modes that read, an id has a doc-value record if
and only if it has a stored record with a field flagged DocValue, and then the
fields of the one are the flagged fields of the other, in the same order. -/
theorem docValues_follow_stored (config : IndexConfig)
    (op : DocListMergeOperator) (table : TableID) (calls : List WriteCall)
    (hread : ReadFirst calls) (d : DocumentID) :
    let db := runCalls config op table .empty calls
    ((db.get op .docValueColumn (encodeStoredFieldKey table d)).isSome ↔
      ∃ doc, storedDocument config op table db d = some doc ∧
        ∃ field ∈ doc.fields, field.flag.docValue = true) ∧
    ((db.get op .docValueColumn (encodeStoredFieldKey table d)).isSome →
      ∃ doc values, storedDocument config op table db d = some doc ∧
        docValueDocument config op table db d = some values ∧
        values.fields.map (·.fieldId) =
          (doc.fields.filter (·.flag.docValue)).map (·.fieldId)) := by
  obtain ⟨docs, hkeeps, hstale⟩ := exists_noStale_runCalls config op table hread
  intro db
  have hflags : ∀ doc : Document,
      (∃ field ∈ (doc.reread .storedField).fields,
        field.flag.docValue = true) ↔ hasDocValue doc = true := by
    intro doc
    rw [← hasDocValue_reread, hasDocValue, List.any_eq_true]
  rw [hkeeps.storedDocument]
  cases hfilter : (docs d).filter hasDocValue with
  | none =>
      have hno : db.get op .docValueColumn (encodeStoredFieldKey table d) =
          none := by
        rw [VirtualDB.get, hstale d hfilter, Option.bind_none]
      rw [hno]
      refine ⟨⟨(fun h => nomatch h), ?_⟩, (fun h => nomatch h)⟩
      rintro ⟨x, hx, hdv⟩
      obtain ⟨doc, hdoc, rfl⟩ := Option.map_eq_some_iff.1 hx
      rw [hdoc, Option.filter_some, if_pos ((hflags doc).1 hdv)] at hfilter
      cases hfilter
  | some doc =>
      obtain ⟨hdoc, hdv⟩ := Option.filter_eq_some_iff.1 hfilter
      have hvalues : docValueDocument config op table db d =
          some (doc.reread .docValue) := hkeeps.docValueDocument hfilter
      have hsome : (db.get op .docValueColumn
          (encodeStoredFieldKey table d)).isSome = true := by
        rw [Option.isSome_iff_ne_none]
        intro hnone
        rw [docValueDocument, recordOf, hnone] at hvalues
        cases hvalues
      rw [hdoc, Option.map_some]
      refine ⟨⟨fun _ => ⟨_, rfl, (hflags doc).2 hdv⟩, fun _ => hsome⟩,
        fun _ => ⟨_, _, rfl, hvalues, ?_⟩⟩
      simp only [Document.reread, Document.recordFields, List.map_map,
        List.filter_map, Function.comp_def, IndexField.reread_fieldId,
        IndexField.reread_flag]

/-- Document 9 has the number 5 as a doc value that is not stored. -/
def addNine : WriteCall where
  mode := .add
  documents := [⟨9, [{ fieldId := 2, flag := ⟨4⟩, fieldType := kUint64IndexField
                       numericValue := 5 }]⟩]
  distinct := by decide

theorem docValues_follow_stored_addNine :
    let db := runCalls spaceConfig millionOperator ⟨1, 2⟩ .empty [addNine]
    ∃ doc values, storedDocument spaceConfig millionOperator ⟨1, 2⟩ db 9 =
        some doc ∧
      docValueDocument spaceConfig millionOperator ⟨1, 2⟩ db 9 = some values ∧
      values.fields.map (·.fieldId) =
        (doc.fields.filter (·.flag.docValue)).map (·.fieldId) := by
  have hread : ReadFirst [addNine] := by simp [ReadFirst, addNine]
  exact (docValues_follow_stored spaceConfig millionOperator ⟨1, 2⟩ [addNine]
    hread 9).2 (by decide +kernel)

end Wwsearch.Spec
