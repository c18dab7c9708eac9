import Mathlib.Data.List.Induction
import Wwsearch.Proofs.Records
import Wwsearch.Proofs.WriterProgress

/-!
# The stored column refines the plain map

`FieldRecord.ofField` is a normal form of fields: writing a field and reading
it back changes the field, and does not change its record
(`ofField_reread`). Copying the fields of an old document is then the overlay
of their records, whether the old document is taken as it was written or as it
comes back (`map_ofField_copyOldFields`), and a call that is not disturbed does
to the records what `MapWrite.step` does (`documentMap_perform`).

A call is `Undisturbed` if storage and tokenizer do their part and the batch
stays under the limit. Whether such a call returns true is then up to the map
alone (`perform_ok_eq_accepted`).
-/

namespace Wwsearch.Spec

open Wwsearch.Lib Wwsearch.Ref Wwsearch.Ref.DocumentWriter
open Wwsearch.Ref.IndexWriter

/-! ## Records of fields -/

theorem ofField_reread (field : IndexField) :
    FieldRecord.ofField (field.reread .storedField) =
      FieldRecord.ofField field := by
  rw [FieldRecord.ofField, FieldRecord.ofField, IndexField.reread_fieldId,
    IndexField.reread_flag, IndexField.reread_fieldType,
    IndexField.reread_suffixLen, IndexField.reread_terms]
  refine FieldRecord.mk.injEq .. ▸ ⟨rfl, rfl, rfl, ?_, ?_, ?_⟩
  · by_cases hs : field.flag.suffixBuild = true
    · rw [if_pos hs, if_pos hs, if_pos hs, IndexField.effectiveSuffixLen]
      by_cases hlen : field.suffixLen = 0
      · rw [if_neg (not_not.2 hlen), if_pos hlen]
        rfl
      · rw [if_pos hlen, if_neg hlen]
    · rw [if_neg hs, if_neg hs]
  · split
    · next hs =>
        have hcarries : field.carries .storedField = true := hs
        rw [valueOf_reread, if_pos hcarries]
    · rfl
  · split
    · rfl
    · rfl

theorem map_ofField_reread (doc : Document) :
    (doc.reread .storedField).fields.map FieldRecord.ofField =
      doc.fields.map FieldRecord.ofField := by
  rw [Document.reread, Document.recordFields, List.map_map]
  exact List.map_congr_left fun field _ => ofField_reread field

theorem any_ofField (fields : List IndexField) (f : FieldID) :
    (fields.map FieldRecord.ofField).any (·.fieldId == f) =
      (fields.find? (·.fieldId == f)).isSome := by
  rw [List.any_map, List.isSome_find?]
  rfl

/-- Copying old fields is laying the given records over theirs. -/
theorem map_ofField_copyOldFields (old : List IndexField) :
    ∀ new : Document,
      (copyOldFields new old).fields.map FieldRecord.ofField =
        overlay (new.fields.map FieldRecord.ofField)
          (old.map FieldRecord.ofField) := by
  induction old with
  | nil => intro new; rfl
  | cons field old ih =>
      intro new
      have hany : (new.fields.map FieldRecord.ofField).any
          (·.fieldId == (FieldRecord.ofField field).fieldId) =
            (new.findField field.fieldId).isSome :=
        any_ofField new.fields field.fieldId
      rw [copyOldFields, List.foldl_cons, List.map_cons, overlay, hany]
      refine (ih _).trans ?_
      cases new.findField field.fieldId with
      | none =>
          rw [if_pos Option.isNone_none, if_neg (by simp), Document.addField,
            List.map_append]
          rfl
      | some x => rw [if_neg (by simp), if_pos Option.isSome_some]

/-! ## Undisturbed calls -/

variable {config : IndexConfig} {op : DocListMergeOperator} {table : TableID}
  {db : VirtualDB} {docs : DocumentID → Option Document} {c : WriteCall}

theorem Keeps.documentMap (h : Keeps config table db docs) (d : DocumentID) :
    documentMap config op table db d =
      (docs d).map fun doc => doc.fields.map FieldRecord.ofField := by
  rw [Spec.documentMap, h.storedDocument, Option.map_map]
  exact congrArg (Option.map · (docs d)) (funext map_ofField_reread)

/-- A record is in the column for exactly the ids of the map. -/
theorem Keeps.isSome_get (h : Keeps config table db docs) (d : DocumentID) :
    (db.get op .storedFieldColumn (encodeStoredFieldKey table d)).isSome =
      (Spec.documentMap config op table db d).isSome := by
  rw [h.documentMap, Option.isSome_map, VirtualDB.get]
  have hcell := h.stored d
  generalize docs d = doc at hcell
  generalize (db .storedFieldColumn)[encodeStoredFieldKey table d]? = cell
    at hcell
  cases hcell with
  | absent => rfl
  | record hser hlen => rfl

/-- The record that is there can be decoded. -/
theorem Keeps.decodes (h : Keeps config table db docs) {d : DocumentID}
    {value : Bytes} (hget : db.get op .storedFieldColumn
      (encodeStoredFieldKey table d) = some value) :
    (Document.deSerializeFromByte config.pb {} value).isSome := by
  have hmap := @Keeps.isSome_get config op table _ _ h d
  rw [hget, Spec.documentMap, Option.isSome_map, storedDocument_eq, hget,
    Option.bind_some] at hmap
  exact hmap.symm

theorem accepted_mapWrite (m : DocumentMap) :
    (c.mapWrite config).accepted m = true ↔
      ∀ document ∈ c.documents,
        MapWrite.admits c.mode (m document.documentId) = true := by
  rw [MapWrite.accepted, WriteCall.mapWrite, List.all_map, List.all_eq_true]
  rfl

theorem admits_of_admitted {document : Document}
    (h : Admitted config op table db c.mode document) :
    MapWrite.admits c.mode (documentMap config op table db
      document.documentId) = true := by
  cases hmode : c.mode with
  | add =>
      rw [documentMap, h.absent hmode]
      rfl
  | update =>
      rw [MapWrite.admits, documentMap, Option.isSome_map]
      exact h.present hmode
  | addOrUpdate | delete | replace | addWithoutRead => rfl

/-- An undisturbed call returns true if and only if the map accepts it. -/
theorem perform_ok_eq_accepted (h : Keeps config table db docs)
    (hc : Undisturbed config op table db c) :
    (c.perform config op table db).ok =
      (c.mapWrite config).accepted (documentMap config op table db) := by
  rw [Bool.eq_iff_iff]
  constructor
  · intro hok
    rw [accepted_mapWrite]
    exact fun document hdoc =>
      admits_of_admitted ((perform_ok hok).1 document hdoc)
  · intro hacc
    have hadm := (accepted_mapWrite _).1 hacc
    have hreadable : ∀ du ∈ c.updaters, Readable config
        (db.get op .storedFieldColumn (encodeStoredFieldKey table
          du.newDocument.documentId)) c.mode du := by
      intro du hdu
      obtain ⟨document, hdoc, rfl⟩ := List.mem_map.1 hdu
      have hsome := @Keeps.isSome_get config op table _ _ h
            document.documentId
      have hadm := hadm document hdoc
      refine ⟨fun hmode => ?_, fun hmode => ?_, fun value hget => ?_⟩
      · rw [hmode, MapWrite.admits, ← Option.not_isSome, ← hsome,
          Option.not_isSome] at hadm
        exact Option.isNone_iff_eq_none.1 hadm
      · rw [hmode, MapWrite.admits, ← hsome] at hadm
        exact hadm
      · exact h.decodes hget
    have hids : ∀ du ∈ c.updaters, du.newDocument.documentId ≠ 0 := by
      intro du hdu
      obtain ⟨document, hdoc, rfl⟩ := List.mem_map.1 hdu
      exact hc.id_ne_zero document hdoc
    have hread := readDocuments_isOk hids hreadable
    have hread_eq : (readDocuments config {} op table db c.mode
        c.updaters).1 = c.documents.map
          (readUpdater config op table db c.mode) :=
      (readAs_freshAll (List.forall₂_map_left_iff.1
        (readDocuments_ok hread).2)).1
    have hwrite : (DocumentWriter.updateDocuments config {} table db none
        (c.documents.map (readUpdater config op table db
          c.mode))).status.ok = true := by
      refine (updateDocuments_alone ?_ ?_ ?_ rfl).1
      · intro du hdu _ _
        obtain ⟨document, hdoc, rfl⟩ := List.mem_map.1 hdu
        exact hc.tokenizes document hdoc
      · intro du hdu
        obtain ⟨document, hdoc, rfl⟩ := List.mem_map.1 hdu
        exact hc.serializes hacc document hdoc
      · have hsize := hc.size_le hacc
        rw [callMutations] at hsize
        rw [List.map_map]
        exact hsize
    rw [WriteCall.perform, hc.faults, hc.storeBuffer, innerWriteDocuments_eq,
      hread, hread_eq]
    simp only [writeDocuments, if_true, hwrite]

/-- What becomes of the records of an id. -/
theorem written_nextDocument (mode : DocumentUpdaterType)
    (document : Document) (doc : Option Document) (hread : mode ≠ .addWithoutRead)
    (hadm : mode = .add → doc = none) :
    (nextDocument config mode document doc).map
        (fun doc => doc.fields.map FieldRecord.ofField) =
      MapWrite.written mode
        ((config.tokenizer.do' document).1.fields.map FieldRecord.ofField)
        (doc.map fun doc => doc.fields.map FieldRecord.ofField) := by
  have hcopy : mode ≠ .replace → mode ≠ .delete →
      (nextDocument config mode document doc).map
        (fun doc => doc.fields.map FieldRecord.ofField) =
      some (overlay ((config.tokenizer.do' document).1.fields.map
        FieldRecord.ofField) ((doc.map fun doc =>
          doc.fields.map FieldRecord.ofField).getD [])) := by
    intro hrep hdel
    rw [nextDocument, if_neg hdel, Option.map_some, writtenDocument,
      if_neg hrep, map_ofField_copyOldFields, oldFor, if_neg hread]
    cases doc with
    | none => rfl
    | some doc =>
        rw [Option.map_some, Option.getD_some, map_ofField_reread]
        rfl
  cases mode with
  | add =>
      rw [hcopy (by decide) (by decide), hadm rfl]
      rfl
  | update | addOrUpdate => exact hcopy (by decide) (by decide)
  | delete | replace => rfl
  | addWithoutRead => exact absurd rfl hread

/-- An undisturbed call is a step of the map. -/
theorem documentMap_perform (h : Keeps config table db docs)
    (hc : Undisturbed config op table db c) :
    documentMap config op table (c.perform config op table db).db =
      MapWrite.step (documentMap config op table db) (c.mapWrite config) := by
  rw [MapWrite.step, ← perform_ok_eq_accepted h hc]
  cases hok : (c.perform config op table db).ok with
  | false =>
      have hsame : (c.perform config op table db).db = db :=
        (innerWriteDocuments_kept hok).1
      rw [if_neg Bool.false_ne_true, hsame]
  | true =>
      obtain ⟨hadm, hwrite, -⟩ := perform_ok hok
      have hnext := keeps_applyAll h hadm
      rw [if_pos rfl, hwrite hc.storeBuffer]
      funext d
      rw [hnext.documentMap, MapWrite.apply, WriteCall.mapWrite,
        List.find?_map, nextDocuments]
      have hfor : c.documents.find? ((fun p : DocumentID × List FieldRecord =>
          p.1 == d) ∘ fun document => (document.documentId,
            (config.tokenizer.do' document).1.fields.map
              FieldRecord.ofField)) = c.documentFor d := rfl
      rw [hfor]
      cases hd : c.documentFor d with
      | none => exact (h.documentMap d).symm
      | some document =>
          obtain ⟨hmem, hid⟩ := c.documentFor_eq_some hd
          rw [Option.map_some, h.documentMap]
          refine written_nextDocument c.mode document (docs d) hc.reads ?_
          intro hmode
          have habsent := (hadm document hmem).absent hmode
          rw [h.storedDocument, hid] at habsent
          exact Option.map_eq_none_iff.1 habsent

/-! ## Runs -/

theorem runCalls_append (before : List WriteCall) (c : WriteCall) :
    runCalls config op table .empty (before ++ [c]) =
      (c.perform config op table
        (runCalls config op table .empty before)).db := by
  rw [runCalls, List.foldl_append]
  rfl

theorem UndisturbedRun.left {before after : List WriteCall}
    (h : UndisturbedRun config op table (before ++ after)) :
    UndisturbedRun config op table before := by
  intro first c rest hsplit
  refine h first c (rest ++ after) ?_
  rw [hsplit, List.append_assoc, List.cons_append]

theorem documentMap_runCalls {calls : List WriteCall}
    (h : UndisturbedRun config op table calls) :
    documentMap config op table (runCalls config op table .empty calls) =
      MapWrite.run (calls.map (·.mapWrite config)) := by
  induction calls using List.reverseRecOn with
  | nil => exact funext fun d => keeps_empty.documentMap d
  | append_singleton before c ih =>
      obtain ⟨docs, hdocs⟩ := exists_keeps_runCalls config op table before
      have hc := h before c [] rfl
      rw [runCalls_append, documentMap_perform hdocs hc, ih h.left,
        List.map_append, MapWrite.run, MapWrite.run, List.foldl_append]
      rfl

/-- After every run of undisturbed calls the stored column decodes to the map
that the same batches make of an empty one, there is a record for exactly the
ids of the map, and every call returned whether the map accepted it. -/
theorem stored_refines_documentMap (config : IndexConfig)
    (op : DocListMergeOperator) (table : TableID) (calls : List WriteCall)
    (h : UndisturbedRun config op table calls) :
    let db := runCalls config op table .empty calls
    let m := MapWrite.run (calls.map (·.mapWrite config))
    documentMap config op table db = m ∧
      (∀ d, (db.get op .storedFieldColumn
        (encodeStoredFieldKey table d)).isSome = (m d).isSome) ∧
      ∀ before c after, calls = before ++ c :: after →
        (c.perform config op table
            (runCalls config op table .empty before)).ok =
          (c.mapWrite config).accepted
            (MapWrite.run (before.map (·.mapWrite config))) := by
  intro db m
  have hmap : documentMap config op table db = m := documentMap_runCalls h
  obtain ⟨docs, hdocs⟩ := exists_keeps_runCalls config op table calls
  refine ⟨hmap, fun d => ?_, ?_⟩
  · rw [← hmap]
    exact hdocs.isSome_get d
  · rintro before c after rfl
    obtain ⟨docs', hdocs'⟩ := exists_keeps_runCalls config op table before
    rw [← documentMap_runCalls h.left]
    exact perform_ok_eq_accepted hdocs' (h before c after rfl)

/-- Document 9 is added twice; the second add finds it there. -/
theorem stored_refines_documentMap_addNine :
    let calls := [addNine, addNine]
    let m := MapWrite.run (calls.map (·.mapWrite spaceConfig))
    documentMap spaceConfig millionOperator ⟨1, 2⟩
        (runCalls spaceConfig millionOperator ⟨1, 2⟩ .empty calls) = m ∧
      (m 9).isSome ∧ (m 8).isNone ∧
      (addNine.perform spaceConfig millionOperator ⟨1, 2⟩
        (runCalls spaceConfig millionOperator ⟨1, 2⟩ .empty
          [addNine])).ok = false := by
  have hfirst : Undisturbed spaceConfig millionOperator ⟨1, 2⟩ .empty
      addNine := by
    refine ⟨rfl, rfl, by decide, by decide, by decide +kernel, ?_, ?_⟩
    · intro _ document hdoc
      obtain rfl := List.mem_singleton.1 hdoc
      exact ⟨fun _ _ => by decide +kernel, fun _ _ => by decide +kernel⟩
    · exact fun _ => by decide +kernel
  have hrefused : (addNine.mapWrite spaceConfig).accepted
      (documentMap spaceConfig millionOperator ⟨1, 2⟩ (runCalls spaceConfig
        millionOperator ⟨1, 2⟩ .empty [addNine])) = false := by
    decide +kernel
  have hsecond : Undisturbed spaceConfig millionOperator ⟨1, 2⟩
      (runCalls spaceConfig millionOperator ⟨1, 2⟩ .empty [addNine])
      addNine := by
    refine ⟨rfl, rfl, by decide, by decide, by decide +kernel, ?_, ?_⟩
    · exact fun hacc => absurd (hrefused.symm.trans hacc) Bool.false_ne_true
    · exact fun hacc => absurd (hrefused.symm.trans hacc) Bool.false_ne_true
  have hrun : UndisturbedRun spaceConfig millionOperator ⟨1, 2⟩
      [addNine, addNine] := by
    intro before c after hsplit
    match before, hsplit with
    | [], hsplit =>
        obtain rfl := (List.cons.inj hsplit).1
        exact hfirst
    | [x], hsplit =>
        obtain ⟨rfl, hrest⟩ := List.cons.inj hsplit
        obtain rfl := (List.cons.inj hrest).1
        exact hsecond
    | x :: y :: before, hsplit =>
        exact absurd (congrArg List.length hsplit) (by simp)
  obtain ⟨hmap, hget, hok⟩ := stored_refines_documentMap spaceConfig
    millionOperator ⟨1, 2⟩ [addNine, addNine] hrun
  refine ⟨hmap, by decide +kernel, by decide +kernel, ?_⟩
  rw [hok [addNine] addNine [] rfl]
  decide +kernel

end Wwsearch.Spec
