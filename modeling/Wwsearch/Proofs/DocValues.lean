import Wwsearch.Proofs.Records

/-!
# The doc values that an update does not give

An update writes the doc-value record anew from the merged document, and the
fields it is not given come from the stored record there. A stored record has
the values of the fields flagged Stored and no others, so a doc value that is
not also stored comes back as zero or empty. `update_keeps_docValue_iff` says
when the value of a field survives, and `update_loses_docValue` is a run in
which one does not.

The source means to prevent this: it reads the old doc-value record for an
update, and `MergeDocvalue` would take the missing fields from there. The
record is decoded only when the read answers `DocumentExist`, which it never
does.
-/

namespace Wwsearch.Spec

open Wwsearch.Lib Wwsearch.Ref Wwsearch.Ref.DocumentWriter

/-! ## The fields of a merged document -/

def hasId (f : FieldID) (field : IndexField) : Bool := field.fieldId == f

/-- The tokenizer leaves the ids of the fields alone. -/
theorem map_fieldId_doFields (tokenizer : Tokenizer) (d : DocumentID)
    (fields : List IndexField) :
    (tokenizer.doFields d fields).1.map (·.fieldId) =
      fields.map (·.fieldId) := by
  induction fields with
  | nil => rfl
  | cons field rest ih =>
      rw [Tokenizer.doFields]
      split
      · rfl
      · rw [List.map_cons, List.map_cons, ih]

theorem findField_isSome {doc : Document} {f : FieldID} :
    (doc.findField f).isSome = true ↔ ∃ field ∈ doc.fields, field.fieldId = f := by
  rw [Document.findField, List.find?_isSome]
  simp

/-- A field that is not given is taken from the old ones, the first of them
where there are several. -/
theorem filter_copyOldFields (f : FieldID) (old : List IndexField) :
    ∀ new : Document, (copyOldFields new old).fields.filter (hasId f) =
      if (new.findField f).isSome then new.fields.filter (hasId f)
      else (old.find? (hasId f)).toList := by
  induction old with
  | nil =>
      intro new
      rw [copyOldFields, List.foldl_nil, List.find?_nil, Option.toList_none]
      split
      · rfl
      · next hno =>
          rw [findField_isSome] at hno
          rw [List.filter_eq_nil_iff]
          intro field hfield hid
          exact hno ⟨field, hfield, beq_iff_eq.1 hid⟩
  | cons field rest ih =>
      intro new
      rw [copyOldFields, List.foldl_cons]
      refine (ih _).trans ?_
      by_cases hid : field.fieldId = f
      · subst hid
        rw [← Option.not_isSome]
        cases hnew : (new.findField field.fieldId).isSome with
        | true => simp [hnew]
        | false =>
            have hadd : ((new.addField field).findField
                field.fieldId).isSome = true :=
              findField_isSome.2 ⟨field, by simp [Document.addField], rfl⟩
            have hnil : new.fields.filter (hasId field.fieldId) = [] := by
              rw [List.filter_eq_nil_iff]
              intro x hx hxid
              have := findField_isSome.2 ⟨x, hx, beq_iff_eq.1 hxid⟩
              rw [hnew] at this
              cases this
            rw [Bool.not_false, if_pos rfl, if_pos hadd]
            simp [Document.addField, hnil, hasId]
      · have hskip : List.find? (hasId f) (field :: rest) =
            rest.find? (hasId f) :=
          List.find?_cons_of_neg (by simp [hasId, hid])
        rw [hskip]
        split
        · next hadd =>
            have hsame : ((new.addField field).findField f).isSome =
                (new.findField f).isSome := by
              simp [Document.findField, Document.addField, hid]
            rw [hsame]
            simp [Document.addField, hasId, hid]
        · rfl

/-! ## The value of a field -/

section Value

variable {config : IndexConfig} {op : DocListMergeOperator} {table : TableID}
  {db : VirtualDB} {docs : DocumentID → Option Document} {d : DocumentID}
  {f : FieldID}

/-- The value of a field in a doc-value record of the document: the first
field with the id and the flag has it. -/
def recordValue (doc : Document) (f : FieldID) : Option FieldValue :=
  ((doc.fields.filter (hasId f)).find? (·.flag.docValue)).map valueOf

theorem findField_reread_docValue (doc : Document) :
    ((doc.reread .docValue).findField f).map valueOf = recordValue doc f := by
  have hvalue : ∀ field : IndexField, field.flag.docValue = true →
      valueOf (field.reread .docValue) = valueOf field := by
    intro field hdv
    rw [valueOf_reread]
    exact if_pos hdv
  have hcomp : ((fun field : IndexField => field.fieldId == f) ∘
      IndexField.reread .docValue) = hasId f := by
    funext field
    simp [hasId]
  have hswap : (fun field : IndexField => decide (field.flag.docValue = true ∧
      hasId f field = true)) = fun field => decide (hasId f field = true ∧
        field.flag.docValue = true) := by
    funext field
    exact decide_eq_decide.2 and_comm
  rw [Document.findField, Document.reread, Document.recordFields,
    List.find?_map, hcomp, recordValue, List.find?_filter, List.find?_filter,
    Option.map_map, hswap]
  cases hfind : doc.fields.find? (fun field => decide (hasId f field = true ∧
      field.flag.docValue = true)) with
  | none => rfl
  | some field =>
      have hsome := List.find?_some hfind
      have hboth := of_decide_eq_true hsome
      rw [Option.map_some, Option.map_some, Function.comp_apply,
        hvalue field hboth.2]

theorem Keeps.docValueOf (h : Keeps config table db docs) {doc : Document}
    (hdoc : docs d = some doc) (hdv : hasDocValue doc = true) :
    docValueOf config op table db d f = recordValue doc f := by
  have hfilter : doc ∈ (docs d).filter hasDocValue := by
    rw [hdoc]
    exact Option.filter_eq_some_iff.2 ⟨rfl, hdv⟩
  rw [Spec.docValueOf, h.docValueDocument hfilter, Option.bind_some,
    findField_reread_docValue]

theorem recordValue_of_not_hasDocValue {doc : Document}
    (h : hasDocValue doc = false) : recordValue doc f = none := by
  rw [recordValue, List.find?_eq_none.2, Option.map_none]
  intro field hfield hdv
  have hany : hasDocValue doc = true :=
    List.any_eq_true.2 ⟨field, List.mem_of_mem_filter hfield, hdv⟩
  rw [h] at hany
  cases hany

/-- The doc values after a call that writes over a document with doc values:
those of the new document, with no record where it has none. -/
theorem docValueOf_applyAll {c : WriteCall} {document doc : Document}
    (h : Keeps config table db docs)
    (hadm : ∀ document ∈ c.documents,
      Admitted config op table db c.mode document)
    (hmode : c.mode ≠ .delete ∧ c.mode ≠ .addWithoutRead)
    (hmem : document ∈ c.documents)
    (hdoc : docs document.documentId = some doc)
    (hdv : hasDocValue doc = true) :
    docValueOf config op table
        (db.applyAll (callMutations config op table db c))
        document.documentId f =
      recordValue (writtenDocument config c.mode document
        (some (doc.reread .storedField))) f := by
  have hfor := c.documentFor_of_mem hmem
  have hnext : nextDocument config c.mode document (some doc) =
      some (writtenDocument config c.mode document
        (some (doc.reread .storedField))) := by
    rw [nextDocument, if_neg hmode.1, oldFor, if_neg hmode.2, Option.map_some]
  cases hnew : hasDocValue (writtenDocument config c.mode document
      (some (doc.reread .storedField))) with
  | true =>
      refine (keeps_applyAll h hadm).docValueOf ?_ hnew
      rw [nextDocuments_of_some hfor, hdoc, hnext]
  | false =>
      have hcell : (docValueMutations config table
          (readyUpdater config op table db c.mode document)).foldl
            Mutation.applyCell (db .docValueColumn)[encodeStoredFieldKey table
              document.documentId]? = none := by
        have hstale : (some doc).filter hasDocValue = none →
            (db .docValueColumn)[encodeStoredFieldKey table
              document.documentId]? = none := by
          intro hnone
          rw [Option.filter_some, if_pos hdv] at hnone
          cases hnone
        refine noStale_docValue (hadm document hmem) hmode.2 hstale
          (by rw [h.readOld, hdoc]) ?_
        rw [hnext, Option.filter_some, if_neg (by simp [hnew])]
      have hgone : (db.applyAll (callMutations config op table db c)
          .docValueColumn)[encodeStoredFieldKey table document.documentId]? =
            none := by
        rw [docValueCell_applyAll, hfor, Option.map_some, Option.getD_some,
          hcell]
      rw [recordValue_of_not_hasDocValue hnew, docValueOf, docValueDocument,
        recordOf, VirtualDB.get, hgone]
      rfl

end Value

/-! ## What an update keeps -/

/-- A value that is read again from the stored record and written as a doc
value is what it was if it was stored, and the default of its type if not. -/
theorem valueOf_rereads (field : IndexField) :
    valueOf (field.reread .storedField) = valueOf field ↔
      field.flag.storedField = true ∨
        valueOf field = defaultValue field.fieldType := by
  rw [valueOf_reread]
  cases hs : field.flag.storedField with
  | true => simp [IndexField.carries, hs]
  | false =>
      simp only [IndexField.carries, hs, Bool.false_eq_true, if_false, false_or]
      exact eq_comm

theorem filter_hasId_reread (doc : Document) (f : FieldID) :
    (doc.reread .storedField).fields.find? (hasId f) =
      (doc.fields.find? (hasId f)).map (IndexField.reread .storedField) := by
  have hcomp : hasId f ∘ IndexField.reread .storedField = hasId f := by
    funext field
    simp [hasId]
  rw [Document.reread, Document.recordFields, List.find?_map, hcomp]

/-- The fields with an id that is not given, in the document that an update
writes. -/
theorem filter_writtenDocument {config : IndexConfig}
    {mode : DocumentUpdaterType} {document doc : Document} {f : FieldID}
    (hmode : mode ≠ .replace)
    (hgiven : ∀ field ∈ document.fields, field.fieldId ≠ f) :
    (writtenDocument config mode document
      (some (doc.reread .storedField))).fields.filter (hasId f) =
        ((doc.fields.find? (hasId f)).map
          (IndexField.reread .storedField)).toList := by
  have hnone : ¬ ((config.tokenizer.do' document).1.findField f).isSome =
      true := by
    rw [findField_isSome]
    rintro ⟨field, hfield, hid⟩
    have hids := map_fieldId_doFields config.tokenizer document.documentId
      document.fields
    have hf : f ∈ document.fields.map (·.fieldId) := by
      rw [← hids, ← hid]
      exact List.mem_map_of_mem hfield
    obtain ⟨given, hg, hgid⟩ := List.mem_map.1 hf
    exact hgiven given hg hgid
  rw [writtenDocument, if_neg hmode, filter_copyOldFields, if_neg hnone,
    Option.getD_some, filter_hasId_reread]

/-- The value of such a field before and after. -/
theorem recordValue_written_iff {config : IndexConfig}
    {mode : DocumentUpdaterType} {document doc : Document} {f : FieldID}
    (hmode : mode ≠ .replace)
    (hgiven : ∀ field ∈ document.fields, field.fieldId ≠ f)
    (hflag : ∃ field ∈ doc.fields.filter (hasId f), field.flag.docValue = true) :
    recordValue (writtenDocument config mode document
        (some (doc.reread .storedField))) f = recordValue doc f ↔
      ∃ field, doc.fields.find? (hasId f) = some field ∧
        field.flag.docValue = true ∧ (field.flag.storedField = true ∨
          recordValue doc f = some (defaultValue field.fieldType)) := by
  have hfirst : doc.fields.find? (hasId f) =
      (doc.fields.filter (hasId f)).head? := by rw [List.head?_filter]
  rw [recordValue, filter_writtenDocument hmode hgiven, recordValue, hfirst]
  cases hl : doc.fields.filter (hasId f) with
  | nil =>
      rw [hl] at hflag
      obtain ⟨field, hfield, -⟩ := hflag
      exact absurd hfield List.not_mem_nil
  | cons g rest =>
      rw [hl] at hflag
      have hhead : (((g :: rest).head?.map (IndexField.reread
          .storedField)).toList).find? (·.flag.docValue) =
            if g.flag.docValue then some (g.reread .storedField) else none := by
        rw [List.head?_cons, Option.map_some, Option.toList_some,
          List.find?_singleton, IndexField.reread_flag]
      rw [hhead]
      cases hdv : g.flag.docValue with
      | true =>
          have hfind : (g :: rest).find? (·.flag.docValue) = some g := by
            rw [List.find?_cons, hdv]
          rw [hfind]
          simp only [if_true, Option.map_some, Option.some.injEq,
            List.head?_cons, exists_eq_left', hdv, true_and]
          exact valueOf_rereads g
      | false =>
          -- the value came from a later field, which is not copied
          obtain ⟨field, hfield, hfdv⟩ := hflag
          have hsome : ((g :: rest).find? (·.flag.docValue)).isSome = true :=
            List.find?_isSome.2 ⟨field, hfield, hfdv⟩
          obtain ⟨x, hx⟩ := Option.isSome_iff_exists.1 hsome
          rw [hx]
          simp [hdv]

/-- For a field that is flagged DocValue in the stored record and not given in
the update, the doc value after an update is the one before it if and only if
the first stored field with that id is the flagged one and has its value in
the stored record too, unless the value is the default. -/
theorem update_keeps_docValue_iff (config : IndexConfig)
    (op : DocListMergeOperator) (table : TableID) (calls : List WriteCall)
    (c : WriteCall) (hmode : c.mode = .update ∨ c.mode = .addOrUpdate)
    (hsb : c.storeBuffer = none)
    (hok : (c.perform config op table
      (runCalls config op table .empty calls)).ok = true)
    (document : Document) (hmem : document ∈ c.documents) (old : Document)
    (hold : storedDocument config op table
      (runCalls config op table .empty calls) document.documentId = some old)
    (f : FieldID)
    (hflag : ∃ field ∈ old.fields, field.fieldId = f ∧
      field.flag.docValue = true)
    (hgiven : ∀ field ∈ document.fields, field.fieldId ≠ f) :
    let db := runCalls config op table .empty calls
    docValueOf config op table (c.perform config op table db).db
        document.documentId f =
      docValueOf config op table db document.documentId f ↔
    ∃ field, old.findField f = some field ∧ field.flag.docValue = true ∧
      (field.flag.storedField = true ∨
        docValueOf config op table db document.documentId f =
          some (defaultValue field.fieldType)) := by
  intro db
  obtain ⟨docs, hkeeps⟩ := exists_keeps_runCalls config op table calls
  obtain ⟨hadm, hwrite, -⟩ := perform_ok hok
  rw [hkeeps.storedDocument] at hold
  obtain ⟨doc, hdoc, rfl⟩ := Option.map_eq_some_iff.1 hold
  have hflag' : ∃ field ∈ doc.fields.filter (hasId f),
      field.flag.docValue = true := by
    obtain ⟨_, hfield, hid, hdv⟩ := hflag
    obtain ⟨g, hg, rfl⟩ := List.mem_map.1 hfield
    rw [IndexField.reread_fieldId] at hid
    rw [IndexField.reread_flag] at hdv
    exact ⟨g, List.mem_filter.2 ⟨hg, beq_iff_eq.2 hid⟩, hdv⟩
  have hdv : hasDocValue doc = true := by
    obtain ⟨field, hfield, hdv⟩ := hflag'
    exact List.any_eq_true.2 ⟨field, List.mem_of_mem_filter hfield, hdv⟩
  have hnotdel : c.mode ≠ .delete ∧ c.mode ≠ .addWithoutRead := by
    rcases hmode with h | h
    · rw [h]; decide
    · rw [h]; decide
  have hnotrep : c.mode ≠ .replace := by
    rcases hmode with h | h
    · rw [h]; decide
    · rw [h]; decide
  rw [hwrite hsb, docValueOf_applyAll hkeeps hadm hnotdel hmem hdoc hdv,
    hkeeps.docValueOf hdoc hdv, recordValue_written_iff hnotrep hgiven hflag']
  have hfind : (doc.reread .storedField).findField f =
      (doc.fields.find? (hasId f)).map (IndexField.reread .storedField) :=
    filter_hasId_reread doc f
  rw [hfind]
  cases doc.fields.find? (hasId f) with
  | none => simp
  | some g => simp

/-- Document 9 is updated by a field 3; its doc value is in field 2. -/
def updateNine : WriteCall where
  mode := .update
  documents := [⟨9, [{ fieldId := 3, flag := ⟨2⟩, fieldType := kUint64IndexField
                       numericValue := 1 }]⟩]
  distinct := by decide

theorem update_keeps_docValue_iff_updateNine :
    let db := runCalls spaceConfig millionOperator ⟨1, 2⟩ .empty [addNine]
    ∃ old, storedDocument spaceConfig millionOperator ⟨1, 2⟩ db 9 = some old ∧
      (docValueOf spaceConfig millionOperator ⟨1, 2⟩
          (updateNine.perform spaceConfig millionOperator ⟨1, 2⟩ db).db 9 2 =
        docValueOf spaceConfig millionOperator ⟨1, 2⟩ db 9 2 ↔
      ∃ field, old.findField 2 = some field ∧ field.flag.docValue = true ∧
        (field.flag.storedField = true ∨
          docValueOf spaceConfig millionOperator ⟨1, 2⟩ db 9 2 =
            some (defaultValue field.fieldType))) := by
  intro db
  have hflag : (storedDocument spaceConfig millionOperator ⟨1, 2⟩ db 9).any
      (fun old => old.fields.any fun field =>
        field.fieldId == 2 && field.flag.docValue) = true := by decide +kernel
  obtain ⟨hsome, hany⟩ := (Option.any_eq_true_iff_get _ _).1 hflag
  obtain ⟨field, hfield, hboth⟩ := List.any_eq_true.1 hany
  obtain ⟨hid, hdv⟩ := Bool.and_eq_true_iff.1 hboth
  refine ⟨_, (Option.some_get hsome).symm, ?_⟩
  exact update_keeps_docValue_iff spaceConfig millionOperator ⟨1, 2⟩ [addNine]
    updateNine (.inl rfl) rfl (by decide +kernel) _ (.head _) _
    (Option.some_get hsome).symm 2 ⟨field, hfield, beq_iff_eq.1 hid, hdv⟩
    (by decide)

/-- The number 5 of document 9 is in a field that is flagged DocValue in the
stored record and not given in the update, and it is gone after the update. -/
theorem update_loses_docValue :
    let db := runCalls spaceConfig millionOperator ⟨1, 2⟩ .empty [addNine]
    let r := updateNine.perform spaceConfig millionOperator ⟨1, 2⟩ db
    r.ok = true ∧
      (storedDocument spaceConfig millionOperator ⟨1, 2⟩ db 9).any
        (fun old => old.fields.any fun field =>
          field.fieldId == 2 && field.flag.docValue) = true ∧
      (∀ document ∈ updateNine.documents, ∀ field ∈ document.fields,
        field.fieldId ≠ 2) ∧
      docValueOf spaceConfig millionOperator ⟨1, 2⟩ db 9 2 =
        some (.numeric 5) ∧
      docValueOf spaceConfig millionOperator ⟨1, 2⟩ r.db 9 2 =
        some (.numeric 0) := by
  refine ⟨?_, ?_, ?_, ?_, ?_⟩
  · decide +kernel
  · decide +kernel
  · decide
  · decide +kernel
  · decide +kernel

end Wwsearch.Spec
