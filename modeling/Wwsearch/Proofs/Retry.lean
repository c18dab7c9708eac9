import Wwsearch.Proofs.SearchIndex
import Wwsearch.Spec.Retry

/-!
# A call may be sent again

A call changes nothing where it would make the documents what they are already
(`Written.applyAll_settled`): the records that it puts are the ones that are
there, since a record is written from its document alone, and no term of a
document is new or gone. And once a call was taken, the documents are what the
same call would make of them (`nextDocuments_again`): the given fields come
first, and the old ones behind them were read from a record, so that reading
them once more does nothing to them.
-/

namespace Wwsearch.Ref

open Wwsearch.Lib

/-! ## Fields that were read -/

attribute [ext] IndexField

/-- What comes back of a field comes back of itself. -/
theorem IndexField.reread_reread (field : IndexField) :
    (field.reread .storedField).reread .storedField =
      field.reread .storedField := by
  have hcarries : (field.reread .storedField).carries .storedField =
      field.carries .storedField := by
    rw [carries, carries, reread_flag]
  refine IndexField.ext (reread_fieldId _ _) (reread_flag _ _) rfl ?_ ?_ rfl ?_
    ?_ rfl
  · rw [reread_numericValue, hcarries, reread_fieldType, reread_numericValue]
    split <;> rfl
  · rw [reread_stringValue, hcarries, reread_fieldType, reread_stringValue]
    split <;> rfl
  · rw [reread_terms, reread_flag, reread_terms]
    split <;> rfl
  · rw [reread_suffixLen, reread_suffixLen, reread_flag]
    split
    · next h => exact effectiveSuffixLen_reread .storedField field h
    · rfl

namespace DocumentWriter

/-- The old fields that are copied, in their order: one for each id that the
new document has no field for. -/
structure Kept (new : Document) (old kept : List IndexField) : Prop where
  eq : copyOldFields new old = { new with fields := new.fields ++ kept }
  mem : ∀ field ∈ kept, field ∈ old
  nodup : (kept.map (·.fieldId)).Nodup
  absent : ∀ field ∈ kept, new.findField field.fieldId = none

theorem findField_addField (new : Document) (field : IndexField) (f : FieldID) :
    (new.addField field).findField f =
      (new.findField f).or (if field.fieldId = f then some field else none) := by
  rw [Document.findField, Document.addField, List.find?_append,
    Document.findField, List.find?_singleton]
  simp only [beq_iff_eq]

theorem exists_kept (old : List IndexField) : ∀ new : Document,
    ∃ kept, Kept new old kept := by
  induction old with
  | nil =>
      intro new
      exact ⟨[], by rw [List.append_nil]; rfl, fun _ h => h, List.nodup_nil,
        fun _ h => absurd h List.not_mem_nil⟩
  | cons given rest ih =>
      intro new
      by_cases hnone : new.findField given.fieldId = none
      · obtain ⟨kept, hkept⟩ := ih (new.addField given)
        have hother : ∀ field ∈ kept, new.findField field.fieldId = none ∧
            given.fieldId ≠ field.fieldId := by
          intro field hfield
          have h := hkept.absent field hfield
          rw [findField_addField, Option.or_eq_none_iff] at h
          exact ⟨h.1, fun heq => by rw [if_pos heq] at h; cases h.2⟩
        refine ⟨given :: kept, ?_, ?_, ?_, ?_⟩
        · rw [copyOldFields, List.foldl_cons, hnone, Option.isNone_none,
            if_pos rfl]
          refine hkept.eq.trans ?_
          rw [Document.addField, List.append_assoc, List.singleton_append]
        · exact List.cons_subset_cons given hkept.mem
        · rw [List.map_cons, List.nodup_cons]
          refine ⟨fun hmem => ?_, hkept.nodup⟩
          obtain ⟨field, hfield, hid⟩ := List.mem_map.1 hmem
          exact (hother field hfield).2 hid.symm
        · intro field hfield
          rcases List.mem_cons.1 hfield with rfl | hfield
          · exact hnone
          · exact (hother field hfield).1
      · obtain ⟨kept, hkept⟩ := ih new
        refine ⟨kept, ?_, fun field hfield => ?_, hkept.nodup, hkept.absent⟩
        · rw [copyOldFields, List.foldl_cons, if_neg]
          · exact hkept.eq
          · rwa [Option.isNone_iff_eq_none]
        · exact List.mem_cons_of_mem given (hkept.mem field hfield)

/-- Fields that the document has are not copied. -/
theorem copyOldFields_found {new : Document} (old : List IndexField)
    (h : ∀ field ∈ old, new.findField field.fieldId ≠ none) :
    copyOldFields new old = new := by
  induction old with
  | nil => rfl
  | cons given rest ih =>
      rw [copyOldFields, List.foldl_cons, if_neg]
      · exact ih fun field hfield => h field (List.mem_cons_of_mem given hfield)
      · rw [Option.isNone_iff_eq_none]
        exact h given List.mem_cons_self

/-- Fields that it does not have are all copied. -/
theorem copyOldFields_absent (kept : List IndexField) : ∀ {new : Document},
    (kept.map (·.fieldId)).Nodup →
    (∀ field ∈ kept, new.findField field.fieldId = none) →
    copyOldFields new kept = { new with fields := new.fields ++ kept } := by
  induction kept with
  | nil =>
      intro new _ _
      rw [List.append_nil]
      rfl
  | cons given rest ih =>
      intro new hnodup hnone
      obtain ⟨hgiven, hnodup⟩ := List.nodup_cons.1 hnodup
      rw [copyOldFields, List.foldl_cons, hnone given List.mem_cons_self,
        Option.isNone_none, if_pos rfl]
      refine (ih hnodup fun field hfield => ?_).trans ?_
      · have hne : given.fieldId ≠ field.fieldId := fun heq =>
          hgiven (List.mem_map.2 ⟨field, hfield, heq.symm⟩)
        rw [findField_addField, if_neg hne, Option.or_none]
        exact hnone field (List.mem_cons_of_mem given hfield)
      · rw [Document.addField, List.append_assoc, List.singleton_append]

/-- What was copied once and read back is copied again, and nothing else. -/
theorem copyOldFields_again (new : Document) {old : List IndexField}
    (hread : ∀ field ∈ old, field.reread .storedField = field) :
    copyOldFields new ((copyOldFields new old).fields.map
        (·.reread .storedField)) = copyOldFields new old := by
  obtain ⟨kept, hkept⟩ := exists_kept old new
  have hsame : kept.map (·.reread .storedField) = kept :=
    (List.map_congr_left fun field hfield =>
      hread field (hkept.mem field hfield)).trans (List.map_id kept)
  have hfound : copyOldFields new (new.fields.map (·.reread .storedField)) =
      new := by
    refine copyOldFields_found _ fun field hfield => ?_
    obtain ⟨given, hgiven, rfl⟩ := List.mem_map.1 hfield
    rw [IndexField.reread_fieldId, Document.findField, ne_eq, List.find?_eq_none]
    exact fun h => h given hgiven (beq_self_eq_true given.fieldId)
  rw [hkept.eq, List.map_append, hsame, copyOldFields, List.foldl_append]
  rw [copyOldFields] at hfound
  rw [hfound]
  exact copyOldFields_absent kept hkept.nodup hkept.absent

end DocumentWriter

end Wwsearch.Ref

namespace Wwsearch.Spec

open Wwsearch.Lib Wwsearch.Ref Wwsearch.Ref.DocumentWriter
  Wwsearch.Ref.IndexWriter

variable {config : IndexConfig} {op : DocListMergeOperator} {table : TableID}
  {db : VirtualDB} {docs : DocumentID → Option Document} {c : WriteCall}

/-! ## The documents of a call that comes again -/

theorem nextDocument_again {mode : DocumentUpdaterType}
    (hread : mode ≠ .addWithoutRead) (document : Document)
    (doc : Option Document) :
    nextDocument config mode document (nextDocument config mode document doc) =
      nextDocument config mode document doc := by
  by_cases hdel : mode = .delete
  · rw [nextDocument, nextDocument, if_pos hdel, if_pos hdel]
  · rw [nextDocument, nextDocument, if_neg hdel, if_neg hdel, Option.some_inj,
      writtenDocument, writtenDocument]
    by_cases hrep : mode = .replace
    · rw [if_pos hrep, if_pos hrep]
    · rw [if_neg hrep, if_neg hrep, oldFor, if_neg hread, Option.map_some,
        Option.getD_some]
      refine copyOldFields_again _ fun field hfield => ?_
      rw [oldFor, if_neg hread] at hfield
      cases doc with
      | none => exact absurd hfield List.not_mem_nil
      | some old =>
          obtain ⟨field, -, rfl⟩ := List.mem_map.1 hfield
          exact field.reread_reread

theorem nextDocuments_again (hread : c.mode ≠ .addWithoutRead)
    (docs : DocumentID → Option Document) :
    nextDocuments config c (nextDocuments config c docs) =
      nextDocuments config c docs := by
  funext d
  cases hfor : c.documentFor d with
  | none => rw [nextDocuments, hfor]
  | some document =>
      rw [nextDocuments_of_some hfor, nextDocuments_of_some hfor]
      exact nextDocument_again hread document (docs d)

/-! ## Records and terms that are there -/

/-- The bytes of a record are those of its document. -/
theorem RecordCell.unique {target : EncodeTarget} {doc : Option Document}
    {cell cell' : Option Cell} (h : RecordCell config target doc cell)
    (h' : RecordCell config target doc cell') : cell = cell' := by
  cases h with
  | absent =>
      cases h' with
      | absent => rfl
  | record hser hlen =>
      cases h' with
      | record hser' hlen' =>
          rw [hser] at hser'
          obtain ⟨rfl, -⟩ := Prod.mk.inj (Option.some.inj hser')
          rfl

theorem callMutations_inverted (hread : c.mode ≠ .addWithoutRead)
    (h : Written config table db docs)
    (hsame : nextDocuments config c docs = docs) {document : Document}
    (hdoc : document ∈ c.documents) :
    invertedMutations config table
      (readyUpdater config op table db c.mode document) = [] := by
  rw [invertedMutations]
  split
  · rw [List.eq_nil_iff_forall_not_mem]
    intro m hm
    obtain ⟨f, t, state, ok, value, hrec, -, -⟩ := mem_termMutations.1 hm
    have hfor := c.documentFor_of_mem hdoc
    have hiff : NewTerm config (readyUpdater config op table db c.mode document)
        f t ↔ OldTerm config (readyUpdater config op table db c.mode document)
          f t := by
      rw [newTerm_iff h.keeps hfor, hsame,
        oldTerm_iff h.keeps h.termsStored hread hfor]
    rcases hrec with ⟨hnew, hold, -⟩ | ⟨hold, hnew, -⟩
    · exact hold (hiff.1 hnew)
    · exact hnew (hiff.2 hold)
  · rfl

namespace Written

/-- A call that makes the documents what they are already changes nothing. -/
theorem applyAll_settled (h : Written config table db docs)
    (hread : c.mode ≠ .addWithoutRead)
    (hadm : ∀ document ∈ c.documents,
      Admitted config op table db c.mode document)
    (hsame : nextDocuments config c docs = docs) :
    db.applyAll (callMutations config op table db c) = db := by
  have hkeeps := keeps_applyAll h.keeps hadm
  have hstale := noStale_applyAll h.keeps h.noStale hread hadm
  rw [hsame] at hkeeps hstale
  funext column
  refine Std.ExtTreeMap.ext_getElem? fun key => ?_
  by_cases hnone : (callMutations config op table db c).filter
      (·.touches column key) = []
  · rw [applyAll_getElem?, hnone, List.foldl_nil]
  · obtain ⟨m, hm⟩ := List.exists_mem_of_ne_nil _ hnone
    obtain ⟨hmem, htouch⟩ := List.mem_filter.1 hm
    rcases List.mem_append.1 hmem with hmem | hmem
    · rcases List.mem_append.1 hmem with hmem | hmem
      · obtain ⟨du, -, hmem⟩ := List.mem_flatMap.1 hmem
        rw [storedMutations_touch hmem, Bool.and_eq_true] at htouch
        obtain rfl := of_decide_eq_true htouch.1
        obtain rfl := of_decide_eq_true htouch.2
        exact (hkeeps.stored _).unique (h.keeps.stored _)
      · obtain ⟨du, hdu, hmem⟩ := List.mem_flatMap.1 hmem
        obtain ⟨document, hdoc, rfl⟩ := List.mem_map.1 hdu
        rw [callMutations_inverted hread h hsame hdoc] at hmem
        exact absurd hmem List.not_mem_nil
    · obtain ⟨du, -, hmem⟩ := List.mem_flatMap.1 hmem
      rw [docValueMutations_touch hmem, Bool.and_eq_true] at htouch
      obtain rfl := of_decide_eq_true htouch.1
      obtain rfl := of_decide_eq_true htouch.2
      cases hdoc : (docs du.newDocument.documentId).filter hasDocValue with
      | none => rw [hstale _ hdoc, h.noStale _ hdoc]
      | some doc =>
          exact (hkeeps.docValue _ doc hdoc).unique (h.keeps.docValue _ doc hdoc)

theorem perform_settled (h : Written config table db docs)
    (hread : c.mode ≠ .addWithoutRead)
    (hsame : nextDocuments config c docs = docs) :
    (c.perform config op table db).db = db := by
  rcases perform_db config op table db c with hkept | ⟨hadm, hdb⟩
  · exact hkept
  · rw [hdb]
    exact h.applyAll_settled hread hadm hsame

end Written

/-- The index writer may be sent a searchable request again. -/
theorem retryable_writerService (config : IndexConfig)
    (op : DocListMergeOperator) (table : TableID) :
    (writerService config op table).Retryable
      (fun db => ∃ docs, Written config table db docs)
      WriteRequest.Searchable where
  keeps := by
    rintro db ⟨docs, h⟩ r ⟨hread, hflags⟩ faults
    exact Written.perform (c := r.attempt faults) h hread hflags
  refused hok := (innerWriteDocuments_kept hok).1
  again := by
    rintro db ⟨docs, h⟩ r ⟨hread, hflags⟩ faults hok faults'
    have htaken := Written.perform_taken (c := r.attempt faults) h hread hflags
      hok rfl
    exact Written.perform_settled (c := r.attempt faults') htaken hread
      (nextDocuments_again (c := r.attempt faults') hread docs)

theorem runCalls_attemptCalls (requests : List (WriteRequest × List Faults)) :
    ∀ db : VirtualDB,
    runCalls config op table db (attemptCalls requests) =
      requests.foldl (fun db x => (writerService config op table).attempts x.1
        x.2 db) db := by
  induction requests with
  | nil => exact fun _ => rfl
  | cons x requests ih =>
      intro db
      rw [attemptCalls, List.flatMap_cons, runCalls, List.foldl_append,
        List.foldl_map]
      exact ih _

/-- However often each request is sent, and whatever goes wrong with which of
its attempts: the database is the one in which every request was applied once,
by the first attempt that returned true, and those without one not at all. -/
theorem attempts_apply_once (config : IndexConfig) (op : DocListMergeOperator)
    (table : TableID) (requests : List (WriteRequest × List Faults))
    (hrequests : ∀ x ∈ requests, x.1.Searchable) :
    runCalls config op table .empty (attemptCalls requests) =
      runOnce config op table .empty requests := by
  rw [runCalls_attemptCalls]
  exact (retryable_writerService config op table).run_eq_once requests
    ⟨_, written_empty config table⟩ hrequests

def requestOf (c : WriteCall) : WriteRequest := ⟨c.mode, c.documents, c.distinct⟩

/-- The flush of the first attempt fails, and the update is sent twice. -/
def sevenRequests : List (WriteRequest × List Faults) :=
  [(requestOf addSeven, [{ flush := fun _ => some "" }, {}, {}]),
    (requestOf updateSeven, [{}, {}])]

theorem attempts_apply_once_sevenRequests :
    runCalls spaceConfig millionOperator ⟨1, 2⟩ .empty
        (attemptCalls sevenRequests) =
      runOnce spaceConfig millionOperator ⟨1, 2⟩ .empty sevenRequests :=
  attempts_apply_once spaceConfig millionOperator ⟨1, 2⟩ sevenRequests (by
    simp only [sevenRequests, List.forall_mem_cons, WriteRequest.Searchable]
    decide)

end Wwsearch.Spec
