import Wwsearch.Proofs.MergeOperator
import Wwsearch.Proofs.Records

/-!
# The inverted column

The cell of a term collects lists of one record each, and a read merges them.
While no more ids are live than the operator keeps, the ids that are read are
those whose last record is OK (`mem_termList`). A call adds to the cell of a
term a record for each of its documents that gains or loses the term, and
nothing else (`lastState_newLists`), so the live ids of a term are the ids of the
documents that are indexed under it: `Posts` says so, `posts_applyAll` is the
step lemma, and `Consistent.mem_termList` is what a reader of such a table
sees.

The old side of a call comes from the stored record. Where the record leaves
terms out the writer cannot take them back, so no field may be flagged
NotStoreInvertTerm.
-/

namespace Wwsearch.Spec

open Wwsearch.Lib Wwsearch.Ref Wwsearch.Ref.DocumentWriter

/-! ## The cell of a term -/

theorem termCell_none : TermCell none where
  merges := fun _ h => nomatch h
  stores := fun _ h => nomatch h

/-- The list that a merge adds. -/
def mutationList : Mutation → List DocList
  | .merge _ _ value => listOf value
  | .put _ _ _ | .delete _ _ | .deleteRange _ _ _ => []

/-- A cell that only ever saw merges, of values of a kind. -/
def MergesOf (Q : Bytes → Prop) (cell : Option Cell) : Prop :=
  ∀ x ∈ cell, x.base = none ∧ x.operands ≠ [] ∧ ∀ value ∈ x.operands, Q value

theorem foldl_mergesOf {Q : Bytes → Prop} (ms : List Mutation) :
    ∀ cell : Option Cell, MergesOf Q cell →
    (∀ m ∈ ms, ∃ c k value, m = .merge c k value ∧ Q value) →
    MergesOf Q (ms.foldl Mutation.applyCell cell) ∧
      cellLists (ms.foldl Mutation.applyCell cell) =
        cellLists cell ++ ms.map mutationList := by
  induction ms with
  | nil => intro cell hcell _; exact ⟨hcell, (List.append_nil _).symm⟩
  | cons m ms ih =>
      intro cell hcell hms
      obtain ⟨c, k, value, rfl, hvalue⟩ := hms m List.mem_cons_self
      have hold : (cell.getD {}).base = none ∧
          ∀ v ∈ (cell.getD {}).operands, Q v := by
        cases cell with
        | none => exact ⟨rfl, fun v hv => absurd hv List.not_mem_nil⟩
        | some x => exact ⟨(hcell x rfl).1, (hcell x rfl).2.2⟩
      have hnext : MergesOf Q (Mutation.applyCell cell (.merge c k value)) := by
        rintro x ⟨⟩
        refine ⟨hold.1, ?_, fun v hv => ?_⟩
        · exact List.append_ne_nil_of_right_ne_nil _ (List.cons_ne_nil _ _)
        · rcases List.mem_append.1 hv with hv | hv
          · exact hold.2 v hv
          · obtain rfl := List.mem_singleton.1 hv
            exact hvalue
      obtain ⟨hcell', hlists⟩ := ih _ hnext fun m hm =>
        hms m (List.mem_cons_of_mem _ hm)
      refine ⟨hcell', ?_⟩
      rw [List.foldl_cons, hlists, List.map_cons]
      simp only [cellLists, Mutation.applyCell, Option.getD_some,
        List.map_append, List.map_cons, List.map_nil, List.append_assoc,
        List.singleton_append, mutationList]

theorem termCell_iff {cell : Option Cell} : TermCell cell ↔
    MergesOf (fun value => Stores value (listOf value)) cell :=
  ⟨fun h x hx => ⟨(h.merges x hx).1, (h.merges x hx).2, h.stores x hx⟩,
    fun h => ⟨fun x hx => ⟨(h x hx).1, (h x hx).2.1⟩, fun x hx => (h x hx).2.2⟩⟩

theorem foldl_merges (ms : List Mutation) (cell : Option Cell)
    (hcell : TermCell cell)
    (hms : ∀ m ∈ ms, ∃ c k value, m = .merge c k value ∧
      Stores value (listOf value)) :
    TermCell (ms.foldl Mutation.applyCell cell) ∧
      cellLists (ms.foldl Mutation.applyCell cell) =
        cellLists cell ++ ms.map mutationList := by
  rw [termCell_iff] at hcell ⊢
  exact foldl_mergesOf ms cell hcell hms

theorem forall₂_stores {values : List Bytes}
    (h : ∀ value ∈ values, Stores value (listOf value)) :
    List.Forall₂ Stores values (values.map listOf) :=
  List.forall₂_map_right_iff.2 (List.forall₂_same.2 h)

variable {config : IndexConfig} {op : DocListMergeOperator} {table : TableID}
  {db : VirtualDB} {f : FieldID} {t : Bytes}

/-- What is read for a term. -/
theorem termList_eq (hcell : TermCell
      (db .invertedIndexColumn)[encodeInvertedKey table f t]?) :
    termList op table db f t = fullMerge op.maxDocListNum.toNat
      (cellLists (db .invertedIndexColumn)[encodeInvertedKey table f t]?) := by
  rw [termList, VirtualDB.get]
  cases hc : (db .invertedIndexColumn)[encodeInvertedKey table f t]? with
  | none =>
      rw [Option.bind_none, Option.bind_none, Option.getD_none]
      simp [fullMerge, topLive, descending, idsWith, mentioned, cellLists]
  | some cell =>
      rw [hc] at hcell
      obtain ⟨hbase, hne⟩ := hcell.merges cell rfl
      obtain ⟨out, hrun, -, hread⟩ := fullMergeV2_eq op none hne
        (forall₂_stores (hcell.stores cell rfl))
      have hvalue : VirtualDB.cellValue op cell = some out := by
        rw [VirtualDB.cellValue, hbase]
        cases hops : cell.operands with
        | nil => exact absurd hops hne
        | cons v vs =>
            rw [hops] at hrun
            simp only [hrun]
            rfl
      rw [Option.bind_some, hvalue, Option.bind_some, hread, Option.getD_some]
      rfl

/-- Under the cap the ids that are read are the live ones. -/
theorem mem_termList {d : DocumentID} (hcell : TermCell
      (db .invertedIndexColumn)[encodeInvertedKey table f t]?)
    (hcap : ∀ ids : List DocumentID, ids.Nodup →
      (∀ x ∈ ids, lastState (cellLists
        (db .invertedIndexColumn)[encodeInvertedKey table f t]?) x =
          some kDocumentStateOK) → ids.length ≤ op.maxDocListNum.toNat) :
    (∃ e ∈ termList op table db f t, e.docId = d) ↔
      lastState (cellLists
        (db .invertedIndexColumn)[encodeInvertedKey table f t]?) d =
          some kDocumentStateOK := by
  have hcard : (idsWith kDocumentStateOK (cellLists
      (db .invertedIndexColumn)[encodeInvertedKey table f t]?)).card ≤
        op.maxDocListNum.toNat := by
    rw [← Finset.length_toList]
    refine hcap _ (Finset.nodup_toList _) fun x hx => ?_
    exact mem_idsWith.1 (Finset.mem_toList.1 hx)
  rw [termList_eq hcell, ← mem_topLive_of_card hcard, fullMerge]
  simp

/-! ## The records of a call -/

/-- The record that a document adds to the list of a term. -/
def TermRecord (config : IndexConfig) (du : DocumentUpdater) (f : FieldID)
    (t : Bytes) (state : DocumentState) : Prop :=
  NewTerm config du f t ∧ ¬ OldTerm config du f t ∧ state = kDocumentStateOK ∨
    OldTerm config du f t ∧ ¬ NewTerm config du f t ∧
      state = kDocumentStateDelete

theorem TermRecord.unique {du : DocumentUpdater} {s s' : DocumentState}
    (h : TermRecord config du f t s) (h' : TermRecord config du f t s') :
    s = s' := by
  rcases h with ⟨hn, -, rfl⟩ | ⟨-, hn, rfl⟩
  · rcases h' with ⟨-, -, rfl⟩ | ⟨-, hn', -⟩
    · rfl
    · exact absurd hn hn'
  · rcases h' with ⟨hn', -, -⟩ | ⟨-, -, rfl⟩
    · exact absurd hn' hn
    · rfl

theorem TermRecord.state {du : DocumentUpdater} {s : DocumentState}
    (h : TermRecord config du f t s) :
    s = kDocumentStateOK ∨ s = kDocumentStateDelete := by
  rcases h with ⟨-, -, hs⟩ | ⟨-, -, hs⟩
  · exact .inl hs
  · exact .inr hs

theorem wellFormed_singleton {d : DocumentID} {s : DocumentState} (hd : d ≠ 0)
    (hs : s = kDocumentStateOK ∨ s = kDocumentStateDelete) :
    WellFormed [⟨d, s⟩] where
  desc := List.pairwise_singleton _ _
  nonzero := by simpa using hd
  state := by simpa using hs

/-- One record is written in every layout, and read back. -/
theorem stores_singleton {d : DocumentID} {s : DocumentState} (hd : d ≠ 0)
    (hs : s = kDocumentStateOK ∨ s = kDocumentStateDelete)
    {type : DocListCompressionType} {ok : Bool} {value : Bytes}
    (h : writeDocList type [⟨d, s⟩] = some (ok, value)) :
    Stores value (listOf value) ∧ listOf value = [⟨d, s⟩] := by
  have hwf := wellFormed_singleton hd hs
  have hnum := length_filter_singleton_lt (fun doc => doc.docState ≠ 0) ⟨d, s⟩
  obtain ⟨out, hout⟩ := writeDocList_isSome hwf type hnum
  obtain ⟨rfl, rfl⟩ := Prod.mk.inj (Option.some.inj (h.symm.trans hout))
  have hread : docListOf value = some [⟨d, s⟩] := by
    refine docListOf_writeDocList hwf hnum (fun _ p hp => ?_) h
    have hlt := (le_of_mem_deletePositions hp).2
    rw [List.length_singleton] at hlt
    exact hlt.trans (by decide)
  have hlist : listOf value = [⟨d, s⟩] := by rw [listOf, hread, Option.getD_some]
  refine ⟨⟨?_, ?_, ?_⟩, hlist⟩
  · exact (length_writeDocList_singleton h).trans_lt (by decide)
  · rw [hlist, hread]
  · rw [hlist]
    exact hwf

/-- Every record can be written. -/
theorem exists_writeDocList_singleton {d : DocumentID} {s : DocumentState}
    (hd : d ≠ 0) (hs : s = kDocumentStateOK ∨ s = kDocumentStateDelete)
    (type : DocListCompressionType) :
    ∃ value, writeDocList type [⟨d, s⟩] = some (true, value) :=
  writeDocList_isSome (wellFormed_singleton hd hs) type
    (length_filter_singleton_lt _ _)

/-! ## The terms of a stored document -/

theorem indexed_reread {doc : Document} (h : TermsStored doc) :
    Indexed config (doc.reread .storedField).fields f t ↔
      Indexed config doc.fields f t := by
  constructor
  · rintro ⟨field, hfield, hid, ht⟩
    obtain ⟨field, hmem, rfl⟩ := List.mem_map.1 hfield
    rw [IndexField.reread_fieldId] at hid
    rw [expandedTerms_reread config (h field hmem)] at ht
    exact ⟨field, hmem, hid, ht⟩
  · rintro ⟨field, hmem, hid, ht⟩
    refine ⟨_, List.mem_map_of_mem hmem, ?_, ?_⟩
    · rw [IndexField.reread_fieldId, hid]
    · rw [expandedTerms_reread config (h field hmem)]
      exact ht

theorem length_le_of_mem_terms (fuel : Nat) : ∀ b : UTF8SuffixBuilder,
    t ∈ UTF8SuffixBuilder.terms fuel b → t.length ≤ b.buffer.length := by
  have hterm : ∀ b : UTF8SuffixBuilder, b.term.length ≤ b.buffer.length := by
    intro b
    rw [UTF8SuffixBuilder.term, List.length_drop]
    exact Nat.sub_le _ _
  induction fuel with
  | zero =>
      intro b h
      obtain rfl := List.mem_singleton.1 h
      exact hterm b
  | succ fuel ih =>
      intro b h
      rw [UTF8SuffixBuilder.terms] at h
      split at h
      · obtain rfl := List.mem_singleton.1 h
        exact hterm b
      · next b' hnext =>
          rcases List.mem_cons.1 h with rfl | h
          · exact hterm b
          · have hbuffer : b'.buffer = b.buffer := by
              simp only [UTF8SuffixBuilder.next, Option.bind_eq_bind,
                Option.bind_eq_some_iff] at hnext
              obtain ⟨step, -, hif⟩ := hnext
              split at hif
              · rw [← Option.some.inj hif]
              · cases hif
            exact hbuffer ▸ ih b' h

/-- A suffix is not longer than its term. -/
theorem length_le_of_mem_expandTerm {field : IndexField} {term : Bytes}
    (h : t ∈ expandTerm config field term) : t.length ≤ term.length := by
  rw [expandTerm] at h
  split at h
  · exact length_le_of_mem_terms _ _ h
  · rw [List.mem_singleton.1 h]

/-- A term of a record that was put is short enough for its key. -/
theorem length_lt_of_indexed {doc : Document} {value : Bytes} {flag : Bool}
    (hser : doc.serializeToBytes config.pb .storedField = some (value, flag))
    (hlen : value.length < 2 ^ 32) (hstored : TermsStored doc)
    (h : Indexed config doc.fields f t) : t.length < 2 ^ 32 := by
  obtain ⟨field, hfield, -, ht⟩ := h
  obtain ⟨term, hterm, hexp⟩ := List.mem_flatMap.1 ht
  have hencoded : term ∈ (field.encodeToStoreField .storedField).terms := by
    simpa [IndexField.encodeToStoreField, hstored field hfield] using
      List.mem_of_mem_filter hterm
  have hle := config.pb.term_length_le (Document.serializeToBytes_eq_some hser).1
    _ (List.mem_map_of_mem hfield) term hencoded
  have := length_le_of_mem_expandTerm hexp
  omega

theorem flag_of_mem_doFields (tokenizer : Tokenizer) (d : DocumentID)
    {field : IndexField} (fields : List IndexField) :
    field ∈ (tokenizer.doFields d fields).1 →
      ∃ given ∈ fields, field.flag = given.flag := by
  induction fields with
  | nil => intro h; exact absurd h List.not_mem_nil
  | cons given rest ih =>
      intro h
      rw [Tokenizer.doFields] at h
      split at h
      · exact ⟨field, h, rfl⟩
      · rcases List.mem_cons.1 h with rfl | h
        · exact ⟨given, List.mem_cons_self, rfl⟩
        · obtain ⟨g, hg, hflag⟩ := ih h
          exact ⟨g, List.mem_cons_of_mem given hg, hflag⟩

theorem mem_copyOldFields {field : IndexField} (old : List IndexField) :
    ∀ new : Document, field ∈ (copyOldFields new old).fields →
      field ∈ new.fields ∨ field ∈ old := by
  induction old with
  | nil => intro new h; exact .inl h
  | cons given rest ih =>
      intro new h
      rw [copyOldFields, List.foldl_cons] at h
      rcases ih _ h with h | h
      · split at h
        · rcases List.mem_append.1 h with h | h
          · exact .inl h
          · obtain rfl := List.mem_singleton.1 h
            exact .inr List.mem_cons_self
        · exact .inl h
      · exact .inr (List.mem_cons_of_mem given h)

theorem termsStored_writtenDocument {mode : DocumentUpdaterType}
    {document : Document} {old : Option Document} (hnew : TermsStored document)
    (hold : ∀ doc ∈ old, TermsStored doc) :
    TermsStored (writtenDocument config mode document (oldFor mode old)) := by
  have hdo : TermsStored (config.tokenizer.do' document).1 := by
    intro field hfield
    obtain ⟨given, hgiven, hflag⟩ :=
      flag_of_mem_doFields config.tokenizer document.documentId _ hfield
    rw [hflag]
    exact hnew given hgiven
  rw [writtenDocument]
  split
  · exact hdo
  · intro field hfield
    rcases mem_copyOldFields _ _ hfield with hfield | hfield
    · exact hdo field hfield
    · rw [oldFor] at hfield
      split at hfield
      · exact absurd hfield List.not_mem_nil
      · cases old with
        | none => exact absurd hfield List.not_mem_nil
        | some doc =>
            obtain ⟨field, hmem, rfl⟩ := List.mem_map.1 hfield
            rw [IndexField.reread_flag]
            exact hold doc rfl field hmem

/-! ## The step -/

section Step

variable {docs : DocumentID → Option Document} {c : WriteCall}
  {document : Document} {d : DocumentID}

theorem Keeps.length_lt (h : Keeps config table db docs)
    (hstored : ∀ d, ∀ doc ∈ docs d, TermsStored doc)
    (ht : HasTerm config (docs d) f t) : t.length < 2 ^ 32 := by
  obtain ⟨doc, hdoc, hindexed⟩ := ht
  have hcell := h.stored d
  have hterms := hstored d doc hdoc
  rw [Option.mem_def.1 hdoc] at hcell
  generalize (db .storedFieldColumn)[encodeStoredFieldKey table d]? = cell
    at hcell
  cases hcell with
  | record hser hlen => exact length_lt_of_indexed hser hlen hterms hindexed

theorem termsStored_nextDocuments
    (hstored : ∀ d, ∀ doc ∈ docs d, TermsStored doc)
    (hcall : ∀ document ∈ c.documents, TermsStored document) :
    ∀ d, ∀ doc ∈ nextDocuments config c docs d, TermsStored doc := by
  intro d doc hdoc
  rw [nextDocuments] at hdoc
  split at hdoc
  · exact hstored d doc hdoc
  · next document hfor =>
      rw [nextDocument] at hdoc
      split at hdoc
      · cases hdoc
      · obtain rfl := Option.some.inj hdoc
        exact termsStored_writtenDocument
          (hcall document (c.documentFor_eq_some hfor).1) (hstored d)

theorem newTerm_iff (h : Keeps config table db docs)
    (hfor : c.documentFor d = some document) :
    NewTerm config (readyUpdater config op table db c.mode document) f t ↔
      HasTerm config (nextDocuments config c docs d) f t := by
  obtain ⟨-, rfl⟩ := c.documentFor_eq_some hfor
  rw [NewTerm, HasTerm, readyUpdater_delete, nextDocuments_of_some hfor,
    nextDocument]
  by_cases hdel : c.mode = .delete
  · simp [hdel]
  · rw [readyUpdater_newDocument hdel, h.readOld]
    simp [hdel]

theorem oldTerm_iff (h : Keeps config table db docs)
    (hstored : ∀ d, ∀ doc ∈ docs d, TermsStored doc)
    (hread : c.mode ≠ .addWithoutRead)
    (hfor : c.documentFor d = some document) :
    OldTerm config (readyUpdater config op table db c.mode document) f t ↔
      HasTerm config (docs d) f t := by
  obtain ⟨-, rfl⟩ := c.documentFor_eq_some hfor
  rw [OldTerm, HasTerm, readyUpdater_oldDocument, h.readOld, oldFor,
    if_neg hread]
  cases hdoc : docs document.documentId with
  | none => simp [Indexed]
  | some doc =>
      have hindexed : Indexed config (doc.reread .storedField).fields f t ↔ _ :=
        indexed_reread (hstored _ doc hdoc)
      simpa using hindexed

/-- An updater that is passed over has no record to add. -/
theorem TermRecord.ok {mode : DocumentUpdaterType} {s : DocumentState}
    (h : TermRecord config (readyUpdater config op table db mode document)
      f t s) :
    (readyUpdater config op table db mode document).status.ok = true := by
  rw [readyUpdater_ok]
  intro hdel
  have hnew : ¬ NewTerm config (readyUpdater config op table db mode document)
      f t := by
    rw [NewTerm, readyUpdater_delete, decide_eq_true hdel]
    exact fun hn => absurd hn.1 Bool.noConfusion
  rcases h with ⟨hn, -, -⟩ | ⟨hold, -, -⟩
  · exact absurd hn hnew
  · rw [OldTerm, readyUpdater_oldDocument] at hold
    cases hs : readOld config op table db mode document.documentId with
    | none =>
        rw [hs] at hold
        obtain ⟨field, hfield, -⟩ := hold
        exact absurd hfield List.not_mem_nil
    | some old => rfl

/-- The mutations of a call for one term. -/
theorem mem_filter_touches (ht : t.length < 2 ^ 32)
    (hlen : ∀ document ∈ c.documents, ∀ f' t' s, TermRecord config
      (readyUpdater config op table db c.mode document) f' t' s →
        t'.length < 2 ^ 32) {m : Mutation} :
    m ∈ (callMutations config op table db c).filter
        (·.touches .invertedIndexColumn (encodeInvertedKey table f t)) ↔
      ∃ document ∈ c.documents, ∃ s ok value,
        TermRecord config (readyUpdater config op table db c.mode document)
          f t s ∧
        writeDocList config.compressionType [⟨document.documentId, s⟩] =
          some (ok, value) ∧
        m = .merge .invertedIndexColumn (encodeInvertedKey table f t)
          value := by
  rw [callMutations, filter_batchMutations_inverted, List.mem_filter,
    List.flatMap_map, List.mem_flatMap]
  constructor
  · rintro ⟨⟨document, hdoc, hm⟩, htouch⟩
    rw [invertedMutations] at hm
    split at hm
    · obtain ⟨f', t', s, ok, value, hrec, hw, rfl⟩ := mem_termMutations.1 hm
      have hkey : encodeInvertedKey table f' t' = encodeInvertedKey table f t :=
        of_decide_eq_true (Bool.and_eq_true_iff.1 htouch).2
      obtain ⟨rfl, rfl⟩ :=
        encodeInvertedKey_inj (hlen document hdoc f' t' s hrec) ht hkey
      rw [readyUpdater_documentId] at hw
      exact ⟨document, hdoc, s, ok, value, hrec, hw, rfl⟩
    · exact absurd hm List.not_mem_nil
  · rintro ⟨document, hdoc, s, ok, value, hrec, hw, rfl⟩
    refine ⟨⟨document, hdoc, ?_⟩, ?_⟩
    · rw [invertedMutations, if_pos hrec.ok]
      refine mem_termMutations.2 ⟨f, t, s, ok, value, hrec, ?_, rfl⟩
      rw [readyUpdater_documentId]
      exact hw
    · rw [Mutation.touches, Mutation.column]
      simp

/-- The state that a call gives to the id of one of its documents. -/
theorem lastState_newLists {ms : List Mutation}
    (hids : ∀ document ∈ c.documents, document.documentId ≠ 0)
    (hms : ∀ m, m ∈ ms ↔ ∃ document ∈ c.documents, ∃ s ok value,
      TermRecord config (readyUpdater config op table db c.mode document)
        f t s ∧
      writeDocList config.compressionType [⟨document.documentId, s⟩] =
        some (ok, value) ∧
      m = .merge .invertedIndexColumn (encodeInvertedKey table f t) value)
    (s : DocumentState) :
    lastState (ms.map mutationList) d = some s ↔
      ∃ document, c.documentFor d = some document ∧
        TermRecord config (readyUpdater config op table db c.mode document)
          f t s := by
  have hlayer : ∀ layer ∈ (ms.map mutationList).map stateIn, ∀ s',
      layer d = some s' → ∃ document, c.documentFor d = some document ∧
        TermRecord config (readyUpdater config op table db c.mode document)
          f t s' := by
    intro layer hl s' hs'
    rw [List.map_map] at hl
    obtain ⟨m, hm, rfl⟩ := List.mem_map.1 hl
    obtain ⟨x, hx, s₁, ok, value, hrec, hw, rfl⟩ := (hms m).1 hm
    have hlist := (stores_singleton (hids x hx) hrec.state hw).2
    simp only [Function.comp_apply, mutationList, hlist] at hs'
    have hmem := (stateIn_eq_some (List.pairwise_singleton _ _)).1 hs'
    obtain ⟨rfl, rfl⟩ := DocList.mk.inj (List.mem_singleton.1 hmem)
    exact ⟨x, c.documentFor_of_mem hx, hrec⟩
  constructor
  · intro h
    obtain ⟨layer, hl, hs⟩ := Overlay.read_mem h
    exact hlayer layer hl s hs
  · rintro ⟨document, hdoc, hrec⟩
    obtain ⟨hmem, rfl⟩ := c.documentFor_eq_some hdoc
    obtain ⟨value, hw⟩ := exists_writeDocList_singleton
      (hids document hmem) hrec.state config.compressionType
    have hm := (hms _).2 ⟨document, hmem, s, true, value, hrec, hw, rfl⟩
    have hlist := (stores_singleton (hids document hmem) hrec.state hw).2
    cases hread : lastState (ms.map mutationList) document.documentId with
    | none =>
        have hnone := Overlay.read_eq_none.1 hread _
          (List.mem_map_of_mem (List.mem_map_of_mem hm))
        simp only [mutationList, hlist, stateIn_eq_none, List.mem_singleton,
          forall_eq, ne_eq, not_true] at hnone
    | some s' =>
        obtain ⟨layer, hl, hs'⟩ := Overlay.read_mem hread
        obtain ⟨x, hx, hrec'⟩ := hlayer layer hl s' hs'
        obtain rfl := Option.some.inj (hdoc.symm.trans hx)
        rw [hrec'.unique hrec]

/-- A call moves the live ids of every term along with its documents. -/
theorem posts_applyAll (hread : c.mode ≠ .addWithoutRead)
    (hkeeps : Keeps config table db docs)
    (hstored : ∀ d, ∀ doc ∈ docs d, TermsStored doc)
    (hcall : ∀ document ∈ c.documents, TermsStored document)
    (hadm : ∀ document ∈ c.documents,
      Admitted config op table db c.mode document)
    (h : Posts config table db docs) :
    Posts config table (db.applyAll (callMutations config op table db c))
      (nextDocuments config c docs) := by
  have hids : ∀ document ∈ c.documents, document.documentId ≠ 0 :=
    fun document hdoc => (hadm document hdoc).id_ne_zero
  have hlen : ∀ document ∈ c.documents, ∀ f' t' s, TermRecord config
      (readyUpdater config op table db c.mode document) f' t' s →
        t'.length < 2 ^ 32 := by
    rintro x hx f' t' s (⟨hnew, -, -⟩ | ⟨hold, -, -⟩)
    · exact (keeps_applyAll hkeeps hadm).length_lt
        (termsStored_nextDocuments hstored hcall)
        ((newTerm_iff hkeeps (c.documentFor_of_mem hx)).1 hnew)
    · exact hkeeps.length_lt hstored
        ((oldTerm_iff hkeeps hstored hread (c.documentFor_of_mem hx)).1 hold)
  have hfold : ∀ (f : FieldID) (t : Bytes), t.length < 2 ^ 32 → _ := fun f t ht =>
    foldl_merges ((callMutations config op table db c).filter
      (·.touches .invertedIndexColumn (encodeInvertedKey table f t)))
      _ (h.cell f t ht) fun m hm => by
        obtain ⟨x, hx, s, ok, value, hrec, hw, rfl⟩ :=
          (mem_filter_touches ht hlen).1 hm
        exact ⟨_, _, value, rfl, (stores_singleton (hids x hx) hrec.state hw).1⟩
  constructor
  · intro f t ht
    rw [applyAll_getElem?]
    exact (hfold f t ht).1
  · intro f t ht d
    rw [applyAll_getElem?, (hfold f t ht).2, lastState_append]
    have hnew := lastState_newLists (d := d) (f := f) hids
      fun m => mem_filter_touches (m := m) ht hlen
    cases hlast : lastState (((callMutations config op table db c).filter
        (·.touches .invertedIndexColumn
          (encodeInvertedKey table f t))).map mutationList) d with
    | some s =>
        obtain ⟨document, hdoc, hrec⟩ := (hnew s).1 hlast
        rw [Option.some_or, ← newTerm_iff hkeeps hdoc]
        rcases hrec with ⟨hn, -, rfl⟩ | ⟨-, hn, rfl⟩
        · exact ⟨fun _ => hn, fun _ => rfl⟩
        · exact ⟨fun hs => absurd (Option.some.inj hs) (by decide),
            fun hn' => absurd hn' hn⟩
    | none =>
        rw [Option.none_or, h.live f t ht]
        cases hdoc : c.documentFor d with
        | none => rw [nextDocuments, hdoc]
        | some document =>
            -- without a record the document keeps the term, or stays without
            rw [← newTerm_iff hkeeps hdoc, ← oldTerm_iff hkeeps hstored hread hdoc]
            have hno : ∀ s, ¬ TermRecord config
                (readyUpdater config op table db c.mode document) f t s := by
              intro s hrec
              rw [(hnew s).2 ⟨document, hdoc, hrec⟩] at hlast
              cases hlast
            constructor
            · intro hold
              by_contra hn
              exact hno _ (.inr ⟨hold, hn, rfl⟩)
            · intro hn
              by_contra hold
              exact hno _ (.inl ⟨hn, hold, rfl⟩)

end Step

theorem posts_empty : Posts config table .empty (fun _ => none) where
  cell f t _ := by
    rw [VirtualDB.empty, Std.ExtTreeMap.getElem?_empty]
    exact termCell_none
  live f t _ d := by
    rw [VirtualDB.empty, Std.ExtTreeMap.getElem?_empty]
    simp [HasTerm, cellLists, lastState]

theorem consistent_empty : Consistent config table .empty :=
  ⟨_, keeps_empty, posts_empty, (fun _ _ h => nomatch h)⟩

/-- A run without unstored terms keeps a table consistent. -/
theorem Consistent.runCalls {calls : List WriteCall}
    (h : Consistent config table db) (hread : ReadFirst calls)
    (hflags : ∀ c ∈ calls, ∀ document ∈ c.documents, TermsStored document) :
    Consistent config table (runCalls config op table db calls) := by
  refine runCalls_induction ?_ h
  rintro db ⟨docs, hkeeps, hposts, hstored⟩ c hc hadm
  exact ⟨_, keeps_applyAll hkeeps hadm,
    posts_applyAll (hread c hc) hkeeps hstored (hflags c hc) hadm hposts,
    termsStored_nextDocuments hstored (hflags c hc)⟩

/-- In a consistent table an id is in the list of a term if and only if its
stored record has a field that is indexed under the term, under the cap. -/
theorem Consistent.mem_termList (h : Consistent config table db)
    (ht : t.length < 2 ^ 32)
    (hcap : ∀ ids : List DocumentID, ids.Nodup →
      (∀ d ∈ ids, ∃ doc, storedDocument config op table db d = some doc ∧
        Indexed config doc.fields f t) →
      ids.length ≤ op.maxDocListNum.toNat)
    (d : DocumentID) :
    (∃ e ∈ termList op table db f t, e.docId = d) ↔
      ∃ doc, storedDocument config op table db d = some doc ∧
        Indexed config doc.fields f t := by
  obtain ⟨docs, hkeeps, hposts, hstored⟩ := h
  have hhas : ∀ d, HasTerm config (docs d) f t ↔
      ∃ doc, storedDocument config op table db d = some doc ∧
        Indexed config doc.fields f t := by
    intro d
    rw [hkeeps.storedDocument, HasTerm]
    cases hdoc : docs d with
    | none => simp
    | some doc =>
        have hindexed : Indexed config (doc.reread .storedField).fields f t ↔
          _ := indexed_reread (hstored d doc hdoc)
        simpa using hindexed.symm
  rw [Spec.mem_termList (hposts.cell f t ht), hposts.live f t ht, hhas]
  intro ids hnodup hlive
  refine hcap ids hnodup fun x hx => ?_
  rw [← hhas, ← hposts.live f t ht]
  exact hlive x hx

/-- After every run in the modes that read, an id is in the list of a term if
and only if the stored record of the id has a field that is indexed under the
term: as long as no field keeps its terms out of the record, no more documents
have the term than a list may hold, and the term's length fits the width it is
passed in. -/
theorem termList_iff_indexed (config : IndexConfig)
    (op : DocListMergeOperator) (table : TableID) (calls : List WriteCall)
    (hread : ReadFirst calls)
    (hflags : ∀ c ∈ calls, ∀ document ∈ c.documents, ∀ field ∈ document.fields,
      field.flag.notStoreInvertTerm = false)
    (f : FieldID) (t : Bytes) (ht : t.length < 2 ^ 32)
    (hcap : ∀ ids : List DocumentID, ids.Nodup →
      (∀ d ∈ ids, ∃ doc, storedDocument config op table
          (runCalls config op table .empty calls) d = some doc ∧
        Indexed config doc.fields f t) →
      ids.length ≤ op.maxDocListNum.toNat)
    (d : DocumentID) :
    let db := runCalls config op table .empty calls
    (∃ e ∈ termList op table db f t, e.docId = d) ↔
      ∃ doc, storedDocument config op table db d = some doc ∧
        Indexed config doc.fields f t := by
  exact (consistent_empty.runCalls hread hflags).mem_termList ht hcap d

/-- Field 1 of document 7, stored and split into terms. -/
def seven (text : Bytes) : Document where
  documentId := 7
  fields := [{ fieldId := 1, flag := ⟨19⟩, fieldType := kStringIndexField
               stringValue := text }]

def addSeven : WriteCall where
  mode := .add
  documents := [seven [65, 66, 32, 67]]
  distinct := by decide

def updateSeven : WriteCall where
  mode := .update
  documents := [seven [67, 32, 68]]
  distinct := by decide

/-- Document 7 is added with the terms `AB` and `C` and updated to `C` and `D`:
it is in the list of `D`. -/
theorem termList_iff_indexed_updateSeven :
    ∃ e ∈ termList millionOperator ⟨1, 2⟩ (runCalls spaceConfig millionOperator
      ⟨1, 2⟩ .empty [addSeven, updateSeven]) 1 [68], e.docId = 7 := by
  have hstored : (storedDocument spaceConfig millionOperator ⟨1, 2⟩
      (runCalls spaceConfig millionOperator ⟨1, 2⟩ .empty
        [addSeven, updateSeven]) 7).any
      (fun doc => decide (Indexed spaceConfig doc.fields 1 [68])) = true := by
    decide +kernel
  obtain ⟨hsome, hindexed⟩ := (Option.any_eq_true_iff_get _ _).1 hstored
  refine (termList_iff_indexed spaceConfig millionOperator ⟨1, 2⟩
    [addSeven, updateSeven] ?_ ?_ 1 [68] (by decide) ?_ 7).2
      ⟨_, (Option.some_get hsome).symm, of_decide_eq_true hindexed⟩
  · simp [ReadFirst, addSeven, updateSeven]
  · decide
  · intro ids hnodup hids
    have hseven : ids ⊆ [7] := by
      intro d hd
      obtain ⟨doc, hdoc, -⟩ := hids d hd
      by_contra hne
      rw [List.mem_singleton] at hne
      rw [storedDocument_of_not_written] at hdoc
      · cases hdoc
      · simp [WriteCall.documentFor, addSeven, updateSeven, seven, Ne.symm hne]
    exact (hnodup.subperm hseven).length_le.trans (by decide)

end Wwsearch.Spec
