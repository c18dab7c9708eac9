import Wwsearch.Proofs.Operations
import Wwsearch.Proofs.Paging
import Wwsearch.Spec.Search

/-!
# A table that was written can be searched

What a reader wants of the two columns it reads: every list can be read and is
descending, every doc-value record can be read and carries its id
(`Written.readableIndex`, `Written.readableDocValues`). A run of calls gives it
that, since a batch refuses a key that is too long, a list is a merge of
well-formed ones, and a record is one that the writer has encoded
(`Written.runCalls`).
-/

namespace Wwsearch.Spec

open Wwsearch.Lib Wwsearch.Ref Wwsearch.Ref.DocumentWriter
open Wwsearch.Ref.IndexWriter

/-! ## What a batch takes -/

/-- Every mutation of the batch is one that it takes. -/
def Taken (buffer : WriteBuffer) : Prop :=
  ∀ m ∈ buffer.mutations, m.tooLarge = none

section Taken

variable {config : IndexConfig} {faults : Faults} {table : TableID}
  {buffer : WriteBuffer}

theorem Taken.append (h : Taken buffer) (m : Mutation) :
    Taken (buffer.append faults m).1 := by
  rw [WriteBuffer.append]
  split
  · exact h
  · next hnone =>
      intro m' hm'
      rcases List.mem_append.1 hm' with hm' | hm'
      · exact h m' hm'
      · rw [List.mem_singleton.1 hm']
        exact (Option.or_eq_none_iff.1 hnone).1

theorem Taken.appendAll (ms : List Mutation) : ∀ {buffer : WriteBuffer},
    Taken buffer → Taken (appendAll faults ms buffer).1 := by
  induction ms with
  | nil => exact fun h => h
  | cons m ms ih =>
      intro buffer h
      rw [DocumentWriter.appendAll]
      simp only
      split
      · exact ih (h.append m)
      · exact h.append m

/-- The steps that put nothing into the batch but through `append`. -/
def StepTakes (step : DocumentUpdater → WriteBuffer →
    DocumentUpdater × WriteBuffer × SearchStatus) : Prop :=
  ∀ du buffer, Taken buffer → Taken (step du buffer).2.1

theorem stepTakes_tokenize : StepTakes (tokenizeStep config) := by
  intro du buffer h
  simp only [tokenizeStep]
  split
  · exact h
  · split
    · split
      · exact h
      · exact h
    · exact h

theorem stepTakes_mergeOldField : StepTakes mergeOldFieldStep := by
  intro du buffer h
  rw [mergeOldFieldStep]
  split
  · exact h
  · exact h

theorem stepTakes_stored :
    StepTakes (writeStoredFieldStep config faults table) := by
  intro du buffer h
  rw [writeStoredFieldStep]
  split
  · simp only [putStoredField]
    split
    · split
      · exact h.append _
      · exact h
    · exact h.append _
  · exact h

theorem stepTakes_inverted :
    StepTakes (writeInvertedIndexStep config faults table) := by
  intro du buffer h
  rw [writeInvertedIndexStep]
  split
  · exact h.appendAll _
  · exact h

theorem Taken.deleteOldDocValue (h : Taken buffer) (du : DocumentUpdater) :
    Taken (deleteOldDocValue faults table du buffer).1 := by
  rw [DocumentWriter.deleteOldDocValue]
  split
  · exact h.append _
  · exact h

theorem stepTakes_docValue :
    StepTakes (writeDocValueStep config faults table) := by
  intro du buffer h
  rw [writeDocValueStep]
  split
  · simp only [putDocValue]
    split
    · split
      · exact h.append _
      · exact h.deleteOldDocValue du
      · exact h
    · exact h.deleteOldDocValue du
  · exact h

theorem StepTakes.forEach {step : DocumentUpdater → WriteBuffer →
      DocumentUpdater × WriteBuffer × SearchStatus} (hstep : StepTakes step)
    (documents : List DocumentUpdater) : ∀ {buffer : WriteBuffer},
    Taken buffer → Taken (forEach step documents buffer).2.1 := by
  induction documents with
  | nil => exact fun h => h
  | cons du rest ih =>
      intro buffer h
      rw [Ref.forEach]
      simp only
      split
      · exact ih (hstep du buffer h)
      · exact hstep du buffer h

theorem StepTakes.runStage {step : DocumentUpdater → WriteBuffer →
      DocumentUpdater × WriteBuffer × SearchStatus} (hstep : StepTakes step)
    {r : List DocumentUpdater × WriteBuffer × SearchStatus}
    (h : Taken r.2.1) : Taken (runStage r step).2.1 := by
  rw [DocumentWriter.runStage]
  split
  · exact hstep.forEach r.1 h
  · exact h

theorem Taken.buildBatch (h : Taken buffer)
    (documents : List DocumentUpdater) :
    Taken (buildBatch config faults table documents buffer).2.1 := by
  simp only [DocumentWriter.buildBatch, List.foldl_cons, List.foldl_nil]
  exact stepTakes_docValue.runStage (stepTakes_inverted.runStage
    (stepTakes_stored.runStage (stepTakes_mergeOldField.runStage
      (stepTakes_tokenize.runStage h))))

end Taken

variable {config : IndexConfig} {op : DocListMergeOperator} {table : TableID}
  {db : VirtualDB}

/-- What a call applies to the database, it has taken into its batch. -/
theorem effect_taken {c : BatchCall} {m : Mutation}
    (h : m ∈ effect config op table db c) : m.tooLarge = none := by
  rw [effect] at h
  split at h
  · next hok =>
      have hs := innerWriteDocuments_ok hok.1
      have htaken : Taken (buildBatch config c.faults table
          (c.read config op table db).1 (WriteBuffer.new none)).2.1 :=
        Taken.buildBatch (fun m hm => absurd hm List.not_mem_nil) _
      have hmutations := hs.mutations
      rw [hok.2] at hmutations
      refine htaken m ?_
      rw [BatchCall.read, hmutations]
      exact List.mem_append_right _ h
  · exact absurd h List.not_mem_nil

/-! ## The keys of a table that stands alone -/

/-- Every key is one of the table, and one that a batch takes. -/
def Alone (table : TableID) (db : VirtualDB) : Prop :=
  ∀ column key, (db column)[key]? ≠ none →
    encodeMetaKey table <+: key ∧ key.length < 2 ^ 32

theorem alone_empty : Alone table .empty := fun _ _ h => absurd rfl h

theorem length_of_tooLarge {m : Mutation} (h : m.tooLarge = none)
    {column : StorageColumnType} {key : Bytes}
    (htouch : m.touches column key = true) (cell : Option Cell)
    (hkept : m.applyCell cell ≠ none) : key.length < 2 ^ 32 := by
  have hkey := (Bool.and_eq_true_iff.1 htouch).2
  cases m with
  | put c k v =>
      rw [← of_decide_eq_true hkey]
      rw [Mutation.tooLarge] at h
      split at h
      · cases h
      · next hlen => exact Nat.not_le.1 hlen
  | merge c k v =>
      rw [← of_decide_eq_true hkey]
      rw [Mutation.tooLarge] at h
      split at h
      · cases h
      · next hlen => exact Nat.not_le.1 hlen
  | delete c k => exact absurd rfl hkept
  | deleteRange c b e => exact absurd rfl hkept

theorem Alone.applyAll (ms : List Mutation) : ∀ {db : VirtualDB},
    Alone table db → (∀ m ∈ ms, m.tooLarge = none ∧ m.Within table) →
    Alone table (db.applyAll ms) := by
  induction ms with
  | nil => exact fun h _ => h
  | cons m ms ih =>
      intro db h hms
      obtain ⟨hsize, hwithin⟩ := hms m List.mem_cons_self
      refine @ih (m.apply db) (fun column key hkey => ?_) fun m' hm' =>
        hms m' (List.mem_cons_of_mem m hm')
      rw [Mutation.apply_getElem?] at hkey
      split at hkey
      · next htouch =>
          exact ⟨hwithin column key htouch,
            length_of_tooLarge hsize htouch _ hkey⟩
      · exact h column key hkey

/-! ## A table and its documents -/

/-- A value that decodes can be read. -/
theorem newDocListReaderCodec_of_docListOf {value : Bytes}
    {docs : List DocList} (h : docListOf value = some docs) :
    newDocListReaderCodec value 0 = some { slice := docs, fieldId := 0 } := by
  have hnonempty : value ≠ [] := by
    rintro rfl
    cases h
  rw [newDocListReaderCodec, if_neg hnonempty, h]
  rfl

/-- A table that calls have written, and the documents that are in it. -/
structure Written (config : IndexConfig) (table : TableID) (db : VirtualDB)
    (docs : DocumentID → Option Document) : Prop where
  keeps : Keeps config table db docs
  posts : Posts config table db docs
  termsStored : ∀ d, ∀ doc ∈ docs d, TermsStored doc
  noStale : NoStale table db docs
  ids : ∀ d, ∀ doc ∈ docs d, doc.documentId = d
  wellKeyed : WellKeyed db
  alone : Alone table db

theorem written_empty (config : IndexConfig) (table : TableID) :
    Written config table .empty fun _ => none where
  keeps := keeps_empty
  posts := posts_empty
  termsStored := fun _ _ h => absurd h (Option.not_mem_none _)
  noStale := noStale_empty
  ids := fun _ _ h => absurd h (Option.not_mem_none _)
  wellKeyed := wellKeyed_empty
  alone := alone_empty

theorem writtenDocument_documentId (mode : DocumentUpdaterType)
    (document : Document) (old : Option Document) :
    (writtenDocument config mode document old).documentId =
      document.documentId := by
  rw [writtenDocument]
  split
  · rfl
  · exact copyOldFields_documentId _ _

theorem ids_nextDocuments {docs : DocumentID → Option Document}
    (h : ∀ d, ∀ doc ∈ docs d, doc.documentId = d) (c : WriteCall) :
    ∀ d, ∀ doc ∈ nextDocuments config c docs d, doc.documentId = d := by
  intro d doc hdoc
  cases hfor : c.documentFor d with
  | none =>
      rw [nextDocuments, hfor] at hdoc
      exact h d doc hdoc
  | some document =>
      rw [nextDocuments_of_some hfor, nextDocument] at hdoc
      split at hdoc
      · exact absurd hdoc (Option.not_mem_none _)
      · obtain rfl := Option.some.inj hdoc
        rw [writtenDocument_documentId]
        exact (c.documentFor_eq_some hfor).2

namespace Written

variable {docs : DocumentID → Option Document}

/-- A call that takes effect. -/
theorem applyAll (h : Written config table db docs) {c : WriteCall}
    (hread : c.mode ≠ .addWithoutRead)
    (hcall : ∀ document ∈ c.documents, TermsStored document)
    (hadm : ∀ document ∈ c.documents,
      Admitted config op table db c.mode document)
    (hms : ∀ m ∈ callMutations config op table db c,
      m.tooLarge = none ∧ OfData table m) :
    Written config table (db.applyAll (callMutations config op table db c))
      (nextDocuments config c docs) where
  keeps := keeps_applyAll h.keeps hadm
  posts := posts_applyAll hread h.keeps h.termsStored hcall hadm h.posts
  termsStored := termsStored_nextDocuments h.termsStored hcall
  noStale := noStale_applyAll h.keeps h.noStale hread hadm
  ids := ids_nextDocuments h.ids c
  wellKeyed := wellKeyed_applyAll _ h.wellKeyed fun m hm => (hms m hm).2.keyed
  alone := h.alone.applyAll _ fun m hm => ⟨(hms m hm).1, (hms m hm).2.within⟩

/-- A call that returns true, and writes to the database itself. -/
theorem perform_taken (h : Written config table db docs) {c : WriteCall}
    (hread : c.mode ≠ .addWithoutRead)
    (hcall : ∀ document ∈ c.documents, TermsStored document)
    (hok : (c.perform config op table db).ok = true)
    (hsb : c.storeBuffer = none) :
    Written config table (c.perform config op table db).db
      (nextDocuments config c docs) := by
  obtain ⟨hadm, hwrite, -⟩ := perform_ok hok
  have heffect : effect config op table db c.batch =
      callMutations config op table db c := by
    rw [effect, if_pos ⟨hok, hsb⟩, callMutations]
    have hs := innerWriteDocuments_ok hok
    have hlist := (readAs_freshAll
      (List.forall₂_map_left_iff.1 hs.readAs)).1
    refine (congrArg (fun dus => batchMutations config table
      (dus.map (ready config))) hlist).trans ?_
    rw [List.map_map]
    rfl
  rw [hwrite hsb]
  refine h.applyAll hread hcall hadm fun m hm => ?_
  rw [← heffect] at hm
  exact ⟨effect_taken hm, effect_ofData hm⟩

theorem perform (h : Written config table db docs) {c : WriteCall}
    (hread : c.mode ≠ .addWithoutRead)
    (hcall : ∀ document ∈ c.documents, TermsStored document) :
    ∃ docs', Written config table (c.perform config op table db).db docs' := by
  cases hok : (c.perform config op table db).ok with
  | false =>
      have hsame : (c.perform config op table db).db = db :=
        (innerWriteDocuments_kept hok).1
      rw [hsame]
      exact ⟨docs, h⟩
  | true =>
      by_cases hsb : c.storeBuffer = none
      · exact ⟨_, h.perform_taken hread hcall hok hsb⟩
      · rw [(perform_ok hok).2.2 hsb]
        exact ⟨docs, h⟩

/-- After every searchable run. -/
theorem runCalls (op : DocListMergeOperator) (calls : List WriteCall) :
    ∀ {db : VirtualDB} {docs : DocumentID → Option Document}, Searchable calls →
    Written config table db docs →
    ∃ docs', Written config table (runCalls config op table db calls) docs' := by
  induction calls with
  | nil => exact fun _ h => ⟨_, h⟩
  | cons c rest ih =>
      intro db docs hcalls h
      obtain ⟨docs', h'⟩ := @perform config op table _ _ h _
        (hcalls.1 c List.mem_cons_self) (hcalls.2 c List.mem_cons_self)
      exact ih ⟨fun x hx => hcalls.1 x (List.mem_cons_of_mem c hx),
        fun x hx => hcalls.2 x (List.mem_cons_of_mem c hx)⟩ h'

/-! ## What a search reads of it -/

theorem consistent (h : Written config table db docs) :
    Consistent config table db :=
  ⟨docs, h.keeps, h.posts, h.termsStored⟩

/-- Every key of the inverted column is that of a term. -/
theorem term_of_key (h : Written config table db docs) {key : Bytes}
    (hkey : (db .invertedIndexColumn)[key]? ≠ none) :
    ∃ f t, t.length < 2 ^ 32 ∧ key = encodeInvertedKey table f t := by
  obtain ⟨table', f, t, rfl⟩ := h.wellKeyed .invertedIndexColumn key hkey
  obtain rfl : table' = table := table_unique (prefix_invertedKey table' f t)
    (h.alone .invertedIndexColumn _ hkey).1
  have hlen : (t.take t.length.toUInt32.toNat).length =
      t.length.toUInt32.toNat := by
    rw [List.length_take, Nat.min_eq_left]
    exact Nat.mod_le _ _
  have hfit : (t.take t.length.toUInt32.toNat).length < 2 ^ 32 := by
    rw [hlen]
    exact t.length.toUInt32.toNat_lt
  exact ⟨f, _, hfit, by rw [encodeInvertedKey_cut, encodeInvertedKey_eq hfit]⟩

theorem readableIndex (h : Written config table db docs)
    (op : DocListMergeOperator) : ReadableIndex op db where
  key_length key hkey := by
    obtain ⟨cell, hcell⟩ := Option.isSome_iff_exists.1
      (Std.ExtTreeMap.mem_iff_isSome_getElem?.1 hkey)
    exact (h.alone .invertedIndexColumn key
      (by rw [hcell]; exact Option.some_ne_none cell)).2
  list key cell hcell := by
    obtain ⟨f, t, ht, rfl⟩ := h.term_of_key
      (by rw [hcell]; exact Option.some_ne_none cell)
    have hterm := h.posts.cell f t ht
    rw [hcell] at hterm
    obtain ⟨hbase, hne⟩ := hterm.merges cell rfl
    have hstores := forall₂_stores (hterm.stores cell rfl)
    obtain ⟨out, hrun, -, hread⟩ := fullMergeV2_eq op none hne hstores
    have hwf := fullMerge_wellFormed (n := op.maxDocListNum.toNat)
      (Stores.wellFormed_all hstores)
    have hvalue : VirtualDB.cellValue op cell = some out := by
      rw [VirtualDB.cellValue, hbase]
      cases hops : cell.operands with
      | nil => exact absurd hops hne
      | cons v vs =>
          rw [hops] at hrun
          simp only [hrun]
          rfl
    exact ⟨out, _, hvalue, newDocListReaderCodec_of_docListOf hread, hwf.desc,
      hwf.nonzero⟩

/-- The doc-value record that is read is that of the document, if it has any
doc values. -/
theorem docValueRow_eq (h : Written config table db docs)
    (op : DocListMergeOperator) (d : DocumentID) :
    ∃ status : SearchStatus, (status.ok ∨ status.documentNotExist) ∧
      docValueRow (quietContext config op table db) d =
        (status, ((docs d).filter hasDocValue).elim { documentId := d }
          (Document.reread .docValue)) := by
  show ∃ status : SearchStatus, _ ∧ Searcher.innerGetField config {} op table db
    .docValue { documentId := d } = _
  rw [Searcher.innerGetField]
  cases hdoc : (docs d).filter hasDocValue with
  | none =>
      have hget : db.get op .docValueColumn (encodeStoredFieldKey table d) =
          none := by
        rw [VirtualDB.get, h.noStale d hdoc]
        rfl
      simp only [VirtualDB.getStatus, Searcher.fieldsColumn, hget]
      exact ⟨_, .inr rfl, rfl⟩
  | some doc =>
      have hrecord := @Keeps.docValueDocument config op table _ _ h.keeps _ _ hdoc
      rw [docValueDocument, recordOf] at hrecord
      obtain ⟨value, hget, hdecode⟩ := Option.bind_eq_some_iff.1 hrecord
      have hdecode' : Document.deSerializeFromByte config.pb
          { documentId := d } value = some (doc.reread .docValue) := hdecode
      simp only [VirtualDB.getStatus, Searcher.fieldsColumn, hget, hdecode']
      exact ⟨_, .inl rfl, rfl⟩

theorem readableDocValues (h : Written config table db docs)
    (op : DocListMergeOperator) :
    ReadableDocValues (quietContext config op table db) := by
  intro d
  obtain ⟨status, hstatus, hrow⟩ := h.docValueRow_eq op d
  rw [docValues, hrow]
  refine ⟨hstatus, ?_⟩
  cases hdoc : (docs d).filter hasDocValue with
  | none => rfl
  | some doc => exact h.ids d doc (Option.filter_eq_some_iff.1 hdoc).1

end Written

end Wwsearch.Spec
