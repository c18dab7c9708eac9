import Mathlib.Data.List.Nodup
import Wwsearch.Proofs.FieldCodec
import Wwsearch.Proofs.Outcome
import Wwsearch.Proofs.TermDiff

/-!
# What a call with fresh updaters does

With a fresh updater nothing is left to chance: what the reading half makes of
it depends on the document and the stored record alone (`readUpdater`), and so
does what the writing stages find (`readyUpdater`). A call that returns true
without a store buffer applies `callMutations`; every other call leaves the
database as it was (`perform_db`). `runCalls_induction` is the rule that
follows for what holds after every serial run.

The documents of a call are different, so the mutations that touch the record
of a document are those of its own updater (`filter_flatMap_touches`).
-/

namespace Wwsearch.Spec

open Wwsearch.Lib Wwsearch.Ref Wwsearch.Ref.DocumentWriter
open Wwsearch.Ref.IndexWriter

section Call

variable (config : IndexConfig) (op : DocListMergeOperator) (table : TableID)
  (db : VirtualDB)

/-- What a call that returns true went through with one of its documents. -/
structure Admitted (mode : DocumentUpdaterType) (document : Document) :
    Prop where
  id_ne_zero : document.documentId ≠ 0
  absent : mode = .add →
    storedDocument config op table db document.documentId = none
  present : mode = .update →
    (storedDocument config op table db document.documentId).isSome
  tokenizes : Tokenizes config (readUpdater config op table db mode document)
  writable : Writable config (readyUpdater config op table db mode document)

end Call

variable {config : IndexConfig} {op : DocListMergeOperator} {table : TableID}
  {db : VirtualDB}

theorem storedDocument_eq (d : DocumentID) :
    storedDocument config op table db d =
      (db.get op .storedFieldColumn (encodeStoredFieldKey table d)).bind
        (Document.deSerializeFromByte config.pb {}) := rfl

/-- What the modes make of a fresh updater. -/
theorem readAs_fresh {mode : DocumentUpdaterType} {document : Document}
    {du : DocumentUpdater} (h : ReadAs config (db.get op .storedFieldColumn
        (encodeStoredFieldKey table document.documentId)) mode
      { newDocument := document } du) :
    du = readUpdater config op table db mode document ∧
      (mode = .add →
        storedDocument config op table db document.documentId = none) ∧
      (mode = .update →
        (storedDocument config op table db document.documentId).isSome) := by
  have hread : mode ≠ .addWithoutRead → readOld config op table db mode
      document.documentId =
        storedDocument config op table db document.documentId :=
    fun h => if_neg h
  have hold : db.get op .storedFieldColumn
      (encodeStoredFieldKey table document.documentId) = none →
      storedDocument config op table db document.documentId = none := by
    intro hnone
    rw [storedDocument_eq, hnone, Option.bind_none]
  cases h with
  | unread hun =>
      subst hun
      refine ⟨rfl, fun h => ?_, fun h => ?_⟩
      · cases h
      · cases h
  | fresh hfresh hnone =>
      refine ⟨?_, fun _ => hold hnone, ?_⟩
      · rw [readUpdater, hread, hold hnone, if_neg]
        · rfl
        · rintro ⟨rfl, -⟩
          simp at hfresh
        · rintro rfl
          simp at hfresh
      · rintro rfl
        simp at hfresh
  | gone hdel hnone =>
      refine ⟨?_, fun _ => hold hnone, ?_⟩
      · rw [readUpdater, hread (by rw [hdel]; decide), hold hnone,
          if_pos ⟨hdel, rfl⟩]
        rfl
      · rintro rfl
        cases hdel
  | decoded value old hmode hsome hdec =>
      have hold : storedDocument config op table db document.documentId =
          some old := by
        rw [storedDocument_eq, hsome, Option.bind_some]
        exact hdec
      refine ⟨?_, fun hadd => absurd hadd hmode.1, fun _ => by rw [hold]; rfl⟩
      rw [readUpdater, hread hmode.2, hold, if_neg (fun hn => by simp at hn)]
      rfl

theorem forall₂_function {α β : Type} {R : α → β → Prop} {f : α → β}
    {P : α → Prop} (hR : ∀ a b, R a b → b = f a ∧ P a) {l : List α}
    {l' : List β} (h : List.Forall₂ R l l') :
    l' = l.map f ∧ ∀ a ∈ l, P a := by
  induction h with
  | nil => exact ⟨rfl, fun a ha => absurd ha List.not_mem_nil⟩
  | @cons a b l l' hab _ ih =>
      obtain ⟨hb, hp⟩ := hR a b hab
      refine ⟨by rw [List.map_cons, hb, ih.1], fun x hx => ?_⟩
      rcases List.mem_cons.1 hx with rfl | hx
      · exact hp
      · exact ih.2 x hx

theorem readAs_freshAll {mode : DocumentUpdaterType}
    {documents : List Document} {dus : List DocumentUpdater}
    (h : List.Forall₂ (fun document du => ReadAs config
      (db.get op .storedFieldColumn
        (encodeStoredFieldKey table document.documentId)) mode
      { newDocument := document } du) documents dus) :
    dus = documents.map (readUpdater config op table db mode) ∧
      ∀ document ∈ documents,
        (mode = .add →
          storedDocument config op table db document.documentId = none) ∧
        (mode = .update →
          (storedDocument config op table db document.documentId).isSome) := by
  have hfresh : ∀ document du, ReadAs config (db.get op .storedFieldColumn
      (encodeStoredFieldKey table document.documentId)) mode
        { newDocument := document } du → _ :=
    fun _ _ h => readAs_fresh h
  exact forall₂_function hfresh h

/-- A call that returns true has read and written what its documents and the
stored records ask for. -/
theorem perform_ok {c : WriteCall}
    (h : (c.perform config op table db).ok = true) :
    (∀ document ∈ c.documents, Admitted config op table db c.mode document) ∧
      (c.storeBuffer = none → (c.perform config op table db).db =
        db.applyAll (callMutations config op table db c)) ∧
      (c.storeBuffer ≠ none → (c.perform config op table db).db = db) := by
  have hs := innerWriteDocuments_ok h
  obtain ⟨hread, hpre⟩ :=
    readAs_freshAll (List.forall₂_map_left_iff.1 hs.readAs)
  have hmut : callMutations config op table db c = batchMutations config table
      ((readDocuments config c.faults op table db c.mode c.updaters).1.map
        (ready config)) := by
    rw [hread, List.map_map]
    rfl
  refine ⟨fun document hdoc => ?_, ?_, hs.db_kept⟩
  · have hmem : readUpdater config op table db c.mode document ∈
        (readDocuments config c.faults op table db c.mode c.updaters).1 := by
      rw [hread]
      exact List.mem_map_of_mem hdoc
    exact {
      id_ne_zero := hs.id_ne_zero _ (List.mem_map_of_mem hdoc)
      absent := (hpre document hdoc).1
      present := (hpre document hdoc).2
      tokenizes := hs.tokenizes _ hmem
      writable := hs.writable _ hmem }
  · intro hsb
    rw [hmut]
    exact hs.db_eq hsb

/-- A call writes its mutations or nothing at all. -/
theorem perform_db (config : IndexConfig) (op : DocListMergeOperator)
    (table : TableID) (db : VirtualDB) (c : WriteCall) :
    (c.perform config op table db).db = db ∨
      (∀ document ∈ c.documents,
          Admitted config op table db c.mode document) ∧
        (c.perform config op table db).db =
          db.applyAll (callMutations config op table db c) := by
  cases hok : (c.perform config op table db).ok with
  | false => exact .inl (innerWriteDocuments_kept hok).1
  | true =>
      obtain ⟨hadm, hwrite, hkeep⟩ := perform_ok hok
      by_cases hsb : c.storeBuffer = none
      · exact .inr ⟨hadm, hwrite hsb⟩
      · exact .inl (hkeep hsb)

/-- What holds of a database and is kept by the mutations of every call holds
after every run. -/
theorem runCalls_induction {P : VirtualDB → Prop} {calls : List WriteCall}
    (hstep : ∀ db, P db → ∀ c ∈ calls,
      (∀ document ∈ c.documents, Admitted config op table db c.mode document) →
      P (db.applyAll (callMutations config op table db c)))
    (hdb : P db) : P (runCalls config op table db calls) := by
  induction calls generalizing db with
  | nil => exact hdb
  | cons c rest ih =>
      rw [runCalls, List.foldl_cons]
      refine ih (fun db hdb c' hc' => hstep db hdb c'
        (List.mem_cons_of_mem c hc')) ?_
      rcases perform_db config op table db c with hsame | ⟨hadm, hdb'⟩
      · rw [hsame]
        exact hdb
      · rw [hdb']
        exact hstep db hdb c List.mem_cons_self hadm

/-! ## The mutations of one document -/

theorem flatMap_of_unique {α β κ : Type} (key : α → κ) (h : α → List β)
    {l : List α} (hnodup : (l.map key).Nodup) {x : α} (hx : x ∈ l)
    (hother : ∀ y ∈ l, key y ≠ key x → h y = []) : l.flatMap h = h x := by
  induction l with
  | nil => exact absurd hx List.not_mem_nil
  | cons y l ih =>
      rw [List.map_cons, List.nodup_cons] at hnodup
      rw [List.flatMap_cons]
      rcases List.mem_cons.1 hx with rfl | hx
      · have hrest : l.flatMap h = [] := by
          rw [List.flatMap_eq_nil_iff]
          intro z hz
          refine hother z (List.mem_cons_of_mem x hz) fun hkey => ?_
          exact hnodup.1 (hkey ▸ List.mem_map_of_mem hz)
        rw [hrest, List.append_nil]
      · have hne : key y ≠ key x := fun hkey =>
          hnodup.1 (hkey ▸ List.mem_map_of_mem hx)
        rw [hother y List.mem_cons_self hne, List.nil_append]
        exact ih hnodup.2 hx fun z hz => hother z (List.mem_cons_of_mem y hz)

/-- A key for a document, and mutations that act on no other key. -/
theorem touches_key {column : StorageColumnType} {key : Bytes} {m : Mutation}
    (h : m = .delete column key ∨ ∃ value, m = .put column key value)
    (c : StorageColumnType) (k : Bytes) :
    m.touches c k = (decide (column = c) && decide (key = k)) := by
  rcases h with rfl | ⟨value, rfl⟩
  · rfl
  · rfl

theorem storedMutations_mem {du : DocumentUpdater} {m : Mutation}
    (h : m ∈ storedMutations config table du) :
    m = .delete .storedFieldColumn
        (encodeStoredFieldKey table du.newDocument.documentId) ∨
      ∃ value, m = .put .storedFieldColumn
        (encodeStoredFieldKey table du.newDocument.documentId) value := by
  rw [storedMutations] at h
  split at h
  · split at h
    · exact .inl (List.mem_singleton.1 h)
    · split at h
      · next value _ _ => exact .inr ⟨value, List.mem_singleton.1 h⟩
      · exact absurd h List.not_mem_nil
  · exact absurd h List.not_mem_nil

theorem storedMutations_touch {du : DocumentUpdater} {m : Mutation}
    (h : m ∈ storedMutations config table du) (c : StorageColumnType)
    (k : Bytes) : m.touches c k = (decide (.storedFieldColumn = c) &&
      decide (encodeStoredFieldKey table du.newDocument.documentId = k)) :=
  touches_key (storedMutations_mem h) c k

theorem deleteOldMutations_mem {du : DocumentUpdater} {m : Mutation}
    (h : m ∈ deleteOldMutations table du) : m = .delete .docValueColumn
      (encodeStoredFieldKey table du.newDocument.documentId) := by
  rw [deleteOldMutations] at h
  split at h
  · exact List.mem_singleton.1 h
  · exact absurd h List.not_mem_nil

theorem docValueMutations_mem {du : DocumentUpdater} {m : Mutation}
    (h : m ∈ docValueMutations config table du) :
    m = .delete .docValueColumn
        (encodeStoredFieldKey table du.newDocument.documentId) ∨
      ∃ value, m = .put .docValueColumn
        (encodeStoredFieldKey table du.newDocument.documentId) value := by
  rw [docValueMutations] at h
  split at h
  · split at h
    · exact .inl (deleteOldMutations_mem h)
    · split at h
      · next value _ => exact .inr ⟨value, List.mem_singleton.1 h⟩
      · exact .inl (deleteOldMutations_mem h)
      · exact absurd h List.not_mem_nil
  · exact absurd h List.not_mem_nil

theorem docValueMutations_touch {du : DocumentUpdater} {m : Mutation}
    (h : m ∈ docValueMutations config table du) (c : StorageColumnType)
    (k : Bytes) : m.touches c k = (decide (.docValueColumn = c) &&
      decide (encodeStoredFieldKey table du.newDocument.documentId = k)) :=
  touches_key (docValueMutations_mem h) c k

theorem invertedMutations_touch {du : DocumentUpdater} {m : Mutation}
    (h : m ∈ invertedMutations config table du) {c : StorageColumnType}
    (hc : c ≠ .invertedIndexColumn) (k : Bytes) : m.touches c k = false := by
  rw [invertedMutations] at h
  split at h
  · obtain ⟨f, t, state, ok, value, -, -, rfl⟩ := mem_termMutations.1 h
    rw [Mutation.touches, Mutation.column, decide_eq_false (Ne.symm hc),
      Bool.false_and]
  · exact absurd h List.not_mem_nil

/-- The document of a call for an id. -/
def WriteCall.documentFor (c : WriteCall) (d : DocumentID) : Option Document :=
  c.documents.find? fun document => document.documentId == d

theorem WriteCall.documentFor_eq_some {c : WriteCall} {d : DocumentID}
    {document : Document} (h : c.documentFor d = some document) :
    document ∈ c.documents ∧ document.documentId = d := by
  rw [documentFor] at h
  have hid := List.find?_some h
  exact ⟨List.mem_of_find?_eq_some h, beq_iff_eq.1 hid⟩

theorem WriteCall.documentFor_eq_none {c : WriteCall} {d : DocumentID}
    (h : c.documentFor d = none) :
    ∀ document ∈ c.documents, document.documentId ≠ d := by
  intro document hdoc hid
  exact List.find?_eq_none.1 h document hdoc (beq_iff_eq.2 hid)

theorem WriteCall.documentFor_of_mem {c : WriteCall} {document : Document}
    (h : document ∈ c.documents) :
    c.documentFor document.documentId = some document := by
  cases hf : c.documentFor document.documentId with
  | none => exact absurd rfl (c.documentFor_eq_none hf document h)
  | some other =>
      obtain ⟨hmem, hid⟩ := c.documentFor_eq_some hf
      exact congrArg some (List.inj_on_of_nodup_map c.distinct hmem h hid)

theorem readyUpdater_documentId (mode : DocumentUpdaterType)
    (document : Document) :
    (readyUpdater config op table db mode document).newDocument.documentId =
      document.documentId :=
  ready_documentId config _

section Column

variable {g : DocumentUpdater → List Mutation} {column : StorageColumnType}

/-- A column whose mutations are put and deleted under the key of their
document. -/
def RecordColumn (table : TableID) (column : StorageColumnType)
    (g : DocumentUpdater → List Mutation) : Prop :=
  ∀ du, ∀ m ∈ g du, ∀ c k, m.touches c k = (decide (column = c) &&
    decide (encodeStoredFieldKey table du.newDocument.documentId = k))

/-- The record of an id is touched by the mutations of its own document. -/
theorem filter_flatMap_touches (hg : RecordColumn table column g)
    (c : WriteCall) (d : DocumentID) :
    ((c.documents.map (readyUpdater config op table db c.mode)).flatMap
      g).filter (·.touches column (encodeStoredFieldKey table d)) =
        ((c.documentFor d).map fun document =>
          g (readyUpdater config op table db c.mode document)).getD [] := by
  have hown : ∀ document : Document, document.documentId = d →
      (g (readyUpdater config op table db c.mode document)).filter
        (·.touches column (encodeStoredFieldKey table d)) =
          g (readyUpdater config op table db c.mode document) := by
    intro document hid
    rw [List.filter_eq_self]
    intro m hm
    simp only [hg _ m hm, readyUpdater_documentId, hid, decide_true,
      Bool.and_self]
  have hforeign : ∀ document : Document, document.documentId ≠ d →
      (g (readyUpdater config op table db c.mode document)).filter
        (·.touches column (encodeStoredFieldKey table d)) = [] := by
    intro document hid
    rw [List.filter_eq_nil_iff]
    intro m hm
    have hkey : encodeStoredFieldKey table document.documentId ≠
        encodeStoredFieldKey table d := fun h => hid (encodeStoredFieldKey_inj h)
    simp only [hg _ m hm, readyUpdater_documentId, decide_eq_false hkey,
      Bool.and_false, Bool.false_eq_true, not_false_eq_true]
  rw [List.flatMap_map, List.filter_flatMap]
  cases hfor : c.documentFor d with
  | none =>
      rw [Option.map_none, Option.getD_none, List.flatMap_eq_nil_iff]
      intro document hdoc
      exact hforeign document (c.documentFor_eq_none hfor document hdoc)
  | some document =>
      obtain ⟨hdoc, hid⟩ := c.documentFor_eq_some hfor
      rw [Option.map_some, Option.getD_some, ← hown document hid]
      refine flatMap_of_unique Document.documentId _ c.distinct hdoc
        fun other _ hne => ?_
      exact hforeign other (hid ▸ hne)

theorem filter_flatMap_other {updaters : List DocumentUpdater}
    {other : StorageColumnType} {k : Bytes}
    (hg : ∀ du, ∀ m ∈ g du, m.touches other k = false) :
    (updaters.flatMap g).filter (·.touches other k) = [] := by
  rw [List.filter_eq_nil_iff]
  intro m hm
  obtain ⟨du, -, hm⟩ := List.mem_flatMap.1 hm
  rw [hg du m hm]
  exact Bool.false_ne_true

end Column

theorem recordColumn_stored :
    RecordColumn table .storedFieldColumn (storedMutations config table) :=
  fun _ _ hm => storedMutations_touch hm

theorem recordColumn_docValue :
    RecordColumn table .docValueColumn (docValueMutations config table) :=
  fun _ _ hm => docValueMutations_touch hm

/-- A key of the stored column is touched by the stored mutations only. -/
theorem filter_batchMutations_stored (updaters : List DocumentUpdater)
    (k : Bytes) :
    (batchMutations config table updaters).filter
        (·.touches .storedFieldColumn k) =
      (updaters.flatMap (storedMutations config table)).filter
        (·.touches .storedFieldColumn k) := by
  have hinverted : (updaters.flatMap (invertedMutations config table)).filter
      (·.touches .storedFieldColumn k) = [] :=
    filter_flatMap_other fun _ _ hm => invertedMutations_touch hm (by decide) _
  have hdocValue : (updaters.flatMap (docValueMutations config table)).filter
      (·.touches .storedFieldColumn k) = [] :=
    filter_flatMap_other fun _ _ hm => by rw [docValueMutations_touch hm]; rfl
  rw [batchMutations, List.filter_append, List.filter_append, hinverted,
    hdocValue, List.append_nil, List.append_nil]

theorem filter_batchMutations_docValue (updaters : List DocumentUpdater)
    (k : Bytes) :
    (batchMutations config table updaters).filter
        (·.touches .docValueColumn k) =
      (updaters.flatMap (docValueMutations config table)).filter
        (·.touches .docValueColumn k) := by
  have hstored : (updaters.flatMap (storedMutations config table)).filter
      (·.touches .docValueColumn k) = [] :=
    filter_flatMap_other fun _ _ hm => by rw [storedMutations_touch hm]; rfl
  have hinverted : (updaters.flatMap (invertedMutations config table)).filter
      (·.touches .docValueColumn k) = [] :=
    filter_flatMap_other fun _ _ hm => invertedMutations_touch hm (by decide) _
  rw [batchMutations, List.filter_append, List.filter_append, hstored,
    hinverted, List.nil_append, List.nil_append]

/-- The stored cell of an id after a call. -/
theorem storedCell_applyAll (c : WriteCall) (d : DocumentID) :
    (db.applyAll (callMutations config op table db c)
        .storedFieldColumn)[encodeStoredFieldKey table d]? =
      (((c.documentFor d).map fun document => storedMutations config table
        (readyUpdater config op table db c.mode document)).getD []).foldl
          Mutation.applyCell
          (db .storedFieldColumn)[encodeStoredFieldKey table d]? := by
  rw [applyAll_getElem?, callMutations, filter_batchMutations_stored,
    filter_flatMap_touches recordColumn_stored]

theorem docValueCell_applyAll (c : WriteCall) (d : DocumentID) :
    (db.applyAll (callMutations config op table db c)
        .docValueColumn)[encodeStoredFieldKey table d]? =
      (((c.documentFor d).map fun document => docValueMutations config table
        (readyUpdater config op table db c.mode document)).getD []).foldl
          Mutation.applyCell
          (db .docValueColumn)[encodeStoredFieldKey table d]? := by
  rw [applyAll_getElem?, callMutations, filter_batchMutations_docValue,
    filter_flatMap_touches recordColumn_docValue]

/-- A key of the inverted column is touched by merges only. -/
theorem filter_batchMutations_inverted (updaters : List DocumentUpdater)
    (k : Bytes) :
    (batchMutations config table updaters).filter
        (·.touches .invertedIndexColumn k) =
      (updaters.flatMap (invertedMutations config table)).filter
        (·.touches .invertedIndexColumn k) := by
  have hstored : (updaters.flatMap (storedMutations config table)).filter
      (·.touches .invertedIndexColumn k) = [] :=
    filter_flatMap_other fun _ _ hm => by rw [storedMutations_touch hm]; rfl
  have hdocValue : (updaters.flatMap (docValueMutations config table)).filter
      (·.touches .invertedIndexColumn k) = [] :=
    filter_flatMap_other fun _ _ hm => by rw [docValueMutations_touch hm]; rfl
  rw [batchMutations, List.filter_append, List.filter_append, hstored,
    hdocValue, List.nil_append, List.append_nil]

end Wwsearch.Spec
