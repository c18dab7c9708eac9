import Wwsearch.Proofs.Concurrency

/-!
# Batches of different documents

A batch touches the records of its own documents and no others, so batches
that share no document neither change what the others read (`stable_writers`)
nor write over each other's records. What they do share is the cells of their
terms. There each of them adds records of its own ids, the last record of an
id decides, and so the order in which the batches got there does not show in
the list that is read (`lastState_flatMap_perm`).

The batches are arbitrary: the updaters may have been used before, and a batch
may hold a document twice.
-/

namespace Wwsearch.Spec

open Wwsearch.Lib Wwsearch.Ref Wwsearch.Ref.DocumentWriter
open Wwsearch.Ref.IndexWriter

/-! ## What a batch writes -/

/-- The mutations that the call applies to the database: none where it fails,
and none where it writes to a store buffer. -/
def effect (config : IndexConfig) (op : DocListMergeOperator)
    (table : TableID) (db : VirtualDB) (c : BatchCall) : List Mutation :=
  if (c.perform config op table db).ok = true ∧ c.storeBuffer = none then
    batchMutations config table
      ((c.read config op table db).1.map (ready config))
  else []

variable {config : IndexConfig} {op : DocListMergeOperator} {table : TableID}
  {db db' : VirtualDB} {c c' : BatchCall}

theorem perform_effect : (c.perform config op table db).db =
    db.applyAll (effect config op table db c) := by
  rw [effect]
  split
  · next h => exact (innerWriteDocuments_ok h.1).db_eq h.2
  · next h =>
      cases hok : (c.perform config op table db).ok with
      | false => exact (innerWriteDocuments_kept hok).1
      | true => exact (innerWriteDocuments_ok hok).db_kept fun hn => h ⟨hok, hn⟩

theorem forall₂_mem_right {α β : Type} {R : α → β → Prop} {l : List α}
    {l' : List β} (h : List.Forall₂ R l l') : ∀ b ∈ l', ∃ a ∈ l, R a b := by
  induction h with
  | nil => exact fun b hb => absurd hb List.not_mem_nil
  | @cons x y l l' hxy _ ih =>
      intro b hb
      rcases List.mem_cons.1 hb with rfl | hb
      · exact ⟨x, List.mem_cons_self, hxy⟩
      · obtain ⟨a, ha, hab⟩ := ih b hb
        exact ⟨a, List.mem_cons_of_mem x ha, hab⟩

/-- A batch that goes through has kept its documents' ids, and none is zero. -/
theorem read_writes (hok : (c.perform config op table db).ok = true)
    {du : DocumentUpdater} (hdu : du ∈ (c.read config op table db).1) :
    c.Writes du.newDocument.documentId ∧ du.newDocument.documentId ≠ 0 := by
  have hs := innerWriteDocuments_ok hok
  obtain ⟨given, hmem, hread⟩ := forall₂_mem_right hs.readAs du hdu
  rw [hread.newDocument_eq]
  exact ⟨List.mem_map_of_mem hmem, hs.id_ne_zero given hmem⟩

/-- A record that the batch touches is one of its own documents. -/
theorem effect_record {m : Mutation}
    (hm : m ∈ effect config op table db c) {column : StorageColumnType}
    (hcolumn : column ≠ .invertedIndexColumn) {key : Bytes}
    (htouch : m.touches column key = true) :
    ∃ d, c.Writes d ∧ key = encodeStoredFieldKey table d := by
  rw [effect] at hm
  split at hm
  · next hok =>
      have hwrites : ∀ du ∈ (c.read config op table db).1.map (ready config),
          c.Writes du.newDocument.documentId := by
        intro du hdu
        obtain ⟨x, hx, rfl⟩ := List.mem_map.1 hdu
        rw [ready_documentId]
        exact (read_writes hok.1 hx).1
      rcases List.mem_append.1 hm with hm | hm
      · rcases List.mem_append.1 hm with hm | hm
        · obtain ⟨du, hdu, hm⟩ := List.mem_flatMap.1 hm
          rw [storedMutations_touch hm, Bool.and_eq_true] at htouch
          exact ⟨_, hwrites du hdu, (of_decide_eq_true htouch.2).symm⟩
        · obtain ⟨du, -, hm⟩ := List.mem_flatMap.1 hm
          rw [invertedMutations_touch hm hcolumn] at htouch
          exact absurd htouch Bool.false_ne_true
      · obtain ⟨du, hdu, hm⟩ := List.mem_flatMap.1 hm
        rw [docValueMutations_touch hm, Bool.and_eq_true] at htouch
        exact ⟨_, hwrites du hdu, (of_decide_eq_true htouch.2).symm⟩
  · exact absurd hm List.not_mem_nil

/-- What the batch adds to the cell of a term: lists of one record, with an id
of the batch. -/
structure RecordOf (c : BatchCall) (m : Mutation) : Prop where
  merge : ∃ column key value, m = .merge column key value ∧
    Stores value (listOf value)
  record : ∃ d s, c.Writes d ∧ mutationList m = [⟨d, s⟩]

theorem effect_inverted {m : Mutation}
    (hm : m ∈ effect config op table db c) {key : Bytes}
    (htouch : m.touches .invertedIndexColumn key = true) : RecordOf c m := by
  rw [effect] at hm
  split at hm
  · next hok =>
      have hm := List.mem_filter.2 ⟨hm, htouch⟩
      rw [filter_batchMutations_inverted] at hm
      obtain ⟨du, hdu, hm⟩ := List.mem_flatMap.1 (List.mem_filter.1 hm).1
      obtain ⟨x, hx, rfl⟩ := List.mem_map.1 hdu
      obtain ⟨hwrites, hne⟩ := read_writes hok.1 hx
      rw [invertedMutations] at hm
      split at hm
      · obtain ⟨f, t, s, ok, value, hrec, hw, rfl⟩ := mem_termMutations.1 hm
        rw [ready_documentId] at hw
        have hs : s = kDocumentStateOK ∨ s = kDocumentStateDelete :=
          TermRecord.state hrec
        obtain ⟨hstores, hlist⟩ := stores_singleton hne hs hw
        exact ⟨⟨_, _, value, rfl, hstores⟩, ⟨_, s, hwrites, hlist⟩⟩
      · exact absurd hm List.not_mem_nil
  · exact absurd hm List.not_mem_nil

/-! ## What a batch reads -/

/-- Two databases agree on the records of the call's documents. -/
def SameRecords (table : TableID) (c : BatchCall) (db db' : VirtualDB) : Prop :=
  ∀ d, c.Writes d → ∀ column ≠ .invertedIndexColumn,
    (db column)[encodeStoredFieldKey table d]? =
      (db' column)[encodeStoredFieldKey table d]?

theorem read_congr (h : SameRecords table c db db') :
    c.read config op table db = c.read config op table db' := by
  have hrow : ∀ du ∈ c.updaters, ∀ mode,
      readDocument c.faults op table db mode (prepare mode du) =
        readDocument c.faults op table db' mode (prepare mode du) := by
    intro du hdu mode
    have hid : (prepare mode du).newDocument = du.newDocument := by
      rw [prepare]
      split
      · rfl
      · rfl
    have hcell := h _ (List.mem_map_of_mem hdu)
    simp only [readDocument, hid, VirtualDB.getStatus, VirtualDB.get,
      hcell .storedFieldColumn (by decide), hcell .docValueColumn (by decide)]
  simp only [BatchCall.read, readDocuments, List.map_map]
  split
  · rfl
  · congr 1
    refine List.map_congr_left fun du hdu => ?_
    simp only [Function.comp_apply, hrow du hdu]

theorem flushBuffer_status (faults : Faults) (db db' : VirtualDB)
    (buffer : WriteBuffer) :
    (db.flushBuffer faults buffer).2 = (db'.flushBuffer faults buffer).2 := by
  rw [VirtualDB.flushBuffer, VirtualDB.flushBuffer]
  split
  · rfl
  · rfl

theorem updateDocuments_congr (config : IndexConfig) (faults : Faults)
    (table : TableID) (db db' : VirtualDB) (storeBuffer : Option StoreBuffer)
    (documents : List DocumentUpdater) :
    let r := DocumentWriter.updateDocuments config faults table db storeBuffer
      documents
    let r' := DocumentWriter.updateDocuments config faults table db' storeBuffer
      documents
    r.storeBuffer = r'.storeBuffer ∧ r.documents = r'.documents ∧
      r.status = r'.status := by
  simp only [DocumentWriter.updateDocuments]
  split
  · cases storeBuffer with
    | none =>
        rw [flushBuffer_status faults db db']
        exact ⟨rfl, rfl, rfl⟩
    | some sb => exact ⟨rfl, rfl, rfl⟩
  · exact ⟨rfl, rfl, rfl⟩

/-- What a call gives back depends on its plan alone. -/
theorem returned_flush (plan : BatchPlan) :
    returned (c.flush config table db plan) =
      returned (c.flush config table db' plan) := by
  obtain ⟨documents, ok⟩ := plan
  cases ok with
  | false => rfl
  | true =>
      obtain ⟨hbuffer, hdocs, hstatus⟩ := updateDocuments_congr config c.faults
        table db db' c.storeBuffer documents
      simp only [BatchCall.flush, writeDocuments, if_true, hstatus]
      split
      · simp only [returned, hbuffer, hdocs]
      · simp only [returned, hbuffer, hdocs]

theorem returned_congr (h : SameRecords table c db db') :
    returned (c.perform config op table db) =
      returned (c.perform config op table db') := by
  have hread : c.read config op table db = c.read config op table db' :=
    read_congr h
  show returned (c.flush config table db (c.read config op table db)) =
    returned (c.flush config table db' (c.read config op table db'))
  rw [hread]
  exact returned_flush _

theorem effect_congr (h : SameRecords table c db db') :
    effect config op table db c = effect config op table db' c := by
  have hok : (c.perform config op table db).ok =
      (c.perform config op table db').ok :=
    congrArg Returned.ok (returned_congr h)
  rw [effect, effect, read_congr h, hok]

/-! ## Batches that share no document -/

theorem Apart.symm (h : Apart c c') : Apart c' c :=
  fun d hd hd' => h d hd' hd

theorem sameRecords_applyAll (h : Apart c c') :
    SameRecords table c db
      (db.applyAll (effect config op table db' c')) := by
  intro d hd column hcolumn
  refine (applyAll_getElem?_of_untouched fun m hm => ?_).symm
  by_contra htouch
  obtain ⟨d', hd', hkey⟩ :=
    effect_record hm hcolumn (Bool.not_eq_false _ ▸ htouch)
  exact h d hd (encodeStoredFieldKey_inj hkey ▸ hd')

theorem sameRecords_perform (h : Apart c c') :
    SameRecords table c db (c'.perform config op table db).db := by
  rw [perform_effect]
  exact sameRecords_applyAll h

theorem SameRecords.trans {db'' : VirtualDB} (h : SameRecords table c db db')
    (h' : SameRecords table c db' db'') : SameRecords table c db db'' :=
  fun d hd column hcolumn =>
    (h d hd column hcolumn).trans (h' d hd column hcolumn)

theorem sameRecords_runAll {calls : List BatchCall} : ∀ {db : VirtualDB},
    (∀ c' ∈ calls, Apart c c') →
    SameRecords table c db (BatchCall.runAll config op table db calls) := by
  induction calls with
  | nil => intro db _ d _ column _; rfl
  | cons c' rest ih =>
      intro db h
      exact (sameRecords_perform (h c' List.mem_cons_self)).trans
        (ih fun x hx => h x (List.mem_cons_of_mem c' hx))

/-- Batches that share no document write what each of them would have written
at the start. -/
theorem runAll_effects {calls : List BatchCall} : ∀ {db : VirtualDB},
    calls.Pairwise Apart →
    BatchCall.runAll config op table db calls =
      db.applyAll (calls.flatMap (effect config op table db)) := by
  induction calls with
  | nil => intro db _; rfl
  | cons c rest ih =>
      intro db h
      obtain ⟨hc, hrest⟩ := List.pairwise_cons.1 h
      rw [List.flatMap_cons, applyAll_append, ← perform_effect]
      refine (ih hrest).trans ?_
      congr 1
      refine List.flatMap_congr fun x hx => ?_
      exact (effect_congr (sameRecords_perform (hc x hx).symm)).symm

/-! ## The order does not show -/

/-- At most one of the parts is there, so nothing is out of order. -/
theorem flatMap_perm_of_unique {α β : Type} {h : α → List β} {l l' : List α}
    (hp : l.Perm l') (hunique : l.Pairwise fun x y => h x = [] ∨ h y = []) :
    l.flatMap h = l'.flatMap h := by
  induction hp with
  | nil => rfl
  | cons x _ ih =>
      rw [List.flatMap_cons, List.flatMap_cons,
        ih (List.pairwise_cons.1 hunique).2]
  | swap x y l =>
      have hxy := (List.pairwise_cons.1 hunique).1 x List.mem_cons_self
      simp only [List.flatMap_cons, ← List.append_assoc]
      rcases hxy with hx | hx
      · rw [hx, List.nil_append, List.append_nil]
      · rw [hx, List.nil_append, List.append_nil]
  | trans hp _ ih ih' =>
      exact (ih hunique).trans
        (ih' ((hp.pairwise_iff fun h => h.symm).1 hunique))

/-- Updates of different ids come in any order. -/
theorem lastState_flatMap_perm {α : Type} {g : α → List (List DocList)}
    {l l' : List α} {d : DocumentID} (hp : l.Perm l')
    (hunique : l.Pairwise fun x y =>
      lastState (g x) d = none ∨ lastState (g y) d = none) :
    lastState (l.flatMap g) d = lastState (l'.flatMap g) d := by
  induction hp with
  | nil => rfl
  | cons x _ ih =>
      rw [List.flatMap_cons, List.flatMap_cons, lastState_append,
        lastState_append, ih (List.pairwise_cons.1 hunique).2]
  | swap x y l =>
      have hxy := (List.pairwise_cons.1 hunique).1 x List.mem_cons_self
      simp only [List.flatMap_cons, ← List.append_assoc, lastState_append]
      rcases hxy with hx | hx
      · rw [hx, Option.none_or, Option.or_none]
      · rw [hx, Option.none_or, Option.or_none]
  | trans hp _ ih ih' =>
      exact (ih hunique).trans
        (ih' ((hp.pairwise_iff fun h => h.symm).1 hunique))

theorem fullMerge_congr {n : Nat} {lists lists' : List (List DocList)}
    (h : ∀ d, lastState lists d = lastState lists' d) :
    fullMerge n lists = fullMerge n lists' := by
  have hids : idsWith kDocumentStateOK lists =
      idsWith kDocumentStateOK lists' := by
    ext d
    rw [mem_idsWith, mem_idsWith, h]
  rw [fullMerge, fullMerge, topLive, topLive, hids]

/-- The records that a batch adds to the cell of a term. -/
def addedLists (config : IndexConfig) (op : DocListMergeOperator)
    (table : TableID) (db : VirtualDB) (key : Bytes) (c : BatchCall) :
    List (List DocList) :=
  ((effect config op table db c).filter
    (·.touches .invertedIndexColumn key)).map mutationList

theorem lastState_addedLists {key : Bytes} {d : DocumentID}
    (h : ¬ c.Writes d) :
    lastState (addedLists config op table db key c) d = none := by
  rw [lastState, Overlay.read_eq_none]
  intro layer hlayer
  rw [addedLists, List.map_map] at hlayer
  obtain ⟨m, hm, rfl⟩ := List.mem_map.1 hlayer
  obtain ⟨hm, htouch⟩ := List.mem_filter.1 hm
  obtain ⟨d', s, hd', hlist⟩ := (effect_inverted hm htouch).record
  rw [Function.comp_apply, hlist, stateIn_eq_none]
  intro e he
  obtain rfl := List.mem_singleton.1 he
  exact fun hid => h (hid ▸ hd')

theorem termColumn_empty : TermColumn .empty := by
  intro key
  rw [VirtualDB.empty, Std.ExtTreeMap.getElem?_empty]
  exact termCell_none

/-- The cell of a term after some batches: what it held, and what they add. -/
theorem cellLists_effects (config : IndexConfig) (op : DocListMergeOperator)
    (table : TableID) (hcells : TermColumn db) (calls : List BatchCall)
    (key : Bytes) :
    TermCell (db.applyAll (calls.flatMap (effect config op table db))
        .invertedIndexColumn)[key]? ∧
      cellLists (db.applyAll (calls.flatMap (effect config op table db))
        .invertedIndexColumn)[key]? =
          cellLists (db .invertedIndexColumn)[key]? ++
            calls.flatMap (addedLists config op table db key) := by
  have hfold := foldl_merges ((calls.flatMap
    (effect config op table db)).filter (·.touches .invertedIndexColumn key))
    _ (hcells key) fun m hm => by
      obtain ⟨hm, htouch⟩ := List.mem_filter.1 hm
      obtain ⟨c, -, hm⟩ := List.mem_flatMap.1 hm
      exact (effect_inverted hm htouch).merge
  rw [applyAll_getElem?]
  refine ⟨hfold.1, hfold.2.trans ?_⟩
  rw [List.filter_flatMap, List.map_flatMap]
  rfl

/-- A serial run keeps the cells of the terms well formed. -/
theorem TermColumn.runAll {calls : List BatchCall} : ∀ {db : VirtualDB},
    TermColumn db →
    TermColumn (BatchCall.runAll config op table db calls) := by
  induction calls with
  | nil => exact fun h => h
  | cons c rest ih =>
      intro db h
      refine ih fun key => ?_
      have hcell := (cellLists_effects config op table h [c] key).1
      rw [List.flatMap_singleton] at hcell
      show TermCell ((c.perform config op table db).db
        .invertedIndexColumn)[key]?
      rw [perform_effect]
      exact hcell

section Orders

variable {calls calls' : List BatchCall}

theorem runAll_perm_column (hp : calls.Perm calls')
    (hdisjoint : calls.Pairwise Apart) {column : StorageColumnType}
    (hcolumn : column ≠ .invertedIndexColumn) :
    BatchCall.runAll config op table db calls column =
      BatchCall.runAll config op table db calls' column := by
  rw [runAll_effects hdisjoint,
    runAll_effects ((hp.pairwise_iff Apart.symm).1 hdisjoint)]
  refine Std.ExtTreeMap.ext_getElem? fun key => ?_
  rw [applyAll_getElem?, applyAll_getElem?, List.filter_flatMap,
    List.filter_flatMap, flatMap_perm_of_unique hp]
  refine hdisjoint.imp fun {c c'} h => ?_
  by_contra hboth
  obtain ⟨hc, hc'⟩ := not_or.1 hboth
  obtain ⟨m, hm⟩ := List.exists_mem_of_ne_nil _ hc
  obtain ⟨m', hm'⟩ := List.exists_mem_of_ne_nil _ hc'
  obtain ⟨hin, htouch⟩ := List.mem_filter.1 hm
  obtain ⟨hin', htouch'⟩ := List.mem_filter.1 hm'
  obtain ⟨d, hd, hkey⟩ := effect_record hin hcolumn htouch
  obtain ⟨d', hd', hkey'⟩ := effect_record hin' hcolumn htouch'
  exact h d hd (encodeStoredFieldKey_inj (hkey.symm.trans hkey') ▸ hd')

theorem runAll_perm_termList (hcells : TermColumn db)
    (hp : calls.Perm calls') (hdisjoint : calls.Pairwise Apart)
    (f : FieldID) (t : Bytes) :
    termList op table (BatchCall.runAll config op table db calls) f t =
      termList op table (BatchCall.runAll config op table db calls') f t := by
  rw [runAll_effects hdisjoint,
    runAll_effects ((hp.pairwise_iff Apart.symm).1 hdisjoint)]
  obtain ⟨hcell, hlists⟩ := cellLists_effects config op table hcells calls
    (encodeInvertedKey table f t)
  obtain ⟨hcell', hlists'⟩ := cellLists_effects config op table hcells calls'
    (encodeInvertedKey table f t)
  rw [termList_eq hcell, termList_eq hcell', hlists, hlists']
  refine fullMerge_congr fun d => ?_
  rw [lastState_append, lastState_append, lastState_flatMap_perm hp]
  refine hdisjoint.imp fun {c c'} h => ?_
  by_cases hd : c.Writes d
  · exact .inr (lastState_addedLists (h d hd))
  · exact .inl (lastState_addedLists hd)

end Orders

/-! ## Any order of steps -/

variable {ι : Type}

theorem stable_writers {calls : ι → BatchCall}
    (hdisjoint : ∀ i j, i ≠ j → Apart (calls i) (calls j)) :
    (writers config op table calls).Stable := by
  intro i j db hne
  exact (read_congr (sameRecords_perform (hdisjoint i j hne))).symm

variable [DecidableEq ι]

/-- Batches that share no document, in any order of their steps, and any
serial order of those that have taken effect: the two record columns, the list
of every term and what every call gives back are the same. -/
theorem disjoint_batches_commute (config : IndexConfig)
    (op : DocListMergeOperator) (table : TableID) (calls : ι → BatchCall)
    (hdisjoint : ∀ i j, i ≠ j → Apart (calls i) (calls j))
    (db : VirtualDB) (hcells : TermColumn db)
    (es : List (TwoPhase.Event ι)) (order : List ι)
    (horder : order.Perm
      ((writers config op table calls).run (.start db) es).flushed) :
    let w := (writers config op table calls).run (.start db) es
    let serial := fun order : List ι =>
      BatchCall.runAll config op table db (order.map calls)
    w.store .storedFieldColumn = serial order .storedFieldColumn ∧
      w.store .docValueColumn = serial order .docValueColumn ∧
      (∀ f t, termList op table w.store f t =
        termList op table (serial order) f t) ∧
      ∀ i r, w.phase i = .done r → ∃ before after,
        order = before ++ i :: after ∧
          r = returned ((calls i).perform config op table (serial before)) := by
  intro w serial
  have hser : (writers config op table calls).Serializes db w :=
    TwoPhase.serializes_run
      (TwoPhase.undisturbed_of_stable (stable_writers hdisjoint) db es)
  have hstore : w.store = serial w.flushed :=
    hser.store.trans (serial_writers _)
  have hpairs : ∀ order : List ι, order.Nodup →
      (order.map calls).Pairwise Apart := by
    intro order hnodup
    rw [List.pairwise_map]
    exact hnodup.imp fun {i j} hne => hdisjoint i j hne
  have hp : (w.flushed.map calls).Perm (order.map calls) :=
    (horder.map calls).symm
  have hcalls := hpairs w.flushed hser.nodup
  rw [hstore]
  refine ⟨runAll_perm_column hp hcalls (by decide),
    runAll_perm_column hp hcalls (by decide),
    runAll_perm_termList hcells hp hcalls, fun i r hr => ?_⟩
  obtain ⟨before, after, hflushed, hresult⟩ := hser.result i r hr
  have hmem : i ∈ order := horder.mem_iff.2 (hflushed ▸ List.mem_append_cons_self)
  obtain ⟨before', after', hsplit⟩ := List.append_of_mem hmem
  refine ⟨before', after', hsplit, hresult.trans ?_⟩
  have hsame : ∀ l r : List ι, (l ++ i :: r).Nodup →
      SameRecords table (calls i) db (serial l) := by
    intro l r hnodup
    refine sameRecords_runAll fun c hc => ?_
    obtain ⟨j, hj, rfl⟩ := List.mem_map.1 hc
    refine hdisjoint i j fun he => ?_
    exact (List.nodup_append.1 hnodup).2.2 j hj i List.mem_cons_self he.symm
  rw [perform_writers, serial_writers]
  refine (returned_congr (hsame before after ?_)).symm.trans
    (returned_congr (hsame before' after' ?_))
  · exact hflushed ▸ hser.nodup
  · exact hsplit ▸ horder.nodup_iff.2 hser.nodup

/-- Two clients that add the documents 7 and 8, both with the term `A`. -/
def addsOfA (second : Bool) : BatchCall where
  mode := .add
  updaters := [{ newDocument :=
    { seven [65] with documentId := if second then 8 else 7 } }]

/-- Both clients read first, and the second one flushes first. -/
theorem disjoint_batches_commute_addsOfA :
    let w := (writers spaceConfig millionOperator ⟨1, 2⟩ addsOfA).run
      (.start .empty) [.read false, .read true, .flush true, .flush false]
    termList millionOperator ⟨1, 2⟩ w.store 1 [65] =
      [⟨8, kDocumentStateOK⟩, ⟨7, kDocumentStateOK⟩] := by
  intro w
  have hdisjoint : ∀ i j, i ≠ j → Apart (addsOfA i) (addsOfA j) := by
    intro i j hne d hi hj
    have hi := List.mem_singleton.1 hi
    have hj := List.mem_singleton.1 hj
    cases i <;> cases j <;> simp_all
  have hmain := disjoint_batches_commute spaceConfig millionOperator ⟨1, 2⟩
    addsOfA hdisjoint .empty termColumn_empty
    [.read false, .read true, .flush true, .flush false] [false, true]
    (by decide +kernel)
  exact (hmain.2.2.1 1 [65]).trans (by decide +kernel)

end Wwsearch.Spec
