import Wwsearch.Proofs.SameReads
import Wwsearch.Spec.Compaction

/-!
# What reads alike is written alike

A call writes mutations that it has computed from what it has read. Two
databases from which it reads the same get the same mutations, and it answers
the same (`operate_same`). What it adds to the column of lists are lists
(`AddsLists`), if the items that it ingests are lists.

Only a deletion looks at a key behind the table: that is an error if the key is
too short to be of any table, and no operation ever writes one (`LongKeys`).
-/

namespace Wwsearch.Spec

open Wwsearch.Lib Wwsearch.Ref Wwsearch.Ref.DocumentWriter
open Wwsearch.Ref.IndexWriter

variable {config : IndexConfig} {faults : Faults} {op : DocListMergeOperator}
  {u : TableID} {db db' : VirtualDB}

theorem longKeys_empty : LongKeys .empty := fun _ _ h => absurd rfl h

theorem LongKeys.seek (h : LongKeys db) {column : StorageColumnType}
    {start : Bytes} : ∀ x ∈ db.seek op column start, 9 ≤ x.1.length := by
  intro x hx
  obtain ⟨cell, hmem, -⟩ := mem_readableEntries hx
  have hcell := Std.ExtTreeMap.mem_toList_iff_getElem?_eq_some.1
    (List.mem_filter.1 hmem).1
  exact h column x.1 (by rw [hcell]; exact Option.some_ne_none cell)

theorem LongKeys.applyAll {t : TableID} (ms : List Mutation) :
    ∀ {db : VirtualDB}, LongKeys db → (∀ m ∈ ms, m.Within t) →
    LongKeys (db.applyAll ms) := by
  induction ms with
  | nil => exact fun h _ => h
  | cons m ms ih =>
      intro db h hms
      refine @ih (m.apply db) (fun column key hkey => ?_)
        fun m' hm' => hms m' (List.mem_cons_of_mem m hm')
      rw [Mutation.apply_getElem?] at hkey
      split at hkey
      · next htouch =>
          have hprefix := hms m List.mem_cons_self column key htouch
          rw [← encodeMetaKey_length t]
          exact hprefix.length_le
      · exact h column key hkey

theorem LongKeys.perform (h : LongKeys db) (o : TableOperation) :
    LongKeys (o.perform config op db) := by
  obtain ⟨ms, hdb, hms⟩ := @TableOperation.perform_ofTable config op db o
  rw [hdb]
  exact h.applyAll _ fun m hm => (hms m hm).within

/-! ## One batch for both -/

/-- Two databases after one batch for both, with mutations of a kind. -/
def AppliesSame (P : Mutation → Prop) (db db' db₁ db₁' : VirtualDB) : Prop :=
  ∃ ms, db₁ = db.applyAll ms ∧ db₁' = db'.applyAll ms ∧ ∀ m ∈ ms, P m

section Batches

variable {P : Mutation → Prop}

theorem appliesSame_nothing : AppliesSame P db db' db db' :=
  ⟨[], rfl, rfl, fun _ h => absurd h List.not_mem_nil⟩

/-- The end of a batch says the same. -/
theorem flushBuffer_same (db db' : VirtualDB) (faults : Faults)
    {buffer : WriteBuffer} (hP : ∀ m ∈ buffer.mutations, P m) :
    AppliesSame P db db' (db.flushBuffer faults buffer).1
        (db'.flushBuffer faults buffer).1 ∧
      (db.flushBuffer faults buffer).2 = (db'.flushBuffer faults buffer).2 := by
  rw [VirtualDB.flushBuffer, VirtualDB.flushBuffer]
  split
  · exact ⟨appliesSame_nothing, rfl⟩
  · exact ⟨⟨_, rfl, rfl, hP⟩, rfl⟩

theorem finishBuffer_same (db db' : VirtualDB) (faults : Faults)
    (storeBuffer : Option StoreBuffer) {r : WriteBuffer × SearchStatus}
    (hP : r.2.ok = true → storeBuffer = none → ∀ m ∈ r.1.mutations, P m) :
    AppliesSame P db db' (finishBuffer faults db storeBuffer r).db
        (finishBuffer faults db' storeBuffer r).db ∧
      answerOfBatch (finishBuffer faults db storeBuffer r) =
        answerOfBatch (finishBuffer faults db' storeBuffer r) := by
  simp only [finishBuffer]
  split
  · next hok =>
      cases storeBuffer with
      | none =>
          obtain ⟨hdb, hstatus⟩ := flushBuffer_same db db' faults (hP hok rfl)
          exact ⟨hdb, by simp only [answerOfBatch, hstatus]⟩
      | some sb => exact ⟨appliesSame_nothing, rfl⟩
  · exact ⟨appliesSame_nothing, rfl⟩

end Batches

/-! ## What an operation adds -/

/-- What the mutation adds to the column of lists is a list. -/
def AddsLists (m : Mutation) : Prop :=
  ∀ key, m.touches .invertedIndexColumn key = true →
    (∀ cell, m.applyCell cell = none) ∨
      ∃ column value, m = .merge column key value ∧
        Stores value (listOf value)

theorem addsLists_of_column {m : Mutation}
    (h : m.column ≠ .invertedIndexColumn) : AddsLists m := by
  intro key htouch
  simp only [Mutation.touches, decide_eq_false h, Bool.false_and] at htouch
  exact absurd htouch Bool.false_ne_true

theorem addsLists_delete (column : StorageColumnType) (key : Bytes) :
    AddsLists (.delete column key) :=
  fun _ _ => .inl fun _ => rfl

theorem addsLists_deleteRange (column : StorageColumnType) (a b : Bytes) :
    AddsLists (.deleteRange column a b) :=
  fun _ _ => .inl fun _ => rfl

theorem addsLists_effect {c : BatchCall} {m : Mutation}
    (h : m ∈ effect config op u db c) : AddsLists m := by
  intro key htouch
  obtain ⟨column, key', value, rfl, hstores⟩ := (effect_inverted h htouch).merge
  have hkey : key' = key :=
    of_decide_eq_true (Bool.and_eq_true _ _ ▸ htouch).2
  exact .inr ⟨column, value, by rw [hkey], hstores⟩

theorem addsLists_dropTable {m : Mutation} (h : m ∈ dropTableMutations u) :
    AddsLists m := by
  simp only [dropTableMutations, List.mem_cons, List.not_mem_nil, or_false] at h
  rcases h with rfl | rfl | rfl | rfl
  · exact addsLists_deleteRange _ _ _
  · exact addsLists_deleteRange _ _ _
  · exact addsLists_deleteRange _ _ _
  · exact addsLists_delete _ _

theorem addsLists_sequenceWrites {current : CurrentSequence} {m : Mutation}
    (h : m ∈ sequenceWrites u current) : AddsLists m := by
  have hputs : ∀ (users : List Bytes) (next : UInt64),
      ∀ m ∈ mappingPuts u users next, m.column = .metaColumn := by
    intro users
    induction users with
    | nil => exact fun _ _ hm => absurd hm List.not_mem_nil
    | cons userId rest ih =>
        intro next m hm
        rcases List.mem_cons.1 hm with rfl | hm
        · rfl
        · exact ih _ m hm
  refine addsLists_of_column ?_
  have hcolumn : m.column = .metaColumn := by
    simp only [sequenceWrites] at h
    split at h
    · rcases List.mem_append.1 h with h | h
      · exact hputs _ _ m h
      · rw [List.mem_singleton.1 h]
        rfl
    · exact absurd h List.not_mem_nil
  rw [hcolumn]
  decide

/-- The loop of a deletion puts deletions into its batch. -/
theorem deleteKeys_deletes {column : StorageColumnType} {p : Bytes}
    (entries : List (Bytes × Bytes)) :
    ∀ (maxLen : Nat) (lastKey : Bytes) (buffer : WriteBuffer),
    (∀ m ∈ buffer.mutations, AddsLists m) →
    ∀ m ∈ (deleteKeys faults column p entries maxLen lastKey
      buffer).2.1.mutations, AddsLists m := by
  induction entries with
  | nil => exact fun _ _ _ h => h
  | cons entry rest ih =>
      intro maxLen lastKey buffer h
      have hput : ∀ m ∈ (buffer.append faults
          (.delete column entry.1)).1.mutations, AddsLists m := by
        rw [WriteBuffer.append]
        split
        · exact h
        · intro m hm
          rcases List.mem_append.1 hm with hm | hm
          · exact h m hm
          · rw [List.mem_singleton.1 hm]
            exact addsLists_delete _ _
      rw [deleteKeys]
      split
      · exact h
      · split
        · exact h
        · split
          · exact h
          · simp only
            split
            · exact ih _ _ _ hput
            · exact hput

/-- The items that the operation ingests. -/
def Operation.items : Operation → List InvertIndexItem
  | .ingestInvertIndex _ _ indices => indices
  | .writeDocuments _ | .acquireCurrentSequence _ _ _ | .acquireNewSequence _
  | .dropTable _ _ | .deleteTableData _ _ _ _ => []

/-- What an operation writes. -/
def WrittenBy (config : IndexConfig) (u : TableID) (operation : Operation)
    (m : Mutation) : Prop :=
  AddsLists m ∨ ∃ item ∈ operation.items, ItemMerge config u item m

/-! ## Reading the same -/

/-- Keys that are none of the table, and not too short, end a page. -/
theorem deleteKeys_append {column : StorageColumnType}
    {others : List (Bytes × Bytes)}
    (hothers : ∀ x ∈ others, (encodeMetaKey u).isPrefixOf x.1 = false)
    (hlong : ∀ x ∈ others, 9 ≤ x.1.length) (entries : List (Bytes × Bytes)) :
    ∀ (maxLen : Nat) (lastKey : Bytes) (buffer : WriteBuffer),
    deleteKeys faults column (encodeMetaKey u) (entries ++ others) maxLen
        lastKey buffer =
      deleteKeys faults column (encodeMetaKey u) entries maxLen lastKey
        buffer := by
  induction entries with
  | nil =>
      intro maxLen lastKey buffer
      cases others with
      | nil => rfl
      | cons x others =>
          have hlen : ¬ x.1.length < (encodeMetaKey u).length := by
            rw [encodeMetaKey_length]
            exact Nat.not_lt.2 (hlong x List.mem_cons_self)
          rw [List.nil_append, deleteKeys, deleteKeys, if_neg hlen,
            hothers x List.mem_cons_self]
          exact ite_self _
  | cons x entries ih =>
      intro maxLen lastKey buffer
      rw [List.cons_append, deleteKeys, deleteKeys]
      simp only [ih]

theorem SameButLists.sameRecords (h : SameButLists op u db db')
    (c : BatchCall) : SameRecords u c db db' := fun d _ column hcolumn =>
  (h.records column hcolumn _ (prefix_storedFieldKey u d)).symm

/-- A page of a deletion. -/
theorem SameButLists.deleteTableData (h : SameButLists op u db db')
    (hlong : LongKeys db) (hlong' : LongKeys db')
    (column : StorageColumnType) {startKey : Bytes}
    (hstart : CursorOf u startKey) (maxLen : Nat) :
    let r := IndexWriter.deleteTableData faults op u db column startKey maxLen
    let r' := IndexWriter.deleteTableData faults op u db' column startKey maxLen
    AppliesSame AddsLists db db' r.db r'.db ∧ r.startKey = r'.startKey ∧
      r.status = r'.status := by
  have hfrom : encodeMetaKey u <+:
      if startKey = [] then encodeMetaKey u else startKey := by
    split
    · exact List.prefix_refl _
    · next hne => exact hstart.resolve_left hne
  have hloop : ∀ buffer : WriteBuffer,
      deleteKeys faults column (encodeMetaKey u) (db.seek op column
          (if startKey = [] then encodeMetaKey u else startKey)) maxLen []
          buffer =
        deleteKeys faults column (encodeMetaKey u) (db'.seek op column
          (if startKey = [] then encodeMetaKey u else startKey)) maxLen []
          buffer := by
    intro buffer
    obtain ⟨others, hothers, hseek⟩ := @seek_split op db column _ _ hfrom
    obtain ⟨others', hothers', hseek'⟩ := @seek_split op db' column _ _ hfrom
    rw [h.reads.seek_takeWhile column (List.prefix_refl _) hfrom] at hseek'
    have htail : ∀ x ∈ others, 9 ≤ x.1.length := fun x hx =>
      hlong.seek x (hseek ▸ List.mem_append_right _ hx)
    have htail' : ∀ x ∈ others', 9 ≤ x.1.length := fun x hx =>
      hlong'.seek x (hseek' ▸ List.mem_append_right _ hx)
    rw [hseek, hseek', deleteKeys_append hothers htail,
      deleteKeys_append hothers' htail']
  simp only [IndexWriter.deleteTableData]
  split
  · exact ⟨appliesSame_nothing, rfl, rfl⟩
  · rw [hloop]
    have hdeletes := @deleteKeys_deletes faults column (encodeMetaKey u)
      (db'.seek op column (if startKey = [] then encodeMetaKey u else startKey))
      maxLen [] {} fun _ hm => absurd hm List.not_mem_nil
    generalize deleteKeys faults column (encodeMetaKey u) (db'.seek op column
      (if startKey = [] then encodeMetaKey u else startKey)) maxLen [] {} = r
      at hdeletes ⊢
    split
    · obtain ⟨hdb, hstatus⟩ := flushBuffer_same db db' faults hdeletes
      exact ⟨hdb, by simp only [hstatus], hstatus⟩
    · exact ⟨appliesSame_nothing, rfl, rfl⟩

/-- What the allocator writes and answers depends on what it has read. -/
theorem writeNewSequence_same (db db' : VirtualDB) (faults : Faults)
    (storeBuffer : Option StoreBuffer) (current : CurrentSequence) :
    let r := writeNewSequence faults u db storeBuffer current
    let r' := writeNewSequence faults u db' storeBuffer current
    AppliesSame AddsLists db db' r.db r'.db ∧
      r.storeBuffer = r'.storeBuffer ∧ r.status = r'.status ∧
      r.sequenceList = r'.sequenceList := by
  intro r r'
  have hanswer : r.storeBuffer = r'.storeBuffer ∧ r.status = r'.status ∧
      r.sequenceList = r'.sequenceList := by
    simp only [r, r', DocumentWriter.writeNewSequence]
    split
    · split
      · split
        · obtain ⟨hbuffer, hstatus⟩ := Answer.batch.inj
            (@finishBuffer_same (fun _ => True) db db' faults storeBuffer
              ((allocateSequences faults u current.sequenceList
                current.currentMax
                (WriteBuffer.new storeBuffer)).2.2.1.append faults
                  (.put .metaColumn (encodeSequenceMetaKey u) (sequenceBytes
                    (allocateSequences faults u current.sequenceList
                      current.currentMax
                      (WriteBuffer.new storeBuffer)).2.1)))
              fun _ _ _ _ => trivial).2
          exact ⟨hbuffer, hstatus, rfl⟩
        · exact ⟨rfl, rfl, rfl⟩
      · exact ⟨rfl, rfl, rfl⟩
    · exact ⟨rfl, rfl, rfl⟩
  refine ⟨?_, hanswer⟩
  cases hok : r.status.ok with
  | false =>
      have hok' : r'.status.ok = false := hanswer.2.1 ▸ hok
      rw [(writeNewSequence_failed hok).1, (writeNewSequence_failed hok').1]
      exact appliesSame_nothing
  | true =>
      have hok' : r'.status.ok = true := hanswer.2.1 ▸ hok
      have hwrote := writeNewSequence_ok hok
      have hwrote' := writeNewSequence_ok hok'
      cases storeBuffer with
      | none =>
          exact ⟨_, hwrote.direct rfl, hwrote'.direct rfl,
            fun m hm => addsLists_sequenceWrites hm⟩
      | some sb =>
          rw [hwrote.buffered (by simp), hwrote'.buffered (by simp)]
          exact appliesSame_nothing

/-! ## Operations -/

/-- An operation on two databases from which it reads the same. -/
theorem operate_same (h : SameButLists op u db db') (hlong : LongKeys db)
    (hlong' : LongKeys db') (operation : Operation)
    (hcursor : ∀ faults column startKey maxLen,
      operation = .deleteTableData faults column startKey maxLen →
      CursorOf u startKey) :
    AppliesSame (WrittenBy config u operation) db db'
        (TableOperation.perform config op db ⟨u, operation⟩)
        (TableOperation.perform config op db' ⟨u, operation⟩) ∧
      operation.answer config op db u = operation.answer config op db' u := by
  have himp : ∀ {db₁ db₁' : VirtualDB}, AppliesSame AddsLists db db' db₁ db₁' →
      AppliesSame (WrittenBy config u operation) db db' db₁ db₁' := by
    rintro db₁ db₁' ⟨ms, hdb, hdb', hms⟩
    exact ⟨ms, hdb, hdb', fun m hm => .inl (hms m hm)⟩
  cases operation with
  | writeDocuments c =>
      have hrecords := h.sameRecords c
      refine ⟨himp ⟨effect config op u db c, perform_effect, ?_,
        fun m hm => addsLists_effect hm⟩,
        congrArg Answer.documents (returned_congr hrecords)⟩
      rw [effect_congr hrecords]
      exact perform_effect
  | ingestInvertIndex faults storeBuffer indices =>
      refine finishBuffer_same db db' faults storeBuffer fun _ hnone m hm => ?_
      rw [hnone] at hm
      rcases ingestItems_mem indices _ m hm with hm | hitem
      · exact absurd hm List.not_mem_nil
      · exact .inr hitem
  | acquireCurrentSequence faults currentMax sequenceList =>
      exact ⟨appliesSame_nothing, congrArg Answer.current
        (h.reads.acquireCurrentSequence currentMax sequenceList).symm⟩
  | acquireNewSequence c =>
      have hread : DocumentWriter.acquireCurrentSequence c.faults op u db' 0
          c.sequenceList = _ :=
        h.reads.acquireCurrentSequence 0 c.sequenceList
      obtain ⟨hdb, hbuffer, hstatus, hlist⟩ := @writeNewSequence_same u db db'
        c.faults c.storeBuffer (DocumentWriter.acquireCurrentSequence
          c.faults op u db 0 c.sequenceList)
      simp only [TableOperation.perform, Operation.answer, SequenceCall.perform,
        acquireNewSequence, hread]
      exact ⟨himp hdb, by rw [hbuffer, hstatus, hlist]⟩
  | dropTable faults storeBuffer =>
      refine finishBuffer_same db db' faults storeBuffer
        fun hok hnone m hm => ?_
      rw [appendAll_ok _ _ hok, hnone] at hm
      exact .inl (addsLists_dropTable hm)
  | deleteTableData faults column startKey maxLen =>
      obtain ⟨hdb, hkey, hstatus⟩ := @SameButLists.deleteTableData faults _ _ _ _
        h hlong hlong' column _ (hcursor _ _ _ _ rfl) maxLen
      exact ⟨himp hdb, by simp only [Operation.answer, hkey, hstatus]⟩

/-! ## Clients -/

section Clients

variable (σ : Type) [LT σ] [DecidableLT σ] [Zero σ] [Add σ]

theorem SameReads.found (h : SameReads op u db db') (fuel : Nat)
    (a : Searcher.QueryArgs σ) (queues : CollectorQueues σ a.sorter)
    (offset limit : UInt64) :
    (Searcher.doQuery fuel (tableContext config faults op u db) a queues offset
        limit []).map asideResult =
      (Searcher.doQuery fuel (tableContext config faults op u db') a queues
        offset limit []).map asideResult := by
  have hrel := @SameReads.doQuery config faults op u db db' σ _ _ _ _ h fuel a
    queues offset limit []
  generalize Searcher.doQuery fuel (tableContext config faults op u db) a queues
    offset limit [] = r at hrel ⊢
  generalize Searcher.doQuery fuel (tableContext config faults op u db') a queues
    offset limit [] = r' at hrel ⊢
  cases hrel with
  | none => rfl
  | @some r r' hr =>
      simp only [Option.map_some, asideResult, hr.docs, hr.getMatchTotalCnt,
        hr.status]

/-- What a client is told by two databases from which it reads the same. -/
theorem output_same (h : SameButLists op u db db') (hlong : LongKeys db)
    (hlong' : LongKeys db') {a : TableAction σ} (htable : a.table = u)
    (hown : OwnCursor a) :
    (clients config op σ).output db a = (clients config op σ).output db' a := by
  obtain ⟨table, action⟩ := a
  obtain rfl := htable
  cases action with
  | operate operation =>
      refine (operate_same h hlong hlong' operation ?_).2
      rintro faults column startKey maxLen rfl
      exact hown
  | getFields faults mode documents =>
      exact congrArg Answer.fields (List.map_congr_left fun document _ =>
        (h.reads.innerGetField mode document).symm)
  | scanTableData faults column startKey maxLen writeBatch maxBufferSize =>
      exact congrArg Answer.scanned (h.reads.scanTableData column hown maxLen
        writeBatch maxBufferSize).symm
  | doQuery faults fuel a queues offset limit =>
      exact congrArg Answer.found (h.reads.found σ fuel a queues offset limit)

end Clients

end Wwsearch.Spec
