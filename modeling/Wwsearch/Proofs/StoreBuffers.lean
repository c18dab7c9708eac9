import Wwsearch.Proofs.Outcome
import Wwsearch.Proofs.Numbered
import Wwsearch.Proofs.WriterProgress
import Wwsearch.Spec.StoreBuffer

/-!
# What a call adds to a store buffer

Every call builds its batch on whatever the store buffer holds, and what it
puts there does not depend on what was there before. So the batch of a call
that went through can be taken out again: the same call without a store buffer
builds just that part, and if its reads answer as before and its flush is
taken, that is what it flushes.

The allocator has a second way out. Where no item gets a number it writes
nothing and clears the store buffer, whatever was in it. `accumulates_iff` says
that this is the one thing that can go wrong, and `chain_accumulates` carries
the rest along a chain of calls.
-/

namespace Wwsearch.Spec

open Wwsearch.Lib Wwsearch.Ref Wwsearch.Ref.DocumentWriter

section Builders

variable {faults : Faults} {table : TableID} {db : VirtualDB}
  {read : StorageColumnType → Bytes → Option String}
  {flush : List Mutation → Option String}

/-- The end of a call that flushes: a batch that is taken is applied. -/
theorem finishBuffer_alone {ms : List Mutation} {r : WriteBuffer × SearchStatus}
    (hok : r.2.ok = true) (hr : r.1 = ⟨ms⟩) (hflush : flush ms = none) :
    (finishBuffer { read, flush } db none r).status.ok = true ∧
      (finishBuffer { read, flush } db none r).db = db.applyAll ms := by
  simp only [finishBuffer, if_pos hok, hr, flushBuffer_alone hflush]
  exact ⟨rfl, trivial⟩

theorem dropTable_alone (buffer : WriteBuffer) :
    (appendAll { read, flush } (dropTableMutations table) buffer).2.ok = true ∧
      (appendAll { read, flush } (dropTableMutations table) buffer).1 =
        ⟨buffer.mutations ++ dropTableMutations table⟩ := by
  have hfit : ∀ m ∈ dropTableMutations table, m.tooLarge = none := by
    simp [dropTableMutations, writeStoreFieldForDropTable,
      writeInvertedIndexForDropTable, writeDocvalueForDropTable,
      writeTableMetaForDropTable, Mutation.tooLarge]
  have hok := appendAll_isOk hfit buffer
  rw [appendAll_alone]
  exact ⟨hok, appendAll_ok _ _ hok⟩

/-- The items add the same merges to any buffer. -/
theorem ingestItems_ok {config : IndexConfig} (indices : List InvertIndexItem) :
    ∀ buffer : WriteBuffer,
    (ingestItems config faults table indices buffer).2.ok = true →
    ∃ ms, (ingestItems config faults table indices buffer).1 =
        ⟨buffer.mutations ++ ms⟩ ∧
      ∀ read flush (other : WriteBuffer), ingestItems config { read, flush }
        table indices other = (⟨other.mutations ++ ms⟩, {}) := by
  induction indices with
  | nil =>
      intro buffer _
      exact ⟨[], by rw [List.append_nil]; rfl,
        fun _ _ other => by rw [List.append_nil]; rfl⟩
  | cons item rest ih =>
      intro buffer h
      rw [ingestItems] at h ⊢
      cases hvalue : writeDocList config.compressionType item.records with
      | none => rw [hvalue] at h; exact absurd h Bool.false_ne_true
      | some r =>
          obtain ⟨_ | _, value⟩ := r
          · rw [hvalue] at h; exact absurd h Bool.false_ne_true
          · rw [hvalue] at h
            simp only at h ⊢
            split at h
            · next hput =>
                obtain ⟨hbuffer, -, hsize⟩ := append_ok hput
                obtain ⟨ms, hms, halone⟩ := ih _ h
                rw [if_pos hput, hms, hbuffer]
                refine ⟨_ :: ms, by rw [List.append_assoc]; rfl,
                  fun read flush other => ?_⟩
                rw [ingestItems, hvalue]
                simp only [append_alone hsize]
                refine (if_pos rfl).trans ?_
                rw [halone, List.append_assoc]
                rfl
            · next hput => exact absurd h hput

/-- The allocator gets through its loop with any buffer. -/
theorem allocateSequences_alone (items : List AllocSequence) :
    ∀ (next : UInt64) (buffer other : WriteBuffer),
    (allocateSequences faults table items next buffer).2.2.2.ok = true →
    (allocateSequences { read, flush } table items next other).2.2.2.ok =
      true := by
  induction items with
  | nil => exact fun _ _ _ _ => rfl
  | cons item rest ih =>
      intro next buffer other h
      rw [allocateSequences] at h ⊢
      split at h
      · next habsent =>
          rw [if_pos habsent]
          simp only at h ⊢
          split at h
          · next hput =>
              have halone : (other.append { read, flush } (.put .metaColumn
                  (encodeSequenceMappingKey table item.userId)
                  (sequenceBytes (next + 1)))).2.ok = true := by
                rw [append_alone (append_ok hput).2.2]
                rfl
              rw [if_pos halone]
              exact ih _ _ _ h
          · next hput => exact absurd h hput
      · next hpresent =>
          rw [if_neg hpresent]
          exact ih _ _ _ h

theorem sequenceWrites_ne_nil {current : CurrentSequence}
    (hnext : nextMaximum current.currentMax (newUsers current.sequenceList) ≠
      current.currentMax) : sequenceWrites table current ≠ [] := by
  rw [sequenceWrites, if_pos hnext]
  exact List.append_ne_nil_of_right_ne_nil _ (List.cons_ne_nil _ _)

/-- A call that went through has gone through its loop. -/
theorem writeNewSequence_loop {storeBuffer : Option StoreBuffer}
    {current : CurrentSequence}
    (h : (writeNewSequence faults table db storeBuffer current).status.ok =
      true) :
    (allocateSequences faults table current.sequenceList current.currentMax
      (WriteBuffer.new storeBuffer)).2.2.2.ok = true := by
  by_contra hno
  simp only [writeNewSequence] at h
  rw [if_pos (writeNewSequence_ok h).read_ok, if_neg hno] at h
  exact hno h

theorem writeNewSequence_alone {current : CurrentSequence}
    (hread : current.status.ok = true)
    (hloop : (allocateSequences { read, flush } table current.sequenceList
      current.currentMax (WriteBuffer.new none)).2.2.2.ok = true)
    (hnext : nextMaximum current.currentMax (newUsers current.sequenceList) ≠
      current.currentMax)
    (hflush : flush (sequenceWrites table current) = none) :
    let r := writeNewSequence { read, flush } table db none current
    r.status.ok = true ∧
      r.db = db.applyAll (sequenceWrites table current) := by
  have hwrites : sequenceWrites table current = _ := if_pos hnext
  simp only [writeNewSequence]
  rw [if_pos hread, if_pos hloop, allocateSequences_ok _ _ _ hloop,
    if_pos hnext, append_alone rfl]
  refine finishBuffer_alone rfl ?_ hflush
  rw [hwrites]
  rfl

theorem writeNewSequence_alone_nothing {current : CurrentSequence}
    (hread : current.status.ok = true)
    (hloop : (allocateSequences { read, flush } table current.sequenceList
      current.currentMax (WriteBuffer.new none)).2.2.2.ok = true)
    (hnone : newUsers current.sequenceList = []) :
    let r := writeNewSequence { read, flush } table db none current
    r.status.ok = true ∧ r.db = db := by
  simp only [writeNewSequence]
  rw [if_pos hread, if_pos hloop, allocateSequences_ok _ _ _ hloop, hnone,
    if_neg (by simp [nextMaximum])]
  exact ⟨rfl, rfl⟩

end Builders

section Calls

variable {config : IndexConfig} {op : DocListMergeOperator} {faults : Faults}
  {table : TableID} {db : VirtualDB} {sb : StoreBuffer}

/-- The batch of a call, put behind another, is under the limit alone. -/
theorem dataSize_le_append (before ms : List Mutation) :
    WriteBuffer.dataSize ⟨ms⟩ ≤ WriteBuffer.dataSize ⟨before ++ ms⟩ := by
  simp only [WriteBuffer.dataSize, List.map_append, List.sum_append]
  omega

theorem updateDocuments_adds {documents : List DocumentUpdater}
    (h : (updateDocuments config faults table db (some sb)
      documents).status.ok = true) :
    let ms := batchMutations config table (documents.map (ready config))
    (updateDocuments config faults table db (some sb) documents).db = db ∧
      (updateDocuments config faults table db (some sb)
        documents).storeBuffer = some (.batch (queued (some sb) ++ ms)) ∧
      ∀ flush, flush ms = none →
        let r := updateDocuments config { read := faults.read, flush } table db
          none documents
        r.status.ok = true ∧ r.db = db.applyAll ms := by
  intro ms
  obtain ⟨hbuilt, hsize, -, hdb, hsb⟩ := updateDocuments_ok h
  obtain ⟨hmut, -, htok, hwr⟩ := buildBatch_ok hbuilt
  rw [hmut] at hsb
  refine ⟨hdb, hsb, fun flush hflush => ?_⟩
  have hsize : WriteBuffer.dataSize ⟨ms⟩ ≤ config.maxWriteBatchSize.toNat := by
    refine (dataSize_le_append (queued (some sb)) ms).trans ?_
    rw [queued, ← hmut]
    exact hsize
  refine updateDocuments_alone htok (fun du hdu => ⟨fun hok hdel => ?_,
    fun hok hdel => ?_⟩) hsize hflush
  · obtain ⟨value, flag, hv, -⟩ := (hwr du hdu).stored hok hdel
    rw [hv]
    rfl
  · obtain ⟨value, flag, hv, -⟩ := (hwr du hdu).docValue hok hdel
    rw [hv]
    rfl

theorem accumulates_intro {c : BufferedCall} {ms : List Mutation}
    (hdb : (c.perform config op db (some sb)).db = db)
    (hsb : (c.perform config op db (some sb)).storeBuffer =
      some (.batch (queued (some sb) ++ ms)))
    (halone : c.FlushesAlone config op db ms) :
    c.Accumulates config op db sb :=
  ⟨hdb, by rw [hsb]; rfl, ms, halone, by rw [hsb]; rfl⟩

theorem writeDocuments_accumulates {mode : DocumentUpdaterType}
    {updaters : List DocumentUpdater}
    (h : (IndexWriter.innerWriteDocuments config faults op table db (some sb)
      mode updaters).ok = true) :
    BufferedCall.Accumulates config op db sb
      { table, faults, request := .writeDocuments mode updaters } := by
  rw [IndexWriter.innerWriteDocuments_eq] at h
  obtain ⟨hread, hstatus, hr⟩ := IndexWriter.writeDocuments_ok h
  obtain ⟨hdb, hsb, halone⟩ := updateDocuments_adds hstatus
  refine accumulates_intro ((congrArg (·.db) hr).trans hdb)
    ((congrArg (·.storeBuffer) hr).trans hsb) fun flush hflush => ?_
  obtain ⟨hok, hdb⟩ := halone flush hflush
  have hrun : IndexWriter.innerWriteDocuments config
      { read := faults.read, flush } op table db none mode updaters =
        IndexWriter.writeDocuments config { read := faults.read, flush } table
          db none (IndexWriter.readDocuments config faults op table db mode
            updaters).1 true := by
    rw [← hread]
    rfl
  have hboth : (IndexWriter.innerWriteDocuments config
      { read := faults.read, flush } op table db none mode updaters).ok = true ∧
      (IndexWriter.innerWriteDocuments config
        { read := faults.read, flush } op table db none mode updaters).db =
        db.applyAll (batchMutations config table ((IndexWriter.readDocuments
          config faults op table db mode updaters).1.map (ready config))) := by
    rw [hrun, IndexWriter.writeDocuments]
    simp only [if_true, hok]
    exact ⟨trivial, hdb⟩
  exact hboth

/-- A batch that is built the same way on any buffer, and then flushed or
left. -/
theorem finishBuffer_accumulates {ms : List Mutation}
    (build : Faults → WriteBuffer → WriteBuffer × SearchStatus)
    (hok : (finishBuffer faults db (some sb)
      (build faults (WriteBuffer.new (some sb)))).status.ok = true)
    (hbuild : (build faults (WriteBuffer.new (some sb))).2.ok = true →
      (build faults (WriteBuffer.new (some sb))).1 =
        ⟨queued (some sb) ++ ms⟩)
    (halone : ∀ flush, (build { read := faults.read, flush } {}).2.ok = true ∧
      (build { read := faults.read, flush } {}).1 = ⟨ms⟩) :
    let r := finishBuffer faults db (some sb)
      (build faults (WriteBuffer.new (some sb)))
    r.db = db ∧ r.storeBuffer = some (.batch (queued (some sb) ++ ms)) ∧
      ∀ flush, flush ms = none →
        let r := finishBuffer { read := faults.read, flush } db none
          (build { read := faults.read, flush } {})
        r.status.ok = true ∧ r.db = db.applyAll ms := by
  have hfinished := finishBuffer_ok hbuild hok
  exact ⟨hfinished.buffered (by simp), hfinished.left, fun flush hflush =>
    finishBuffer_alone (halone flush).1 (halone flush).2 hflush⟩

theorem ingestInvertIndex_accumulates {indices : List InvertIndexItem}
    (h : (ingestInvertIndex config faults table db (some sb)
      indices).status.ok = true) :
    BufferedCall.Accumulates config op db sb
      { table, faults, request := .ingestInvertIndex indices } := by
  have hloop : (ingestItems config faults table indices
      (WriteBuffer.new (some sb))).2.ok = true := by
    by_contra hno
    rw [ingestInvertIndex, finishBuffer] at h
    simp only [if_neg hno] at h
    exact hno h
  obtain ⟨ms, hms, halone⟩ := ingestItems_ok indices _ hloop
  obtain ⟨hdb, hsb, halone⟩ := finishBuffer_accumulates
    (fun faults => ingestItems config faults table indices) h
    (fun _ => hms) fun flush => by rw [halone]; exact ⟨rfl, rfl⟩
  exact accumulates_intro hdb hsb halone

theorem dropTable_accumulates
    (h : (dropTable faults table db (some sb)).status.ok = true) :
    BufferedCall.Accumulates config op db sb
      { table, faults, request := .dropTable } := by
  obtain ⟨hdb, hsb, halone⟩ := finishBuffer_accumulates
    (fun faults => appendAll faults (dropTableMutations table)) h
    (appendAll_ok _ _) fun flush => dropTable_alone {}
  exact accumulates_intro hdb hsb halone

/-- The users that get a number are those of the condition. -/
theorem newUsers_ne_nil_iff {items : List AllocSequence} :
    newUsers (items.map (readItem op table db)) ≠ [] ↔
      ∃ item ∈ items, item.status.documentNotExist = true ∨
        storedNumber op table db item.userId = none := by
  have hitem : ∀ item, (readItem op table db item).status.documentNotExist =
      true ↔ item.status.documentNotExist = true ∨
        storedNumber op table db item.userId = none := by
    intro item
    rw [readItem]
    cases storedNumber op table db item.userId with
    | none => simp; rfl
    | some sequence => simp
  simp [newUsers, List.filter_eq_nil_iff, hitem]

theorem acquireNewSequence_accumulates {items : List AllocSequence}
    (hlen : items.length < 2 ^ 64)
    (h : (acquireNewSequence faults op table db (some sb) items).status.ok =
      true)
    (hnew : newUsers (acquireCurrentSequence faults op table db 0
      items).sequenceList ≠ []) :
    BufferedCall.Accumulates config op db sb
      { table, faults, request := .acquireNewSequence items hlen } := by
  rw [acquireNewSequence] at h
  have hwrote := writeNewSequence_ok h
  have hlt : (newUsers (acquireCurrentSequence faults op table db 0
      items).sequenceList).length < 2 ^ 64 := by
    rw [acquireCurrentSequence_ok hwrote.read_ok]
    refine (newUsers_length_le _).trans_lt ?_
    rw [List.length_map]
    exact hlen
  have hnext := @nextMaximum_ne (acquireCurrentSequence faults op table db 0
    items).currentMax _ (List.length_pos_of_ne_nil hnew) hlt
  have hwrites : sequenceWrites table (acquireCurrentSequence faults op table
      db 0 items) ≠ [] := sequenceWrites_ne_nil hnext
  refine accumulates_intro (hwrote.buffered (by simp)) ?_
    fun flush hflush => writeNewSequence_alone hwrote.read_ok
      (allocateSequences_alone _ _ _ _ (writeNewSequence_loop h)) hnext hflush
  refine hwrote.left.trans ?_
  rw [if_neg hwrites]
  rfl

/-- The other branch of the allocator: the buffer is cleared. -/
theorem acquireNewSequence_clears {items : List AllocSequence}
    (h : (acquireNewSequence faults op table db (some sb) items).status.ok =
      true)
    (hnone : newUsers (acquireCurrentSequence faults op table db 0
      items).sequenceList = []) :
    (acquireNewSequence faults op table db (some sb) items).db = db ∧
      (acquireNewSequence faults op table db (some sb) items).storeBuffer =
        some .empty ∧
      ∀ flush,
        let r := acquireNewSequence { read := faults.read, flush } op table db
          none items
        r.status.ok = true ∧ r.db = db := by
  rw [acquireNewSequence] at h ⊢
  have hwrote := writeNewSequence_ok h
  have hwrites : sequenceWrites table (acquireCurrentSequence faults op table
      db 0 items) = [] := by
    rw [sequenceWrites, hnone, nextMaximum]
    simp
  refine ⟨hwrote.buffered (by simp), hwrote.left.trans ?_, fun flush => ?_⟩
  · rw [if_pos hwrites]
    rfl
  · exact writeNewSequence_alone_nothing hwrote.read_ok
      (allocateSequences_alone _ _ _ _ (writeNewSequence_loop h)) hnone

/-- **A call in a store buffer.** -/
theorem accumulates_iff {c : BufferedCall}
    (h : (c.perform config op db (some sb)).ok = true) :
    c.Accumulates config op db sb ↔ c.HasNewOrEmpty op db (some sb) := by
  obtain ⟨table, faults, request⟩ := c
  cases request with
  | writeDocuments mode updaters =>
      exact iff_of_true (writeDocuments_accumulates h) trivial
  | ingestInvertIndex indices =>
      exact iff_of_true (ingestInvertIndex_accumulates h) trivial
  | dropTable => exact iff_of_true (dropTable_accumulates h) trivial
  | acquireNewSequence items hlen =>
      have hread := (writeNewSequence_ok h).read_ok
      have hlist : (acquireCurrentSequence faults op table db 0
          items).sequenceList = items.map (readItem op table db) := by
        rw [acquireCurrentSequence_ok hread]
      by_cases hnew : newUsers (items.map (readItem op table db)) = []
      · rw [← hlist] at hnew
        obtain ⟨hdb, hsb, halone⟩ := acquireNewSequence_clears h hnew
        rw [hlist] at hnew
        constructor
        · rintro ⟨-, -, ms, -, hqueued⟩
          refine .inr (List.append_eq_nil_iff.1 (hqueued.symm.trans ?_)).1
          exact congrArg queued hsb
        · rintro (hitem | hempty)
          · exact absurd hnew (newUsers_ne_nil_iff.2 hitem)
          · refine ⟨hdb, congrArg Option.isSome hsb, [],
              fun flush _ => halone flush, ?_⟩
            rw [hempty]
            exact congrArg queued hsb
      · exact iff_of_true (acquireNewSequence_accumulates hlen h (hlist ▸ hnew))
          (.inl (newUsers_ne_nil_iff.1 hnew))

end Calls

/-! ## One buffer for many calls -/

section Chain

variable {config : IndexConfig} {op : DocListMergeOperator}

theorem chain_accumulates (calls : List (VirtualDB × BufferedCall)) :
    ∀ sb : StoreBuffer, BufferedCall.ChainMeets config op (some sb) calls →
    ∃ mss, List.Forall₂ (fun c ms => c.2.FlushesAlone config op c.1 ms) calls
        mss ∧
      queued (BufferedCall.chain config op (some sb) calls) =
        queued (some sb) ++ mss.flatten := by
  induction calls with
  | nil =>
      intro sb _
      exact ⟨[], .nil, (List.append_nil _).symm⟩
  | cons c rest ih =>
      rintro sb ⟨hok, hmeets, hrest⟩
      obtain ⟨-, hsome, ms, halone, hqueued⟩ := (accumulates_iff hok).2 hmeets
      obtain ⟨sb', hsb'⟩ := Option.isSome_iff_exists.1 hsome
      rw [hsb'] at hqueued hrest
      obtain ⟨mss, hmss, hchain⟩ := ih sb' hrest
      refine ⟨ms :: mss, .cons halone hmss, ?_⟩
      have hstep : BufferedCall.chain config op (some sb) (c :: rest) =
          BufferedCall.chain config op (some sb') rest := by
        rw [← hsb']
        rfl
      rw [hstep, hchain, hqueued, List.flatten_cons, List.append_assoc]

theorem applyAll_flatten (mss : List (List Mutation)) : ∀ db : VirtualDB,
    db.applyAll mss.flatten = mss.foldl VirtualDB.applyAll db := by
  induction mss with
  | nil => exact fun _ => rfl
  | cons ms mss ih =>
      intro db
      rw [List.flatten_cons, applyAll_append, ih]
      rfl

end Chain

/-- **What a call leaves in a store buffer.** A call that goes through puts the
mutations it would have flushed behind those in the buffer, unless the
allocator has no number to give and the buffer had something to lose. So a
buffer that is passed from call to call and flushed once applies what all of
them would have flushed, in their order. -/
theorem storeBuffer_accumulates (config : IndexConfig)
    (op : DocListMergeOperator) (sb : StoreBuffer) :
    (∀ db (c : BufferedCall), (c.perform config op db (some sb)).ok = true →
      (c.Accumulates config op db sb ↔ c.HasNewOrEmpty op db (some sb))) ∧
    ∀ calls, BufferedCall.ChainMeets config op (some sb) calls →
      ∃ mss, List.Forall₂ (fun c ms => c.2.FlushesAlone config op c.1 ms) calls
          mss ∧
        ∀ db : VirtualDB, db.flushBuffer {} (WriteBuffer.new
            (BufferedCall.chain config op (some sb) calls)) =
          (mss.foldl VirtualDB.applyAll (db.applyAll (queued (some sb))),
            {}) := by
  refine ⟨fun db c h => accumulates_iff h, fun calls hcalls => ?_⟩
  obtain ⟨mss, hmss, hchain⟩ := chain_accumulates calls sb hcalls
  refine ⟨mss, hmss, fun db => ?_⟩
  have hflush : db.flushBuffer {} (WriteBuffer.new
      (BufferedCall.chain config op (some sb) calls)) =
        (db.applyAll (queued (BufferedCall.chain config op (some sb) calls)),
          {}) := rfl
  rw [hflush, hchain, applyAll_append, applyAll_flatten]

/-- Table 1, 2 is dropped, and a user of it gets a number. -/
def dropAndAcquire : List (VirtualDB × BufferedCall) :=
  [(.empty, { table := ⟨1, 2⟩, request := .dropTable }),
    (.empty, { table := ⟨1, 2⟩
               request := .acquireNewSequence [{ userId := [66, 65] }] (by decide) })]

theorem storeBuffer_accumulates_dropAndAcquire :
    ∃ mss, List.Forall₂ (fun c ms =>
        c.2.FlushesAlone spaceConfig millionOperator c.1 ms) dropAndAcquire
          mss ∧
      ∀ db : VirtualDB, db.flushBuffer {} (WriteBuffer.new (BufferedCall.chain
          spaceConfig millionOperator (some .empty) dropAndAcquire)) =
        (mss.foldl VirtualDB.applyAll db, {}) :=
  (storeBuffer_accumulates spaceConfig millionOperator .empty).2 dropAndAcquire
    ⟨by decide +kernel, trivial, by decide +kernel,
      .inl ⟨_, .head _, .inr (by decide +kernel)⟩, trivial⟩

/-- User 65 of table 1, 2 has a number and asks again, with a store buffer that
holds the mutations of a dropped table: they are gone. -/
theorem storeBuffer_cleared :
    let db := (DocumentWriter.acquireNewSequence {} millionOperator ⟨1, 2⟩
      .empty none [{ userId := [65] }]).db
    let sb := StoreBuffer.batch (dropTableMutations ⟨3, 4⟩)
    let c : BufferedCall :=
      { table := ⟨1, 2⟩
        request := .acquireNewSequence [{ userId := [65] }] (by decide) }
    (c.perform spaceConfig millionOperator db (some sb)).ok = true ∧
      ¬ c.Accumulates spaceConfig millionOperator db sb := by
  intro db sb c
  have hcleared : (c.perform spaceConfig millionOperator db
      (some sb)).storeBuffer = some .empty := by decide +kernel
  refine ⟨by decide +kernel, ?_⟩
  rintro ⟨-, -, ms, -, hqueued⟩
  rw [hcleared] at hqueued
  exact absurd hqueued (List.cons_ne_nil _ _).symm

end Wwsearch.Spec
