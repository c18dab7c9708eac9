import Mathlib.Algebra.Order.BigOperators.Group.List
import Wwsearch.Proofs.WriterStages

/-!
# When a batch is built

The other half of `buildBatch_ok`: with storage that takes every mutation the
stages can fail in three ways only. The tokenizer gives up, a record is not
serialized, or a mutation is too large for a batch. `buildBatch_isOk` says that
a batch with none of these is built, and `fits_of_dataSize` that under the
limit on the batch the last one does not arise; `updateDocuments_isOk` puts
the two together.
-/

namespace Wwsearch.Ref

open Wwsearch.Lib

theorem append_fits {m : Mutation} (h : m.tooLarge = none)
    (buffer : WriteBuffer) :
    buffer.append {} m = (⟨buffer.mutations ++ [m]⟩, {}) := by
  rw [WriteBuffer.append, h]
  rfl

theorem forEach_isOk {step : DocumentUpdater → WriteBuffer →
      DocumentUpdater × WriteBuffer × SearchStatus}
    {documents : List DocumentUpdater}
    (h : ∀ du ∈ documents, ∀ buffer, (step du buffer).2.2.ok = true) :
    ∀ buffer, (forEach step documents buffer).2.2.ok = true := by
  induction documents with
  | nil => intro buffer; rfl
  | cons du rest ih =>
      intro buffer
      simp only [forEach, if_pos (h du List.mem_cons_self buffer)]
      exact ih (fun x hx => h x (List.mem_cons_of_mem du hx)) _

namespace DocumentWriter

section Steps

variable {config : IndexConfig} {table : TableID} {du : DocumentUpdater}

theorem tokenizeStep_isOk (h : Tokenizes config du) (buffer : WriteBuffer) :
    (tokenizeStep config du buffer).2.2.ok = true := by
  rw [tokenizeStep]
  split
  · rfl
  · next hdel =>
      split
      · next hok =>
          have hret := h (Bool.not_eq_true _ ▸ hdel) hok
          simp only [hret, if_true]
          rfl
      · rfl

theorem mergeOldFieldStep_isOk (du : DocumentUpdater) (buffer : WriteBuffer) :
    (mergeOldFieldStep du buffer).2.2.ok = true := by
  rw [mergeOldFieldStep]
  split
  · rfl
  · rfl

theorem writeStoredFieldStep_isOk (hser : Serializes config du)
    (hfit : ∀ m ∈ storedMutations config table du, m.tooLarge = none)
    (buffer : WriteBuffer) :
    (writeStoredFieldStep config {} table du buffer).2.2.ok = true := by
  rw [writeStoredFieldStep]
  split
  · next hok =>
      dsimp only
      rw [putStoredField]
      rw [storedMutations, if_pos hok] at hfit
      cases hdel : du.delete with
      | true =>
          rw [hdel, if_pos rfl] at hfit
          rw [Bool.not_true, if_neg Bool.false_ne_true,
            append_fits (hfit _ (.head _))]
          rfl
      | false =>
          rw [hdel, if_neg Bool.false_ne_true] at hfit
          obtain ⟨r, hr⟩ := Option.isSome_iff_exists.1 (hser.stored hok hdel)
          rw [hr] at hfit
          rw [Bool.not_false, if_pos rfl, hr]
          dsimp only
          rw [append_fits (hfit _ (.head _))]
          rfl
  · rfl

theorem appendAll_isOk {ms : List Mutation} (h : ∀ m ∈ ms, m.tooLarge = none) :
    ∀ buffer, (appendAll {} ms buffer).2.ok = true := by
  induction ms with
  | nil => intro buffer; rfl
  | cons m ms ih =>
      intro buffer
      simp only [appendAll, append_fits (h m List.mem_cons_self)]
      exact ih (fun x hx => h x (List.mem_cons_of_mem m hx)) _

theorem writeInvertedIndexStep_isOk
    (hfit : ∀ m ∈ invertedMutations config table du, m.tooLarge = none)
    (buffer : WriteBuffer) :
    (writeInvertedIndexStep config {} table du buffer).2.2.ok = true := by
  rw [writeInvertedIndexStep]
  split
  · next hok =>
      rw [invertedMutations, if_pos hok] at hfit
      exact appendAll_isOk hfit buffer
  · rfl

theorem deleteOldDocValue_isOk (hok : du.status.ok = true)
    (buffer : WriteBuffer) :
    (deleteOldDocValue {} table du buffer).2.ok = true := by
  rw [deleteOldDocValue]
  split
  · rw [append_fits rfl]
    rfl
  · exact hok

theorem putDocValue_isOk (hok : du.status.ok = true)
    (hser : Serializes config du)
    (hfit : ∀ m ∈ docValueMutations config table du, m.tooLarge = none)
    (buffer : WriteBuffer) :
    (putDocValue config {} table du buffer).2.ok = true := by
  rw [putDocValue]
  rw [docValueMutations, if_pos hok] at hfit
  cases hdel : du.delete with
  | true =>
      rw [Bool.not_true, if_neg Bool.false_ne_true]
      exact deleteOldDocValue_isOk hok buffer
  | false =>
      rw [hdel, if_neg Bool.false_ne_true] at hfit
      obtain ⟨⟨value, flag⟩, hr⟩ :=
        Option.isSome_iff_exists.1 (hser.docValue hok hdel)
      rw [hr] at hfit
      rw [Bool.not_false, if_pos rfl, hr]
      cases flag with
      | true =>
          dsimp only
          rw [append_fits (hfit _ (.head _))]
          rfl
      | false => exact deleteOldDocValue_isOk hok buffer

theorem writeDocValueStep_isOk (hser : Serializes config du)
    (hfit : ∀ m ∈ docValueMutations config table du, m.tooLarge = none)
    (buffer : WriteBuffer) :
    (writeDocValueStep config {} table du buffer).2.2.ok = true := by
  rw [writeDocValueStep]
  split
  · next hok =>
      have hput := putDocValue_isOk hok hser hfit buffer
      simp only [hput, if_true]
      rfl
  · rfl

end Steps

/-! ## The batch -/

/-- A stage whose step fails on none of the updaters. -/
theorem runStage_isOk {step : DocumentUpdater → WriteBuffer →
      DocumentUpdater × WriteBuffer × SearchStatus}
    {f : DocumentUpdater → DocumentUpdater}
    {g : DocumentUpdater → List Mutation} {P : DocumentUpdater → Prop}
    (hstep : ∀ du buffer, (step du buffer).2.2.ok = true →
      (step du buffer).1 = f du ∧
      (step du buffer).2.1 = ⟨buffer.mutations ++ g du⟩ ∧ P du)
    {r : List DocumentUpdater × WriteBuffer × SearchStatus}
    {documents : List DocumentUpdater}
    (hr : r.2.2.ok = true ∧ r.1 = documents)
    (hok : ∀ du ∈ documents, ∀ buffer, (step du buffer).2.2.ok = true) :
    (runStage r step).2.2.ok = true ∧
      (runStage r step).1 = documents.map f := by
  obtain ⟨hr, rfl⟩ := hr
  rw [runStage, if_pos hr]
  have hall := forEach_isOk hok r.2.1
  exact ⟨hall, (forEach_ok hstep _ _ hall).1⟩

theorem newDocValue_cleared (du : DocumentUpdater) :
    newDocValue (cleared du) = newDocValue du := by
  rw [cleared]
  split
  · rfl
  · rfl

theorem serializes_cleared {config : IndexConfig} {du : DocumentUpdater}
    (h : Serializes config du) : Serializes config (cleared du) where
  stored hok hdel := by
    rw [cleared_ok] at hok
    rw [cleared, if_pos hok] at hdel ⊢
    exact h.stored hok hdel
  docValue hok hdel := by
    rw [cleared_ok] at hok
    rw [newDocValue_cleared]
    rw [cleared, if_pos hok] at hdel
    exact h.docValue hok hdel

theorem buildBatch_isOk {config : IndexConfig} {table : TableID}
    {documents : List DocumentUpdater} {buffer : WriteBuffer}
    (htok : ∀ du ∈ documents, Tokenizes config du)
    (hser : ∀ du ∈ documents, Serializes config (ready config du))
    (hfit : ∀ m ∈ batchMutations config table
      (documents.map (ready config)), m.tooLarge = none) :
    (buildBatch config {} table documents buffer).2.2.ok = true := by
  have hstored : ∀ du ∈ documents,
      ∀ m ∈ storedMutations config table (ready config du),
        m.tooLarge = none := fun du hdu m hm =>
    hfit m (List.mem_append_left _ (List.mem_append_left _
      (List.mem_flatMap.2 ⟨_, List.mem_map_of_mem hdu, hm⟩)))
  have hinverted : ∀ du ∈ documents,
      ∀ m ∈ invertedMutations config table (ready config du),
        m.tooLarge = none := fun du hdu m hm =>
    hfit m (List.mem_append_left _ (List.mem_append_right _
      (List.mem_flatMap.2 ⟨_, List.mem_map_of_mem hdu, hm⟩)))
  have hdocValue : ∀ du ∈ documents,
      ∀ m ∈ docValueMutations config table (ready config du),
        m.tooLarge = none := fun du hdu m hm =>
    hfit m (List.mem_append_right _
      (List.mem_flatMap.2 ⟨_, List.mem_map_of_mem hdu, hm⟩))
  have hready : (documents.map (tokenized config)).map mergedOld =
      documents.map (ready config) := List.map_map
  have h₁ := runStage_isOk (r := (documents, buffer, {}))
    (tokenizeStep_ok config)
    ⟨rfl, rfl⟩ fun du hdu => tokenizeStep_isOk (htok du hdu)
  have h₂ := runStage_isOk mergeOldFieldStep_ok h₁ fun du _ =>
    mergeOldFieldStep_isOk du
  rw [hready] at h₂
  have h₃ := runStage_isOk (writeStoredFieldStep_ok config {} table) h₂ (by
    intro x hx
    obtain ⟨du, hdu, rfl⟩ := List.mem_map.1 hx
    exact writeStoredFieldStep_isOk (hser du hdu) (hstored du hdu))
  have hcleared : ∀ x ∈ (documents.map (ready config)).map cleared,
      ∃ du ∈ documents, x = cleared (ready config du) := by
    intro x hx
    obtain ⟨y, hy, rfl⟩ := List.mem_map.1 hx
    obtain ⟨du, hdu, rfl⟩ := List.mem_map.1 hy
    exact ⟨du, hdu, rfl⟩
  have h₄ := runStage_isOk (writeInvertedIndexStep_ok config {} table) h₃ (by
    intro x hx
    obtain ⟨du, hdu, rfl⟩ := hcleared x hx
    refine writeInvertedIndexStep_isOk ?_
    rw [invertedMutations_cleared]
    exact hinverted du hdu)
  rw [List.map_id] at h₄
  have h₅ := runStage_isOk (writeDocValueStep_ok config {} table) h₄ (by
    intro x hx
    obtain ⟨du, hdu, rfl⟩ := hcleared x hx
    refine writeDocValueStep_isOk (serializes_cleared (hser du hdu)) ?_
    rw [docValueMutations_cleared]
    exact hdocValue du hdu)
  exact h₅.1

/-- A mutation of a batch under the limit is not too large for a batch. -/
theorem fits_of_dataSize {buffer : WriteBuffer} {limit : UInt32}
    (h : buffer.dataSize ≤ limit.toNat) :
    ∀ m ∈ buffer.mutations, m.tooLarge = none := by
  intro m hm
  have hsize : m.size ≤ limit.toNat := by
    have hle : m.size ≤ (buffer.mutations.map Mutation.size).sum :=
      List.single_le_sum (fun _ _ => Nat.zero_le _) _
        (List.mem_map_of_mem hm)
    rw [WriteBuffer.dataSize] at h
    omega
  have hlimit := limit.toNat_lt
  cases m with
  | put c key value | merge c key value =>
      simp only [Mutation.size, Mutation.stringSize] at hsize
      rw [Mutation.tooLarge, if_neg (by omega), if_neg (by omega)]
  | delete c key => rfl
  | deleteRange c b e => rfl

/-! ## A call without a store buffer -/

section Alone

variable {read : StorageColumnType → Bytes → Option String}
  {flush : List Mutation → Option String}

theorem append_alone {m : Mutation} (h : m.tooLarge = none)
    (buffer : WriteBuffer) :
    buffer.append { read, flush } m = (⟨buffer.mutations ++ [m]⟩, {}) := by
  rw [WriteBuffer.append, h]
  rfl

/-- Only the appends of an environment matter while a batch is built. -/
theorem appendAll_alone (ms : List Mutation) : ∀ buffer : WriteBuffer,
    appendAll { read, flush } ms buffer = appendAll {} ms buffer := by
  induction ms with
  | nil => exact fun _ => rfl
  | cons m ms ih =>
      intro buffer
      rw [appendAll, appendAll]
      simp only [ih]
      rfl

theorem buildBatch_alone (config : IndexConfig) (table : TableID)
    (documents : List DocumentUpdater) (buffer : WriteBuffer) :
    buildBatch config { read, flush } table documents buffer =
      buildBatch config {} table documents buffer := by
  have hinverted : writeInvertedIndexStep config { read, flush } table =
      writeInvertedIndexStep config {} table := by
    funext du buffer
    simp only [writeInvertedIndexStep, appendAll_alone]
  rw [buildBatch, hinverted]
  rfl

theorem flushBuffer_alone {ms : List Mutation} (h : flush ms = none)
    (db : VirtualDB) :
    db.flushBuffer { read, flush } ⟨ms⟩ = (db.applyAll ms, {}) := by
  rw [VirtualDB.flushBuffer]
  simp only [h]

/-- A batch under the limit is written, if nothing else stops it. -/
theorem updateDocuments_alone {config : IndexConfig} {table : TableID}
    {db : VirtualDB} {documents : List DocumentUpdater}
    (htok : ∀ du ∈ documents, Tokenizes config du)
    (hser : ∀ du ∈ documents, Serializes config (ready config du))
    (hsize : WriteBuffer.dataSize ⟨batchMutations config table
      (documents.map (ready config))⟩ ≤ config.maxWriteBatchSize.toNat)
    (hflush : flush (batchMutations config table
      (documents.map (ready config))) = none) :
    let r := updateDocuments config { read, flush } table db none documents
    r.status.ok = true ∧ r.db = db.applyAll (batchMutations config table
      (documents.map (ready config))) := by
  have hbuilt : (buildBatch config {} table documents {}).2.2.ok = true :=
    buildBatch_isOk htok hser (fits_of_dataSize hsize)
  have hbuffer : (buildBatch config {} table documents {}).2.1 =
      ⟨batchMutations config table (documents.map (ready config))⟩ := by
    have hmut := (buildBatch_ok hbuilt).1
    rw [List.nil_append] at hmut
    exact congrArg WriteBuffer.mk hmut
  have hcheck : (checkBatchSize config (buildBatch config {} table documents
      {}).2.1 (buildBatch config {} table documents {}).2.2).ok = true := by
    rw [checkBatchSize, hbuffer, if_neg fun h => absurd h.2 (not_lt.2 hsize)]
    exact hbuilt
  simp only [updateDocuments, buildBatch_alone, WriteBuffer.new]
  rw [if_pos hcheck, hbuffer, flushBuffer_alone hflush]
  exact ⟨rfl, rfl⟩

end Alone

end DocumentWriter

end Wwsearch.Ref
