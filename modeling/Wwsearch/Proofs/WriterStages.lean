import Wwsearch.Spec.Batch

/-!
# What a batch that is built consists of

A stage that ends in an OK status did the same thing to every updater, and put
into the buffer one after the other what each of them asks for (`forEach_ok`).
For each stage that is a function of the updater alone: `tokenized`,
`mergedOld`, and the mutations of the three columns. No stage changes what the
mutations of a later one depend on, so a batch that was built is
`batchMutations` of the updaters as they stand after the old fields were
copied (`buildBatch_ok`), and each of them could be written (`Writable`).
-/

namespace Wwsearch.Ref

open Wwsearch.Lib

/-! ## The loop -/

theorem append_ok {faults : Faults} {buffer : WriteBuffer} {m : Mutation}
    (h : (buffer.append faults m).2.ok = true) :
    (buffer.append faults m).1 = ⟨buffer.mutations ++ [m]⟩ ∧
      (buffer.append faults m).2 = {} ∧ m.tooLarge = none := by
  rw [WriteBuffer.append] at h ⊢
  cases ht : m.tooLarge with
  | some msg => rw [ht, Option.some_or] at h; exact absurd h Bool.false_ne_true
  | none =>
      rw [ht, Option.none_or] at h
      cases hf : faults.append buffer.mutations m with
      | some msg => rw [hf] at h; exact absurd h Bool.false_ne_true
      | none => exact ⟨rfl, rfl, rfl⟩

theorem length_of_put_fits {c : StorageColumnType} {key value : Bytes}
    (h : (Mutation.put c key value).tooLarge = none) : value.length < 2 ^ 32 := by
  rw [Mutation.tooLarge] at h
  split at h
  · cases h
  · split at h
    · cases h
    · next hv => exact not_le.1 hv

section Loop

variable {step : DocumentUpdater → WriteBuffer →
    DocumentUpdater × WriteBuffer × SearchStatus}
  {f : DocumentUpdater → DocumentUpdater} {g : DocumentUpdater → List Mutation}
  {P : DocumentUpdater → Prop}

theorem forEach_ok (hstep : ∀ du buffer, (step du buffer).2.2.ok = true →
      (step du buffer).1 = f du ∧
      (step du buffer).2.1 = ⟨buffer.mutations ++ g du⟩ ∧ P du)
    (documents : List DocumentUpdater) : ∀ buffer : WriteBuffer,
    (forEach step documents buffer).2.2.ok = true →
    (forEach step documents buffer).1 = documents.map f ∧
      (forEach step documents buffer).2.1 =
        ⟨buffer.mutations ++ documents.flatMap g⟩ ∧ ∀ du ∈ documents, P du := by
  induction documents with
  | nil =>
      intro buffer _
      exact ⟨rfl, by rw [List.flatMap_nil, List.append_nil]; rfl,
        fun du hdu => absurd hdu (List.not_mem_nil)⟩
  | cons du rest ih =>
      intro buffer h
      simp only [forEach] at h ⊢
      by_cases hs : (step du buffer).2.2.ok = true
      · rw [if_pos hs] at h ⊢
        obtain ⟨hdu, hbuf, hp⟩ := hstep du buffer hs
        obtain ⟨hdocs, hbufs, hps⟩ := ih _ h
        refine ⟨?_, ?_, ?_⟩
        · rw [List.map_cons, hdu, hdocs]
        · rw [hbufs, hbuf, List.flatMap_cons, List.append_assoc]
        · intro x hx
          rcases List.mem_cons.1 hx with rfl | hx
          · exact hp
          · exact hps x hx
      · rw [if_neg hs] at h
        exact absurd h hs

end Loop

namespace DocumentWriter

/-! ## What the stages leave alone -/

theorem ready_updateType (config : IndexConfig) (du : DocumentUpdater) :
    (ready config du).updateType = du.updateType := by
  simp only [ready, mergedOld, tokenized]
  split_ifs <;> rfl

theorem ready_status (config : IndexConfig) (du : DocumentUpdater) :
    (ready config du).status = du.status := by
  simp only [ready, mergedOld, tokenized]
  split_ifs <;> rfl

theorem ready_oldDocument (config : IndexConfig) (du : DocumentUpdater) :
    (ready config du).oldDocument = du.oldDocument := by
  simp only [ready, mergedOld, tokenized]
  split_ifs <;> rfl

theorem ready_docValues (config : IndexConfig) (du : DocumentUpdater) :
    (ready config du).oldDocValueDocument = du.oldDocValueDocument ∧
      (ready config du).newDocValueDocument = du.newDocValueDocument := by
  simp only [ready, mergedOld, tokenized]
  split_ifs <;> exact ⟨rfl, rfl⟩

theorem copyOldFields_documentId (old : List IndexField) :
    ∀ new : Document,
      (copyOldFields new old).documentId = new.documentId := by
  induction old with
  | nil => intro new; rfl
  | cons field rest ih =>
      intro new
      rw [copyOldFields, List.foldl_cons]
      refine (ih _).trans ?_
      split
      · rfl
      · rfl

theorem ready_documentId (config : IndexConfig) (du : DocumentUpdater) :
    (ready config du).newDocument.documentId = du.newDocument.documentId := by
  simp only [ready, mergedOld, tokenized]
  split_ifs <;> first | rfl | exact copyOldFields_documentId _ _

theorem ready_delete (config : IndexConfig) (du : DocumentUpdater) :
    (ready config du).delete = du.delete := by
  rw [DocumentUpdater.delete, ready_updateType, DocumentUpdater.delete]

/-- The tokenizer got through the document, where it has to. -/
def Tokenizes (config : IndexConfig) (du : DocumentUpdater) : Prop :=
  du.delete = false → du.status.ok = true →
    (config.tokenizer.do' du.newDocument).2 = true

/-- Both records of the document can be written. -/
structure Writable (config : IndexConfig) (du : DocumentUpdater) : Prop where
  stored : du.status.ok = true → du.delete = false →
    ∃ value flag, du.newDocument.serializeToBytes config.pb .storedField =
      some (value, flag) ∧ value.length < 2 ^ 32
  docValue : du.status.ok = true → du.delete = false →
    ∃ value flag, (newDocValue du).serializeToBytes config.pb .docValue =
      some (value, flag) ∧ (flag = true → value.length < 2 ^ 32)

/-! ## One updater through one stage -/

theorem tokenizeStep_ok (config : IndexConfig) (du : DocumentUpdater)
    (buffer : WriteBuffer) (h : (tokenizeStep config du buffer).2.2.ok = true) :
    (tokenizeStep config du buffer).1 = tokenized config du ∧
      (tokenizeStep config du buffer).2.1 = ⟨buffer.mutations ++ []⟩ ∧
      Tokenizes config du := by
  rw [List.append_nil]
  simp only [tokenizeStep, tokenized, Tokenizes] at h ⊢
  by_cases hdel : du.delete = true
  · simp [hdel]
  · by_cases hok : du.status.ok = true
    · rw [if_neg hdel, if_pos hok] at h ⊢
      by_cases hret : (config.tokenizer.do' du.newDocument).2 = true
      · simp [hdel, hok, hret]
      · rw [if_neg hret] at h
        exact absurd h Bool.false_ne_true
    · simp [hdel, hok]

theorem mergeOldFieldStep_ok (du : DocumentUpdater) (buffer : WriteBuffer)
    (_ : (mergeOldFieldStep du buffer).2.2.ok = true) :
    (mergeOldFieldStep du buffer).1 = mergedOld du ∧
      (mergeOldFieldStep du buffer).2.1 = ⟨buffer.mutations ++ []⟩ ∧ True := by
  rw [List.append_nil, mergeOldFieldStep, mergedOld]
  split
  · exact ⟨rfl, rfl, trivial⟩
  · exact ⟨rfl, rfl, trivial⟩

/-- The updater after a record of it went into the buffer. -/
def cleared (du : DocumentUpdater) : DocumentUpdater :=
  if du.status.ok then { du with status := {} } else du

theorem cleared_ok (du : DocumentUpdater) :
    (cleared du).status.ok = du.status.ok := by
  rw [cleared]
  split
  · next h => rw [h]; rfl
  · rfl

theorem putStoredField_ok {config : IndexConfig} {faults : Faults}
    {table : TableID} {du : DocumentUpdater} {buffer : WriteBuffer}
    (hok : du.status.ok = true)
    (h : (putStoredField config faults table du buffer).2.ok = true) :
    (putStoredField config faults table du buffer).1 =
        ⟨buffer.mutations ++ storedMutations config table du⟩ ∧
      (putStoredField config faults table du buffer).2 = {} ∧
      (du.delete = false → ∃ value flag,
        du.newDocument.serializeToBytes config.pb .storedField =
          some (value, flag) ∧ value.length < 2 ^ 32) := by
  simp only [putStoredField, storedMutations, hok, if_true] at h ⊢
  cases hdel : du.delete with
  | true =>
      simp only [hdel, Bool.not_true, Bool.false_eq_true, if_false, if_true] at h ⊢
      obtain ⟨hbuf, hst, -⟩ := append_ok h
      exact ⟨hbuf, hst, fun hd => absurd hd Bool.noConfusion⟩
  | false =>
      simp only [hdel, Bool.not_false, if_true, Bool.false_eq_true, if_false] at h ⊢
      cases hs : du.newDocument.serializeToBytes config.pb .storedField with
      | none => rw [hs] at h; exact absurd h Bool.false_ne_true
      | some r =>
          rw [hs] at h
          obtain ⟨hbuf, hst, hsize⟩ := append_ok h
          exact ⟨hbuf, hst, fun _ => ⟨r.1, r.2, rfl, length_of_put_fits hsize⟩⟩

theorem writeStoredFieldStep_ok (config : IndexConfig) (faults : Faults)
    (table : TableID) (du : DocumentUpdater) (buffer : WriteBuffer)
    (h : (writeStoredFieldStep config faults table du buffer).2.2.ok = true) :
    (writeStoredFieldStep config faults table du buffer).1 = cleared du ∧
      (writeStoredFieldStep config faults table du buffer).2.1 =
        ⟨buffer.mutations ++ storedMutations config table du⟩ ∧
      (du.status.ok = true → du.delete = false →
        ∃ value flag, du.newDocument.serializeToBytes config.pb .storedField =
          some (value, flag) ∧ value.length < 2 ^ 32) := by
  simp only [writeStoredFieldStep, cleared] at h ⊢
  by_cases hok : du.status.ok = true
  · rw [if_pos hok] at h ⊢
    obtain ⟨hbuf, hst, hp⟩ := putStoredField_ok hok h
    rw [if_pos hok, hst]
    exact ⟨rfl, hbuf, fun _ => hp⟩
  · simp [hok, storedMutations]

theorem appendAll_ok {faults : Faults} (ms : List Mutation) :
    ∀ buffer : WriteBuffer, (appendAll faults ms buffer).2.ok = true →
      (appendAll faults ms buffer).1 = ⟨buffer.mutations ++ ms⟩ := by
  induction ms with
  | nil => intro buffer _; rw [List.append_nil]; rfl
  | cons m ms ih =>
      intro buffer h
      simp only [appendAll] at h ⊢
      by_cases hm : (buffer.append faults m).2.ok = true
      · rw [if_pos hm] at h ⊢
        rw [ih _ h, (append_ok hm).1, List.append_assoc, List.singleton_append]
      · rw [if_neg hm] at h
        exact absurd h hm

theorem writeInvertedIndexStep_ok (config : IndexConfig) (faults : Faults)
    (table : TableID) (du : DocumentUpdater) (buffer : WriteBuffer)
    (h : (writeInvertedIndexStep config faults table du buffer).2.2.ok = true) :
    (writeInvertedIndexStep config faults table du buffer).1 = id du ∧
      (writeInvertedIndexStep config faults table du buffer).2.1 =
        ⟨buffer.mutations ++ invertedMutations config table du⟩ ∧ True := by
  simp only [writeInvertedIndexStep, invertedMutations] at h ⊢
  by_cases hok : du.status.ok = true
  · rw [if_pos hok] at h
    rw [if_pos hok, if_pos hok]
    exact ⟨rfl, appendAll_ok _ _ h, trivial⟩
  · simp [hok]

/-- The updater after the doc-value stage. -/
def docValued (config : IndexConfig) (table : TableID) (du : DocumentUpdater) :
    DocumentUpdater :=
  if du.status.ok then
    { du with newDocValueDocument := newDocValue du
              status := if docValueMutations config table du = [] then du.status
                else {} }
  else du

theorem deleteOldDocValue_ok {faults : Faults} {table : TableID}
    {du : DocumentUpdater} {buffer : WriteBuffer}
    (h : (deleteOldDocValue faults table du buffer).2.ok = true) :
    (deleteOldDocValue faults table du buffer).1 =
        ⟨buffer.mutations ++ deleteOldMutations table du⟩ ∧
      (deleteOldDocValue faults table du buffer).2 =
        if deleteOldMutations table du = [] then du.status else {} := by
  simp only [deleteOldDocValue, deleteOldMutations] at h ⊢
  split at h
  · obtain ⟨hbuf, hst, -⟩ := append_ok h
    simp only [*, if_true]
    exact ⟨trivial, by simp⟩
  · simp [*]

theorem putDocValue_ok {config : IndexConfig} {faults : Faults}
    {table : TableID} {du : DocumentUpdater} {buffer : WriteBuffer}
    (hok : du.status.ok = true)
    (h : (putDocValue config faults table du buffer).2.ok = true) :
    (putDocValue config faults table du buffer).1 =
        ⟨buffer.mutations ++ docValueMutations config table du⟩ ∧
      (putDocValue config faults table du buffer).2 =
        (if docValueMutations config table du = [] then du.status else {}) ∧
      (du.delete = false → ∃ value flag,
        (newDocValue du).serializeToBytes config.pb .docValue =
          some (value, flag) ∧ (flag = true → value.length < 2 ^ 32)) := by
  simp only [putDocValue, docValueMutations, hok, if_true] at h ⊢
  cases hdel : du.delete with
  | true =>
      simp only [hdel, Bool.not_true, Bool.false_eq_true, if_false, if_true] at h ⊢
      obtain ⟨hbuf, hst⟩ := deleteOldDocValue_ok h
      exact ⟨hbuf, hst, fun hd => absurd hd Bool.noConfusion⟩
  | false =>
      simp only [hdel, Bool.not_false, if_true, Bool.false_eq_true, if_false] at h ⊢
      cases hs : (newDocValue du).serializeToBytes config.pb .docValue with
      | none => rw [hs] at h; exact absurd h Bool.false_ne_true
      | some r =>
          obtain ⟨value, flag⟩ := r
          rw [hs] at h
          cases flag with
          | true =>
              obtain ⟨hbuf, hst, hsize⟩ := append_ok h
              exact ⟨hbuf, hst,
                fun _ => ⟨value, true, rfl, fun _ => length_of_put_fits hsize⟩⟩
          | false =>
              obtain ⟨hbuf, hst⟩ := deleteOldDocValue_ok h
              exact ⟨hbuf, hst,
                fun _ => ⟨value, false, rfl, fun hf => absurd hf Bool.noConfusion⟩⟩

theorem writeDocValueStep_ok (config : IndexConfig) (faults : Faults)
    (table : TableID) (du : DocumentUpdater) (buffer : WriteBuffer)
    (h : (writeDocValueStep config faults table du buffer).2.2.ok = true) :
    (writeDocValueStep config faults table du buffer).1 =
        docValued config table du ∧
      (writeDocValueStep config faults table du buffer).2.1 =
        ⟨buffer.mutations ++ docValueMutations config table du⟩ ∧
      (du.status.ok = true → du.delete = false →
        ∃ value flag, (newDocValue du).serializeToBytes config.pb .docValue =
          some (value, flag) ∧ (flag = true → value.length < 2 ^ 32)) := by
  simp only [writeDocValueStep, docValued] at h ⊢
  by_cases hok : du.status.ok = true
  · rw [if_pos hok] at h ⊢
    have hput : (putDocValue config faults table du buffer).2.ok = true := by
      by_contra hno
      rw [if_neg hno] at h
      exact hno h
    obtain ⟨hbuf, hst, hp⟩ := putDocValue_ok hok hput
    rw [if_pos hok, hst]
    exact ⟨rfl, hbuf, fun _ => hp⟩
  · simp [hok, docValueMutations]

/-! ## The batch -/

theorem runStage_ok {r : List DocumentUpdater × WriteBuffer × SearchStatus}
    {step : DocumentUpdater → WriteBuffer →
      DocumentUpdater × WriteBuffer × SearchStatus}
    (h : (runStage r step).2.2.ok = true) :
    r.2.2.ok = true ∧ runStage r step = forEach step r.1 r.2.1 := by
  rw [runStage] at h ⊢
  split at h
  · next hr => exact ⟨hr, if_pos hr⟩
  · next hr => exact absurd h hr

theorem invertedMutations_cleared (config : IndexConfig) (table : TableID)
    (du : DocumentUpdater) :
    invertedMutations config table (cleared du) =
      invertedMutations config table du := by
  rw [invertedMutations, invertedMutations, cleared_ok, cleared]
  split
  · rfl
  · rfl

theorem docValueMutations_cleared (config : IndexConfig) (table : TableID)
    (du : DocumentUpdater) :
    docValueMutations config table (cleared du) =
      docValueMutations config table du := by
  rw [docValueMutations, docValueMutations, cleared_ok, cleared]
  split
  · rfl
  · rfl

theorem flatMap_nothing {α β : Type} (l : List α) :
    l.flatMap (fun _ => ([] : List β)) = [] := by
  rw [List.flatMap_eq_nil_iff]
  exact fun _ _ => rfl

/-- A batch that was built: its mutations, and what is known about each of its
updaters. -/
theorem buildBatch_ok {config : IndexConfig} {faults : Faults}
    {table : TableID} {documents : List DocumentUpdater} {buffer : WriteBuffer}
    (h : (buildBatch config faults table documents buffer).2.2.ok = true) :
    (buildBatch config faults table documents buffer).2.1.mutations =
        buffer.mutations ++
          batchMutations config table (documents.map (ready config)) ∧
      (buildBatch config faults table documents buffer).1 =
        documents.map (fun du =>
          docValued config table (cleared (ready config du))) ∧
      (∀ du ∈ documents, Tokenizes config du) ∧
      ∀ du ∈ documents, Writable config (ready config du) := by
  simp only [buildBatch, List.foldl_cons, List.foldl_nil] at h ⊢
  obtain ⟨h₄, e₅⟩ := runStage_ok h
  obtain ⟨h₃, e₄⟩ := runStage_ok h₄
  obtain ⟨h₂, e₃⟩ := runStage_ok h₃
  obtain ⟨h₁, e₂⟩ := runStage_ok h₂
  obtain ⟨-, e₁⟩ := runStage_ok h₁
  rw [e₅] at h ⊢
  rw [e₄] at h₄
  rw [e₃] at h₃
  rw [e₂] at h₂
  rw [e₁] at h₁
  obtain ⟨d₁, b₁, p₁⟩ := forEach_ok (tokenizeStep_ok config) _ _ h₁
  obtain ⟨d₂, b₂, -⟩ := forEach_ok mergeOldFieldStep_ok _ _ h₂
  obtain ⟨d₃, b₃, p₃⟩ :=
    forEach_ok (writeStoredFieldStep_ok config faults table) _ _ h₃
  obtain ⟨d₄, b₄, -⟩ :=
    forEach_ok (writeInvertedIndexStep_ok config faults table) _ _ h₄
  obtain ⟨d₅, b₅, p₅⟩ :=
    forEach_ok (writeDocValueStep_ok config faults table) _ _ h
  rw [← e₁] at d₁ b₁
  rw [← e₂] at d₂ b₂
  rw [← e₃] at d₃ b₃
  rw [← e₄] at d₄ b₄
  have hready : (documents.map (tokenized config)).map mergedOld =
      documents.map (ready config) := List.map_map
  rw [d₁, hready] at d₂
  rw [d₂] at d₃ b₃ p₃
  rw [d₃, List.map_id] at d₄
  rw [d₃] at b₄
  rw [d₄] at p₅
  refine ⟨?_, ?_, p₁, ?_⟩
  · rw [b₅, d₄, b₄, b₃, b₂, b₁, batchMutations]
    simp only [List.flatMap_map, invertedMutations_cleared, flatMap_nothing,
      docValueMutations_cleared, List.append_assoc, List.nil_append]
  · rw [d₅, d₄, List.map_map, List.map_map]
    rfl
  · intro du hdu
    have hmem : ready config du ∈ documents.map (ready config) :=
      List.mem_map_of_mem hdu
    refine ⟨p₃ _ hmem, fun hok hdel => ?_⟩
    have hp := p₅ _ (List.mem_map_of_mem hmem)
    rw [cleared, if_pos hok] at hp
    exact hp rfl hdel

end DocumentWriter

end Wwsearch.Ref
