import Wwsearch.Proofs.InvertedColumn
import Wwsearch.Spec.Maintenance

/-!
# Index maintenance writes the difference

`flagOf` reads both bits of a term, so a term with one bit is in one of the
two sets, and the two maps have every term of a field once
(`termChanges_nodup`). Each updater is looked at by itself. Two updaters of one
document agree if their old documents have the same terms, which is so when
both were read before the batch; otherwise the one may add what the other
deletes (`updaters_disagree`).
-/

namespace Wwsearch.Spec

open Wwsearch.Lib Wwsearch.Ref Wwsearch.Ref.DocumentWriter

variable {config : IndexConfig} {table : TableID} {du : DocumentUpdater}

/-! ## The changes of an updater -/

/-- The change that a flag stands for. -/
def changeOf (f : FieldID) (t : Bytes) (flag : UInt8) : Option TermChange :=
  if flag = 1 then some ⟨f, t, kDocumentStateOK⟩
  else if flag = 2 then some ⟨f, t, kDocumentStateDelete⟩
  else none

/-- The changes of an updater, in the order of the two maps. -/
def termChanges (config : IndexConfig) (du : DocumentUpdater) :
    List TermChange :=
  (fieldTermsOf config du).toList.flatMap fun x =>
    x.2.toList.filterMap fun y => changeOf x.1 y.1 y.2

theorem changeOf_eq_some {f : FieldID} {t : Bytes} {flag : UInt8}
    {c : TermChange} : changeOf f t flag = some c ↔
      flag = 1 ∧ c = ⟨f, t, kDocumentStateOK⟩ ∨
        flag = 2 ∧ c = ⟨f, t, kDocumentStateDelete⟩ := by
  rw [changeOf]
  by_cases h₁ : flag = 1
  · subst h₁
    simp [eq_comm]
  · by_cases h₂ : flag = 2
    · subst h₂
      simp [eq_comm]
    · simp [h₁, h₂]

theorem mem_termChanges {c : TermChange} :
    c ∈ termChanges config du ↔
      c.term ∈ newTerms config du c.fieldId \ oldTerms config du c.fieldId ∧
          c.state = kDocumentStateOK ∨
        c.term ∈ oldTerms config du c.fieldId \ newTerms config du c.fieldId ∧
          c.state = kDocumentStateDelete := by
  obtain ⟨f, t, s⟩ := c
  have hflag := flagOf_fieldTermsOf config du f t
  have hentry : ∀ {flag : UInt8}, flag ≠ 0 →
      ((∃ terms, (f, terms) ∈ (fieldTermsOf config du).toList ∧
        (t, flag) ∈ terms.toList) ↔
          flagOf (fieldTermsOf config du) f t = flag) := exists_entry_iff
  have hmem : ⟨f, t, s⟩ ∈ termChanges config du ↔
      flagOf (fieldTermsOf config du) f t = 1 ∧ s = kDocumentStateOK ∨
        flagOf (fieldTermsOf config du) f t = 2 ∧
          s = kDocumentStateDelete := by
    simp only [termChanges, List.mem_flatMap, List.mem_filterMap,
      changeOf_eq_some, TermChange.mk.injEq]
    rw [← hentry (by decide), ← hentry (by decide)]
    constructor
    · rintro ⟨⟨f', terms⟩, hf, ⟨t', flag⟩, ht, ⟨rfl, rfl, rfl, rfl⟩ |
        ⟨rfl, rfl, rfl, rfl⟩⟩
      · exact .inl ⟨⟨terms, hf, ht⟩, rfl⟩
      · exact .inr ⟨⟨terms, hf, ht⟩, rfl⟩
    · rintro (⟨⟨terms, hf, ht⟩, rfl⟩ | ⟨⟨terms, hf, ht⟩, rfl⟩)
      · exact ⟨(f, terms), hf, (t, 1), ht, .inl ⟨rfl, rfl, rfl, rfl⟩⟩
      · exact ⟨(f, terms), hf, (t, 2), ht, .inr ⟨rfl, rfl, rfl, rfl⟩⟩
  rw [hmem, hflag.1, hflag.2]
  rfl

/-- A map has each of its keys once. -/
theorem nodup_fst_toList {α β : Type} [Ord α] [Std.TransOrd α]
    [Std.LawfulEqOrd α] (m : Std.ExtTreeMap α β) :
    m.toList.Pairwise fun x y => x.1 ≠ y.1 :=
  m.distinct_keys_toList.imp fun {_ _} hne heq =>
    hne (Std.compare_eq_iff_eq.2 heq)

theorem changeOf_fieldId {f : FieldID} {t : Bytes} {flag : UInt8}
    {c : TermChange} (h : changeOf f t flag = some c) :
    c.fieldId = f ∧ c.term = t := by
  rcases changeOf_eq_some.1 h with ⟨-, rfl⟩ | ⟨-, rfl⟩
  · exact ⟨rfl, rfl⟩
  · exact ⟨rfl, rfl⟩

theorem termChanges_nodup (config : IndexConfig) (du : DocumentUpdater) :
    ((termChanges config du).map fun c => (c.fieldId, c.term)).Nodup := by
  refine List.pairwise_map.2 (List.pairwise_flatMap.2 ⟨fun x _ => ?_, ?_⟩)
  -- two terms of one field
  · refine List.pairwise_filterMap.2 ((nodup_fst_toList x.2).imp
      fun hne c hc c' hc' heq => hne ?_)
    rw [← (changeOf_fieldId hc).2, ← (changeOf_fieldId hc').2]
    exact congrArg Prod.snd heq
  · refine (nodup_fst_toList (fieldTermsOf config du)).imp
      fun hne c hc c' hc' heq => hne ?_
    obtain ⟨y, -, hy⟩ := List.mem_filterMap.1 hc
    obtain ⟨y', -, hy'⟩ := List.mem_filterMap.1 hc'
    rw [← (changeOf_fieldId hy).1, ← (changeOf_fieldId hy').1]
    exact congrArg Prod.fst heq

/-! ## The merges of an updater -/

/-- A list of one record is written and read back, whatever its id is. -/
theorem writeDocList_one (type : DocListCompressionType) (d : DocumentID)
    {s : DocumentState} (hs : s = kDocumentStateOK ∨ s = kDocumentStateDelete) :
    ∃ value, writeDocList type [⟨d, s⟩] = some (true, value) ∧
      docListOf value = some [⟨d, s⟩] := by
  by_cases hd : d = 0
  · -- zero is not an id, but it is written like one
    subst hd
    rcases hs with rfl | rfl
    · cases type
      · exact ⟨_, rfl, by decide⟩
      · exact ⟨_, rfl, by decide⟩
    · cases type
      · exact ⟨_, rfl, by decide⟩
      · exact ⟨_, rfl, by decide⟩
  · obtain ⟨value, hvalue⟩ := exists_writeDocList_singleton hd hs type
    obtain ⟨hstores, hlist⟩ := stores_singleton hd hs hvalue
    exact ⟨value, hvalue, hstores.decodes.trans (congrArg some hlist)⟩

/-- The merge of a change. -/
def mergeOf (config : IndexConfig) (table : TableID) (d : DocumentID)
    (c : TermChange) : Mutation :=
  .merge .invertedIndexColumn (encodeInvertedKey table c.fieldId c.term)
    ((writeDocList config.compressionType [⟨d, c.state⟩]).elim [] (·.2))

theorem termMutation_eq (config : IndexConfig) (table : TableID)
    (d : DocumentID) (f : FieldID) (t : Bytes) (flag : UInt8) :
    termMutation config table d f t flag =
      (changeOf f t flag).map (mergeOf config table d) := by
  cases hc : changeOf f t flag with
  | none =>
      rw [termMutation, if_neg]
      · rfl
      · rintro (rfl | rfl)
        · cases hc
        · cases hc
  | some c =>
      obtain ⟨flag, rfl⟩ | ⟨flag, rfl⟩ := changeOf_eq_some.1 hc
      · obtain ⟨value, hw, -⟩ := writeDocList_one config.compressionType d
          (.inl (rfl : kDocumentStateOK = kDocumentStateOK))
        rw [termMutation, flag]
        simp [hw, mergeOf]
      · obtain ⟨value, hw, -⟩ := writeDocList_one config.compressionType d
          (.inr (rfl : kDocumentStateDelete = kDocumentStateDelete))
        rw [termMutation, flag]
        simp [hw, mergeOf]

theorem termMutations_eq (config : IndexConfig) (table : TableID)
    (du : DocumentUpdater) : termMutations config table du =
      (termChanges config du).map
        (mergeOf config table du.newDocument.documentId) := by
  rw [termMutations, termChanges, List.map_flatMap]
  refine List.flatMap_congr fun x _ => ?_
  rw [List.map_filterMap]
  exact List.filterMap_congr fun y _ => termMutation_eq config table _ _ _ _

theorem difference_termMutations (config : IndexConfig) (table : TableID)
    (du : DocumentUpdater) :
    Difference config table du (termMutations config table du)
      (termChanges config du) := by
  have hstate : ∀ c ∈ termChanges config du,
      c.state = kDocumentStateOK ∨ c.state = kDocumentStateDelete :=
    fun c hc => (mem_termChanges.1 hc).imp (·.2) (·.2)
  constructor
  · exact termChanges_nodup config du
  · intro f t
    rw [Set.mem_symmDiff]
    constructor
    · rintro ⟨s, hs⟩
      exact (mem_termChanges.1 hs).imp (·.1) (·.1)
    · rintro (h | h)
      · exact ⟨_, mem_termChanges.2 (.inl ⟨h, rfl⟩)⟩
      · exact ⟨_, mem_termChanges.2 (.inr ⟨h, rfl⟩)⟩
  · intro c hc hnew
    rcases mem_termChanges.1 hc with ⟨-, hs⟩ | ⟨hdiff, -⟩
    · exact hs
    · exact absurd hnew hdiff.2
  · intro c hc hold
    rcases mem_termChanges.1 hc with ⟨hdiff, -⟩ | ⟨-, hs⟩
    · exact absurd hold hdiff.2
    · exact hs
  · rw [termMutations_eq, List.forall₂_map_right_iff, List.forall₂_same]
    intro c hc
    obtain ⟨value, hw, hread⟩ := writeDocList_one config.compressionType
      du.newDocument.documentId (hstate c hc)
    exact ⟨value, by rw [mergeOf, hw]; rfl, hw, hread⟩

theorem Difference.of_unchanged {ms : List Mutation} {changes : List TermChange}
    (h : Difference config table du ms changes)
    (hsame : ∀ f, newTerms config du f = oldTerms config du f) : ms = [] := by
  have hnone : changes = [] := by
    refine List.eq_nil_iff_forall_not_mem.2 fun c hc => ?_
    have hmem := (h.terms c.fieldId c.term).1 ⟨c.state, hc⟩
    rw [hsame, symmDiff_self] at hmem
    exact hmem
  have hmerges := h.merges
  rw [hnone] at hmerges
  exact List.forall₂_nil_left_iff.1 hmerges

/-! ## The stage -/

theorem appendAll_appended (faults : Faults) (ms : List Mutation) :
    ∀ buffer, Appended faults buffer ms (appendAll faults ms buffer) := by
  induction ms with
  | nil => exact fun buffer => .inl ⟨(List.append_nil _).symm, rfl⟩
  | cons m ms ih =>
      intro buffer
      rw [appendAll]
      by_cases hm : (buffer.append faults m).2.ok = true
      · have hbuffer := (append_ok hm).1
        simp only [hm, if_true]
        rw [hbuffer]
        rcases ih ⟨buffer.mutations ++ [m]⟩ with ⟨hall, hok⟩ |
          ⟨written, m', rest, rfl, hwritten, hstatus⟩
        · refine .inl ⟨?_, hok⟩
          rw [hall, List.append_assoc]
          rfl
        · refine .inr ⟨m :: written, m', rest, rfl, ?_, hstatus⟩
          rw [hwritten, List.append_assoc]
          rfl
      · have hsame : (buffer.append faults m).1 = buffer := by
          rw [WriteBuffer.append] at hm ⊢
          split
          · rfl
          · next hnone =>
              rw [hnone] at hm
              exact absurd rfl hm
        simp only [hm, if_false, Bool.false_eq_true]
        refine .inr ⟨[], m, ms, rfl, ?_, ?_, Bool.eq_false_iff.2 hm⟩
        · rw [hsame, List.append_nil]
        · rw [hsame]

theorem appendAll_append (faults : Faults) (ms ms' : List Mutation) :
    ∀ buffer, appendAll faults (ms ++ ms') buffer =
      if (appendAll faults ms buffer).2.ok then
        appendAll faults ms' (appendAll faults ms buffer).1
      else appendAll faults ms buffer := by
  induction ms with
  | nil => exact fun buffer => rfl
  | cons m ms ih =>
      intro buffer
      rw [List.cons_append, appendAll, appendAll]
      by_cases hm : (buffer.append faults m).2.ok = true
      · simp only [hm, if_true]
        exact ih _
      · simp only [hm, if_false, Bool.false_eq_true]

/-- The loop over the updaters is one loop over their merges. -/
theorem forEach_writeInvertedIndexStep (config : IndexConfig) (faults : Faults)
    (table : TableID) {documents : List DocumentUpdater}
    (hok : ∀ du ∈ documents, du.status.ok = true) :
    ∀ buffer, forEach (writeInvertedIndexStep config faults table) documents
        buffer =
      (documents, appendAll faults
        (documents.flatMap (termMutations config table)) buffer) := by
  induction documents with
  | nil => exact fun buffer => rfl
  | cons du rest ih =>
      intro buffer
      have hdu := hok du List.mem_cons_self
      have hrest := ih fun x hx => hok x (List.mem_cons_of_mem du hx)
      simp only [forEach, writeInvertedIndexStep, hdu, if_true,
        List.flatMap_cons, appendAll_append]
      by_cases hm : (appendAll faults (termMutations config table du)
          buffer).2.ok = true
      · simp only [hm, if_true]
        rw [hrest]
      · simp only [hm, if_false, Bool.false_eq_true]

theorem agree_of_sameBefore {du₁ du₂ : DocumentUpdater}
    (h : ∀ f, oldTerms config du₁ f = oldTerms config du₂ f) :
    Agree (termChanges config du₁) (termChanges config du₂) := by
  rintro ⟨f, t, s₁⟩ hc₁ ⟨_, _, s₂⟩ hc₂ rfl rfl
  have hold : t ∈ oldTerms config du₁ f ↔ t ∈ oldTerms config du₂ f := by
    rw [h f]
  rcases mem_termChanges.1 hc₁ with ⟨hin₁, hs₁⟩ | ⟨hin₁, hs₁⟩
  · rcases mem_termChanges.1 hc₂ with ⟨-, hs₂⟩ | ⟨hin₂, -⟩
    · exact hs₁.trans hs₂.symm
    · exact absurd (hold.2 hin₂.1) hin₁.2
  · rcases mem_termChanges.1 hc₂ with ⟨hin₂, -⟩ | ⟨-, hs₂⟩
    · exact absurd (hold.1 hin₁.1) hin₂.2
    · exact hs₁.trans hs₂.symm

/-- **Index maintenance writes the difference**: for every updater one merge
for each term that is on one side only, and nothing for the others. Updaters
of one document with the same terms before the write do not contradict each
other. -/
theorem writeInvertedIndex_difference (config : IndexConfig) (faults : Faults)
    (table : TableID) (buffer : WriteBuffer) (documents : List DocumentUpdater)
    (hok : ∀ du ∈ documents, du.status.ok = true) :
    ∃ (merges : DocumentUpdater → List Mutation)
      (changes : DocumentUpdater → List TermChange),
      (∀ du ∈ documents, Difference config table du (merges du) (changes du)) ∧
      Appended faults buffer (documents.flatMap merges)
        (forEach (writeInvertedIndexStep config faults table) documents
          buffer).2 ∧
      (∀ du ∈ documents, (∀ f, newTerms config du f = oldTerms config du f) →
        merges du = []) ∧
      ∀ du₁ ∈ documents, ∀ du₂ ∈ documents,
        du₁.newDocument.documentId = du₂.newDocument.documentId →
        (∀ f, oldTerms config du₁ f = oldTerms config du₂ f) →
        Agree (changes du₁) (changes du₂) := by
  refine ⟨termMutations config table, termChanges config, fun du _ =>
    difference_termMutations config table du, ?_, fun du _ =>
    (difference_termMutations config table du).of_unchanged,
    fun du₁ _ du₂ _ _ => agree_of_sameBefore⟩
  rw [forEach_writeInvertedIndexStep config faults table hok]
  exact appendAll_appended faults _ buffer

/-! ## Two updaters of one document -/

/-- A field with the terms. -/
def termField (terms : List Bytes) : IndexField where
  fieldId := 3
  flag := ⟨16⟩
  fieldType := kStringIndexField
  terms := Std.ExtTreeSet.ofList terms

/-- Document 5 gets the term `a`, and keeps `b`. -/
def addsTerm : DocumentUpdater where
  newDocument := { documentId := 5, fields := [termField [[97], [98]]] }
  oldDocument := { documentId := 5, fields := [termField [[98]]] }

/-- Document 5 had the term `a`. -/
def dropsTerm : DocumentUpdater where
  newDocument := { documentId := 5 }
  oldDocument := { documentId := 5, fields := [termField [[97]]] }

theorem writeInvertedIndex_difference_addsTerm :
    ∃ (merges : DocumentUpdater → List Mutation)
      (changes : DocumentUpdater → List TermChange),
      (∀ du ∈ [addsTerm], Difference spaceConfig ⟨1, 2⟩ du (merges du)
        (changes du)) ∧
      Appended {} {} ([addsTerm].flatMap merges)
        (forEach (writeInvertedIndexStep spaceConfig {} ⟨1, 2⟩) [addsTerm]
          {}).2 ∧
      (∀ du ∈ [addsTerm], (∀ f, newTerms spaceConfig du f =
        oldTerms spaceConfig du f) → merges du = []) ∧
      ∀ du₁ ∈ [addsTerm], ∀ du₂ ∈ [addsTerm],
        du₁.newDocument.documentId = du₂.newDocument.documentId →
        (∀ f, oldTerms spaceConfig du₁ f = oldTerms spaceConfig du₂ f) →
        Agree (changes du₁) (changes du₂) :=
  writeInvertedIndex_difference spaceConfig {} ⟨1, 2⟩ {} [addsTerm]
    fun du hdu => by rw [List.mem_singleton.1 hdu]; rfl

/-- The second updater deletes what the first one adds, for the same document
under the same key. -/
theorem updaters_disagree :
    ∃ value₁ value₂,
      (forEach (writeInvertedIndexStep spaceConfig {} ⟨1, 2⟩)
        [addsTerm, dropsTerm] {}).2 =
        (⟨[.merge .invertedIndexColumn (encodeInvertedKey ⟨1, 2⟩ 3 [97]) value₁,
          .merge .invertedIndexColumn (encodeInvertedKey ⟨1, 2⟩ 3 [97])
            value₂]⟩, {}) ∧
      docListOf value₁ = some [⟨5, kDocumentStateOK⟩] ∧
      docListOf value₂ = some [⟨5, kDocumentStateDelete⟩] :=
  ⟨[0, 5, 0, 0, 0, 0, 0, 0, 0, 0], [0, 5, 0, 0, 0, 0, 0, 0, 0, 1],
    by decide +kernel, by decide, by decide⟩

end Wwsearch.Spec
