import Wwsearch.Proofs.Keys
import Wwsearch.Spec.Batch

/-!
# The merges of one document

`WriteInvertedIndex` collects the terms of both sides in one map, with a bit
for each side, and then writes a merge for every term that has exactly one of
the two bits. `flagOf` reads the map; a fold over a document's fields sets one
bit at the terms the document is indexed under and leaves the rest alone
(`flagOf_matchFields`). So the merges are the difference of the two sides:
`mem_termMutations`.
-/

namespace Wwsearch.Ref.DocumentWriter

open Wwsearch.Lib Wwsearch.Spec

/-- The bits of a term, zero for a term the map does not have. -/
def flagOf (fieldTerms : FieldTerms) (f : FieldID) (t : Bytes) : UInt8 :=
  (((fieldTerms[f]?).getD ∅)[t]?).getD 0

theorem flagOf_empty (f : FieldID) (t : Bytes) : flagOf ∅ f t = 0 := by
  rw [flagOf, Std.ExtTreeMap.getElem?_empty, Option.getD_none,
    Std.ExtTreeMap.getElem?_empty, Option.getD_none]

theorem flagOf_matchTerm (f f' : FieldID) (bit : UInt8) (m : FieldTerms)
    (t t' : Bytes) : flagOf (matchTerm f bit m t) f' t' =
      if f = f' ∧ t = t' then flagOf m f' t' ||| bit else flagOf m f' t' := by
  by_cases hf : f = f'
  · subst hf
    simp only [flagOf, matchTerm, Std.ExtTreeMap.getElem?_insert_self,
      Option.getD_some, Std.ExtTreeMap.getElem?_insert, Std.compare_eq_iff_eq,
      true_and]
    by_cases ht : t = t'
    · rw [if_pos ht, if_pos ht, ht, Option.getD_some]
    · rw [if_neg ht, if_neg ht]
  · simp only [flagOf, matchTerm, Std.ExtTreeMap.getElem?_insert,
      Std.compare_eq_iff_eq, hf, false_and, if_false]

theorem or_self_bit (flag bit : UInt8) : flag ||| bit ||| bit = flag ||| bit := by
  rw [UInt8.or_assoc, UInt8.or_self]

/-- The terms of one field. -/
theorem flagOf_foldl_matchTerm (f f' : FieldID) (bit : UInt8) (t' : Bytes)
    (terms : List Bytes) : ∀ m : FieldTerms,
    flagOf (terms.foldl (matchTerm f bit) m) f' t' =
      if f = f' ∧ t' ∈ terms then flagOf m f' t' ||| bit
      else flagOf m f' t' := by
  induction terms with
  | nil => intro m; simp
  | cons t terms ih =>
      intro m
      rw [List.foldl_cons, ih, flagOf_matchTerm]
      by_cases hf : f = f'
      · by_cases ht : t = t'
        · by_cases hmem : t' ∈ terms
          · simp [hf, ht, hmem, or_self_bit]
          · simp [hf, ht, hmem]
        · simp [hf, ht, Ne.symm ht]
      · simp [hf]

theorem flagOf_matchFields (config : IndexConfig) (bit : UInt8) (f : FieldID)
    (t : Bytes) (fields : List IndexField) : ∀ m : FieldTerms,
    flagOf (matchFields config bit fields m) f t =
      if Indexed config fields f t then flagOf m f t ||| bit
      else flagOf m f t := by
  induction fields with
  | nil => intro m; simp [Indexed, matchFields]
  | cons field fields ih =>
      intro m
      have hcons : Indexed config (field :: fields) f t ↔
          (field.fieldId = f ∧ t ∈ expandedTerms config field) ∨
            Indexed config fields f t := by simp [Indexed]
      rw [matchFields, List.foldl_cons]
      refine (ih _).trans ?_
      rw [flagOf_foldl_matchTerm]
      by_cases hhead : field.fieldId = f ∧ t ∈ expandedTerms config field
      · by_cases htail : Indexed config fields f t
        · simp only [hcons, hhead, htail, and_self, or_self, if_true,
            or_self_bit]
        · simp only [hcons, hhead, htail, and_self, or_false, if_true, if_false]
      · simp only [hcons, hhead, if_false, false_or]

theorem flagOf_fieldTermsOf (config : IndexConfig) (du : DocumentUpdater)
    (f : FieldID) (t : Bytes) :
    (flagOf (fieldTermsOf config du) f t = 1 ↔
      NewTerm config du f t ∧ ¬ OldTerm config du f t) ∧
    (flagOf (fieldTermsOf config du) f t = 2 ↔
      OldTerm config du f t ∧ ¬ NewTerm config du f t) := by
  have hnew : flagOf (if !du.delete then
      matchFields config 1 du.newDocument.fields ∅ else ∅) f t =
        if du.delete = false ∧ Indexed config du.newDocument.fields f t then 1
        else 0 := by
    cases hdel : du.delete with
    | true =>
        rw [if_neg (by simp), if_neg (by simp), flagOf_empty]
    | false =>
        rw [if_pos (by simp), flagOf_matchFields, flagOf_empty]
        simp
  rw [fieldTermsOf, flagOf_matchFields, hnew]
  by_cases hn : du.delete = false ∧ Indexed config du.newDocument.fields f t
  · by_cases ho : Indexed config du.oldDocument.fields f t
    · simp only [NewTerm, OldTerm, hn, ho, if_true, and_self, not_true,
        and_false, iff_false]
      decide
    · simp [NewTerm, OldTerm, hn, ho]
  · by_cases ho : Indexed config du.oldDocument.fields f t
    · simp [NewTerm, OldTerm, hn, ho]
    · simp [NewTerm, OldTerm, hn, ho]

/-- An entry of the two maps is what `flagOf` reads. -/
theorem exists_entry_iff {m : FieldTerms} {f : FieldID} {t : Bytes}
    {flag : UInt8} (hflag : flag ≠ 0) :
    (∃ terms, (f, terms) ∈ m.toList ∧ (t, flag) ∈ terms.toList) ↔
      flagOf m f t = flag := by
  constructor
  · rintro ⟨terms, hf, ht⟩
    rw [Std.ExtTreeMap.mem_toList_iff_getElem?_eq_some] at hf ht
    rw [flagOf, hf, Option.getD_some, ht, Option.getD_some]
  · intro h
    rw [flagOf] at h
    cases hf : m[f]? with
    | none =>
        rw [hf, Option.getD_none, Std.ExtTreeMap.getElem?_empty,
          Option.getD_none] at h
        exact absurd h.symm hflag
    | some terms =>
        rw [hf, Option.getD_some] at h
        cases ht : terms[t]? with
        | none =>
            rw [ht, Option.getD_none] at h
            exact absurd h.symm hflag
        | some flag' =>
            rw [ht, Option.getD_some] at h
            subst h
            exact ⟨terms, Std.ExtTreeMap.mem_toList_iff_getElem?_eq_some.2 hf,
              Std.ExtTreeMap.mem_toList_iff_getElem?_eq_some.2 ht⟩

theorem mem_termMutation {config : IndexConfig} {table : TableID}
    {d : DocumentID} {f : FieldID} {t : Bytes} {flag : UInt8} {m : Mutation} :
    termMutation config table d f t flag = some m ↔
      ∃ state ok value,
        (flag = 1 ∧ state = kDocumentStateOK ∨
          flag = 2 ∧ state = kDocumentStateDelete) ∧
        writeDocList config.compressionType [⟨d, state⟩] = some (ok, value) ∧
        m = .merge .invertedIndexColumn (encodeInvertedKey table f t) value := by
  constructor
  · intro h
    rw [termMutation] at h
    split at h
    · next hflag =>
        dsimp only at h
        split at h
        · next ok value hw =>
            refine ⟨_, ok, value, ?_, hw, (Option.some.inj h).symm⟩
            rcases hflag with rfl | rfl
            · exact .inl ⟨rfl, rfl⟩
            · exact .inr ⟨rfl, rfl⟩
        · cases h
    · cases h
  · rintro ⟨state, ok, value, hflag, hw, rfl⟩
    rcases hflag with ⟨rfl, rfl⟩ | ⟨rfl, rfl⟩
    · simp [termMutation, hw]
    · simp [termMutation, hw]

/-- The merges of an updater: a record OK for every term that only the new
side has, and a record Delete for every term that only the old side has. -/
theorem mem_termMutations {config : IndexConfig} {table : TableID}
    {du : DocumentUpdater} {m : Mutation} :
    m ∈ termMutations config table du ↔ ∃ f t state ok value,
      (NewTerm config du f t ∧ ¬ OldTerm config du f t ∧
          state = kDocumentStateOK ∨
        OldTerm config du f t ∧ ¬ NewTerm config du f t ∧
          state = kDocumentStateDelete) ∧
      writeDocList config.compressionType
        [⟨du.newDocument.documentId, state⟩] = some (ok, value) ∧
      m = .merge .invertedIndexColumn (encodeInvertedKey table f t) value := by
  simp only [termMutations, List.mem_flatMap, List.mem_filterMap, Prod.exists,
    mem_termMutation]
  constructor
  · rintro ⟨f, terms, hf, t, flag, ht, state, ok, value, hflag, hw, rfl⟩
    have hne : flag ≠ 0 := by
      rcases hflag with ⟨rfl, -⟩ | ⟨rfl, -⟩
      · decide
      · decide
    have hread := (exists_entry_iff hne).1 ⟨terms, hf, ht⟩
    refine ⟨f, t, state, ok, value, ?_, hw, rfl⟩
    rcases hflag with ⟨rfl, rfl⟩ | ⟨rfl, rfl⟩
    · obtain ⟨hnew, hold⟩ := (flagOf_fieldTermsOf config du f t).1.1 hread
      exact .inl ⟨hnew, hold, rfl⟩
    · obtain ⟨hold, hnew⟩ := (flagOf_fieldTermsOf config du f t).2.1 hread
      exact .inr ⟨hold, hnew, rfl⟩
  · rintro ⟨f, t, state, ok, value, ⟨hnew, hold, rfl⟩ | ⟨hold, hnew, rfl⟩, hw, rfl⟩
    · obtain ⟨terms, hf, ht⟩ := (exists_entry_iff (by decide)).2
        ((flagOf_fieldTermsOf config du f t).1.2 ⟨hnew, hold⟩)
      exact ⟨f, terms, hf, t, 1, ht, _, ok, value, .inl ⟨rfl, rfl⟩, hw, rfl⟩
    · obtain ⟨terms, hf, ht⟩ := (exists_entry_iff (by decide)).2
        ((flagOf_fieldTermsOf config du f t).2.2 ⟨hold, hnew⟩)
      exact ⟨f, terms, hf, t, 2, ht, _, ok, value, .inr ⟨rfl, rfl⟩, hw, rfl⟩

end Wwsearch.Ref.DocumentWriter
