import Wwsearch.Spec.Index

/-!
# What comes back of a field

A field that was written to a record and read again is `reread`: its id, flags
and type are the ones it had, its suffix length is the one that takes effect,
and its value and its terms are there only as far as the record carries them.
Two facts follow for whoever writes from a document that was read: it is
indexed under the terms it was indexed under before, as long as the terms are
stored (`expandedTerms_reread`), and a record of it decodes to the fields as
they come back (`deSerializeFromByte_serializeToBytes`).
-/

namespace Wwsearch.Ref

open Wwsearch.Lib

namespace IndexField

/-- A field of a record: written for `target`, and decoded. -/
def reread (target : EncodeTarget) (field : IndexField) : IndexField :=
  decodeFromStoreField (field.encodeToStoreField target)

variable (target : EncodeTarget) (field : IndexField)

@[simp] theorem reread_fieldId : (field.reread target).fieldId = field.fieldId :=
  UInt8.toUInt8_toUInt32 field.fieldId

@[simp] theorem reread_flag : (field.reread target).flag = field.flag :=
  congrArg IndexFieldFlag.mk (UInt8.toUInt8_toUInt32 field.flag.flag)

@[simp] theorem reread_fieldType :
    (field.reread target).fieldType = field.fieldType := rfl

theorem toUInt8_toUInt32_flag :
    (⟨field.flag.flag.toUInt32.toUInt8⟩ : IndexFieldFlag) = field.flag :=
  congrArg IndexFieldFlag.mk (UInt8.toUInt8_toUInt32 field.flag.flag)

theorem reread_suffixLen : (field.reread target).suffixLen =
    if field.flag.suffixBuild then field.effectiveSuffixLen else 0 := by
  simp only [reread, decodeFromStoreField, encodeToStoreField,
    toUInt8_toUInt32_flag, effectiveSuffixLen]
  by_cases hlen : field.suffixLen = 0
  · simp [hlen]
  · simp [hlen]

theorem ofList_toList (terms : TermSet) :
    Std.ExtTreeSet.ofList terms.toList = terms := by
  refine Std.ExtTreeSet.ext_mem fun t => ?_
  rw [Std.ExtTreeSet.mem_ofList, List.contains_iff_mem,
    Std.ExtTreeSet.mem_toList]

theorem reread_terms : (field.reread .storedField).terms =
    if field.flag.notStoreInvertTerm then ∅ else field.terms := by
  simp only [reread, decodeFromStoreField, encodeToStoreField]
  by_cases h : field.flag.notStoreInvertTerm = true
  · simp [h]
  · simp [h, ofList_toList]

/-- The flag that puts a value into a record of the column. -/
def carries (field : IndexField) : EncodeTarget → Bool
  | .storedField => field.flag.storedField
  | .docValue => field.flag.docValue

/-- A value is looked for wherever one can have been written. -/
theorem needValue_of_carries (h : field.carries target = true) :
    (field.flag.storedField || field.flag.docValue) = true := by
  cases target with
  | storedField => exact Bool.or_eq_true_iff.2 (.inl h)
  | docValue => exact Bool.or_eq_true_iff.2 (.inr h)

theorem getD_carried {α : Type} {need carried : Bool} {P : Prop} [Decidable P]
    (h : carried = true → need = true) (v default : α) :
    (if need ∧ P then (if carried ∧ P then some v else none).getD default
      else default) = if carried ∧ P then v else default := by
  by_cases hc : carried = true ∧ P
  · rw [if_pos ⟨h hc.1, hc.2⟩, if_pos hc, if_pos hc, Option.getD_some]
  · rw [if_neg hc, if_neg hc, Option.getD_none, ite_self]

theorem reread_stringValue : (field.reread target).stringValue =
    if field.carries target ∧ field.fieldType = kStringIndexField then
      field.stringValue
    else [] := by
  have henc : (field.encodeToStoreField target).stringValue =
      if field.carries target ∧ field.fieldType = kStringIndexField then
        some field.stringValue
      else none := by
    cases target <;> rfl
  rw [reread, decodeFromStoreField, henc]
  simp only [encodeToStoreField, toUInt8_toUInt32_flag]
  exact getD_carried (needValue_of_carries target field) _ _

theorem reread_numericValue : (field.reread target).numericValue =
    if field.carries target ∧ (field.fieldType = kUint32IndexField ∨
        field.fieldType = kUint64IndexField) then
      field.numericValue
    else 0 := by
  have henc : (field.encodeToStoreField target).numericValue =
      if field.carries target ∧ (field.fieldType = kUint32IndexField ∨
          field.fieldType = kUint64IndexField) then
        some field.numericValue
      else none := by
    cases target <;> rfl
  rw [reread, decodeFromStoreField, henc]
  simp only [encodeToStoreField, toUInt8_toUInt32_flag]
  exact getD_carried (needValue_of_carries target field) _ _

theorem effectiveSuffixLen_reread (h : field.flag.suffixBuild = true) :
    (field.reread target).effectiveSuffixLen = field.effectiveSuffixLen := by
  rw [effectiveSuffixLen, reread_suffixLen, if_pos h]
  refine if_pos ?_
  rw [effectiveSuffixLen]
  split
  · next hlen => exact hlen
  · decide

end IndexField

namespace DocumentWriter

/-- The suffixes of a stored term do not change when the field is read. -/
theorem expandTerm_reread (config : IndexConfig) (target : EncodeTarget)
    (field : IndexField) (term : Bytes) :
    expandTerm config (field.reread target) term =
      expandTerm config field term := by
  simp only [expandTerm, IndexField.reread_flag, IndexField.reread_fieldType]
  split
  · next h =>
      have hlen := IndexField.effectiveSuffixLen_reread target field h.1
      simp only [IndexField.effectiveSuffixLen] at hlen
      rw [hlen]
  · rfl

theorem expandedTerms_reread (config : IndexConfig) {field : IndexField}
    (h : field.flag.notStoreInvertTerm = false) :
    expandedTerms config (field.reread .storedField) =
      expandedTerms config field := by
  have hterms : (field.reread .storedField).terms = field.terms := by
    rw [IndexField.reread_terms, h]
    rfl
  rw [expandedTerms, expandedTerms, hterms,
    funext (expandTerm_reread config .storedField field)]

end DocumentWriter

/-! ## Records -/

namespace Document

/-- The fields that a record of the column has. -/
def recordFields (doc : Document) : EncodeTarget → List IndexField
  | .storedField => doc.fields
  | .docValue => doc.fields.filter (·.flag.docValue)

theorem encodeFields_eq (doc : Document) (target : EncodeTarget) :
    doc.encodeFields target =
      (doc.recordFields target).map (·.encodeToStoreField target) := by
  cases target with
  | storedField => rfl
  | docValue => rfl

/-- The document as a record of it is decoded. -/
def reread (target : EncodeTarget) (doc : Document) : Document :=
  { documentId := doc.documentId
    fields := (doc.recordFields target).map (·.reread target) }

theorem serializeToBytes_eq_some {pb : StorePb} {doc : Document}
    {target : EncodeTarget} {value : Bytes} {flag : Bool}
    (h : doc.serializeToBytes pb target = some (value, flag)) :
    pb.serialize ⟨doc.documentId, doc.encodeFields target⟩ = some value ∧
      flag = !(doc.recordFields target).isEmpty := by
  simp only [serializeToBytes, Option.bind_eq_bind, Option.bind_eq_some_iff] at h
  obtain ⟨bytes, hser, hpair⟩ := h
  obtain ⟨rfl, rfl⟩ := Prod.mk.inj (Option.some.inj hpair)
  refine ⟨hser, ?_⟩
  rw [encodeFields_eq, List.isEmpty_map]

theorem deSerializeFromByte_serializeToBytes {pb : StorePb} {doc : Document}
    {target : EncodeTarget} {value : Bytes} {flag : Bool}
    (h : doc.serializeToBytes pb target = some (value, flag))
    (hlen : value.length < 2 ^ 32) :
    deSerializeFromByte pb {} value = some (doc.reread target) := by
  have htake : value.take value.length.toUInt32.toNat = value := by
    rw [Nat.toUInt32, UInt32.toNat_ofNat_of_lt' hlen, List.take_length]
  rw [deSerializeFromByte, htake,
    pb.parse_serialize (serializeToBytes_eq_some h).1, encodeFields_eq]
  simp only [reread, Option.bind_eq_bind, Option.bind_some, List.nil_append,
    List.map_map]
  rfl

end Document

end Wwsearch.Ref
