import Wwsearch.Lib.Wire
import Wwsearch.Ref.IndexWriter

/-!
# The stored message on the wire (`search_store.proto`)

`StorePb` asks two things of a serializer. This is the one the library
generates for `search_store.proto`, read back by a reader that expects the
fields where the serializer puts them, and it meets both (`storeWire`). A
message that would not fit the library's `int` sizes is refused.
-/

namespace Wwsearch.Ref

open Wwsearch.Lib

namespace StoreWire

/-- One `StoreIndexField`, in the order of its field numbers. -/
def fieldBytes (field : StoreIndexField) : Bytes :=
  Wire.varint 8 field.fieldId.toNat ++
    (Wire.varint 16 field.fieldFlag.toNat ++
    (Wire.varint 24 field.fieldType.toNat ++
    ((field.numericValue.map UInt64.toNat).toList.flatMap (Wire.varint 32) ++
    (field.stringValue.toList.flatMap (Wire.bytes 42) ++
    (field.terms.flatMap (Wire.bytes 50) ++
    (field.suffixLen.map UInt32.toNat).toList.flatMap (Wire.varint 80))))))

def messageBytes (message : StoreDocument) : Bytes :=
  Wire.varint 8 message.documentId.toNat ++
    message.fields.flatMap (fun field => Wire.bytes 18 (fieldBytes field))

def readField (input : Bytes) : Option StoreIndexField := do
  let (fieldId, input) ← Wire.readVarint 8 input
  let (fieldFlag, input) ← Wire.readVarint 16 input
  let (fieldType, input) ← Wire.readVarint 24 input
  let (numericValue, input) ←
    Wire.readOptional 32 (Wire.readVarint 32) input
  let (stringValue, input) ← Wire.readOptional 42 (Wire.readBytes 42) input
  let (terms, input) ←
    Wire.readRepeated 50 (Wire.readBytes 50) input.length input
  let (suffixLen, input) ← Wire.readOptional 80 (Wire.readVarint 80) input
  if input = [] then
    some { fieldId := fieldId.toUInt32, fieldFlag := fieldFlag.toUInt32
           fieldType := fieldType.toUInt32
           numericValue := numericValue.map Nat.toUInt64, stringValue, terms
           suffixLen := suffixLen.map Nat.toUInt32 }
  else none

def readEmbedded (input : Bytes) : Option (StoreIndexField × Bytes) := do
  let (body, rest) ← Wire.readBytes 18 input
  let field ← readField body
  some (field, rest)

def readMessage (input : Bytes) : Option StoreDocument := do
  let (documentId, input) ← Wire.readVarint 8 input
  let (fields, input) ←
    Wire.readRepeated 18 readEmbedded input.length input
  if input = [] then some { documentId := documentId.toUInt64, fields }
  else none

theorem toUInt64_toNat (v : UInt64) : v.toNat.toUInt64 = v :=
  UInt64.ofNat_toNat

theorem toUInt32_toNat (v : UInt32) : v.toNat.toUInt32 = v :=
  UInt32.ofNat_toNat

theorem map_toUInt64_toNat (o : Option UInt64) :
    (o.map UInt64.toNat).map Nat.toUInt64 = o := by
  rw [Option.map_map]
  cases o with
  | none => rfl
  | some v => exact congrArg some (toUInt64_toNat v)

theorem map_toUInt32_toNat (o : Option UInt32) :
    (o.map UInt32.toNat).map Nat.toUInt32 = o := by
  rw [Option.map_map]
  cases o with
  | none => rfl
  | some v => exact congrArg some (toUInt32_toNat v)

theorem lt_of_uint32 (v : UInt32) : v.toNat < 2 ^ 64 :=
  v.toNat_lt.trans (by decide)

theorem readField_fieldBytes (field : StoreIndexField)
    (hstr : ∀ s ∈ field.stringValue, s.length < 2 ^ 64)
    (hterms : ∀ t ∈ field.terms, t.length < 2 ^ 64) :
    readField (fieldBytes field) = some field := by
  -- what follows a field never starts with its tag
  have hsuffix : ∀ tag : UInt8, tag ≠ 80 → ((field.suffixLen.map
      UInt32.toNat).toList.flatMap (Wire.varint 80)).head? ≠ some tag := by
    intro tag htag
    cases field.suffixLen <;> simp [Wire.varint, htag.symm]
  have hterm : ∀ tag : UInt8, tag ≠ 80 → tag ≠ 50 →
      (field.terms.flatMap (Wire.bytes 50) ++ (field.suffixLen.map
        UInt32.toNat).toList.flatMap (Wire.varint 80)).head? ≠ some tag := by
    intro tag h80 h50
    cases field.terms with
    | nil => exact hsuffix tag h80
    | cons t ts => simp [Wire.bytes, h50.symm]
  have hstring : ∀ tag : UInt8, tag ≠ 80 → tag ≠ 50 → tag ≠ 42 →
      (field.stringValue.toList.flatMap (Wire.bytes 42) ++
        (field.terms.flatMap (Wire.bytes 50) ++ (field.suffixLen.map
          UInt32.toNat).toList.flatMap (Wire.varint 80))).head? ≠ some tag := by
    intro tag h80 h50 h42
    cases field.stringValue with
    | none => exact hterm tag h80 h50
    | some s => simp [Wire.bytes, h42.symm]
  have hnum : ∀ v ∈ field.numericValue.map UInt64.toNat, v < 2 ^ 64 := by
    intro v hv
    obtain ⟨w, -, rfl⟩ := Option.mem_map.1 hv
    exact w.toNat_lt
  have hlen : ∀ v ∈ field.suffixLen.map UInt32.toNat, v < 2 ^ 64 := by
    intro v hv
    obtain ⟨w, -, rfl⟩ := Option.mem_map.1 hv
    exact lt_of_uint32 w
  have hreadNum := Wire.readOptional_toList (Wire.readVarint 32) _
    (hstring 32 (by decide) (by decide) (by decide)) (fun _ => rfl)
    (field.numericValue.map UInt64.toNat)
    (fun v hv => Wire.readVarint_varint (hnum v hv) _)
  have hreadStr := Wire.readOptional_toList (Wire.readBytes 42) _
    (hterm 42 (by decide) (by decide)) (fun _ => rfl) field.stringValue
    (fun s hs => Wire.readBytes_bytes (hstr s hs) _)
  have hfuel : field.terms.length ≤ (field.terms.flatMap (Wire.bytes 50) ++
      (field.suffixLen.map UInt32.toNat).toList.flatMap
        (Wire.varint 80)).length := by
    rw [List.length_append]
    exact (Wire.length_le_flatMap _ (fun _ => List.cons_ne_nil _ _) _).trans
      (Nat.le_add_right _ _)
  have hreadTerms := Wire.readRepeated_flatMap (Wire.readBytes 50) _ _
    (hsuffix 50 (by decide)) (fun _ => rfl) field.terms _
    (fun t ht rest => Wire.readBytes_bytes (hterms t ht) rest) hfuel
  have hreadLen := Wire.readOptional_toList (Wire.readVarint 80) []
    (by simp) (fun _ => rfl) (field.suffixLen.map UInt32.toNat)
    (fun v hv => Wire.readVarint_varint (hlen v hv) _)
  rw [List.append_nil] at hreadLen
  simp only [readField, fieldBytes, Wire.readVarint_varint (lt_of_uint32 _),
    Option.bind_eq_bind, Option.bind_some, hreadNum, hreadStr, hreadTerms,
    hreadLen, if_true, toUInt32_toNat, map_toUInt64_toNat, map_toUInt32_toNat]

/-- The bytes of a term are among the bytes of its field. -/
theorem term_le_fieldBytes {field : StoreIndexField} {t : Bytes}
    (ht : t ∈ field.terms) : t.length ≤ (fieldBytes field).length := by
  have hle := Wire.length_le_of_mem (Wire.bytes 50) ht
  simp only [fieldBytes, List.length_append]
  rw [Wire.bytes, List.length_cons, List.length_append] at hle
  omega

theorem string_le_fieldBytes {field : StoreIndexField} {s : Bytes}
    (hs : s ∈ field.stringValue) : s.length ≤ (fieldBytes field).length := by
  have hle := Wire.length_le_of_mem (Wire.bytes 42)
    (Option.mem_toList.2 hs)
  simp only [fieldBytes, List.length_append]
  rw [Wire.bytes, List.length_cons, List.length_append] at hle
  omega

theorem fieldBytes_le_messageBytes {message : StoreDocument}
    {field : StoreIndexField} (h : field ∈ message.fields) :
    (fieldBytes field).length ≤ (messageBytes message).length := by
  have hle := Wire.length_le_of_mem
    (fun field => Wire.bytes 18 (fieldBytes field)) h
  rw [messageBytes, List.length_append]
  rw [Wire.bytes, List.length_cons, List.length_append] at hle
  omega

theorem readMessage_messageBytes {message : StoreDocument}
    (hlen : (messageBytes message).length < 2 ^ 64) :
    readMessage (messageBytes message) = some message := by
  have hfield : ∀ field ∈ message.fields, ∀ rest, readEmbedded
      (Wire.bytes 18 (fieldBytes field) ++ rest) = some (field, rest) := by
    intro field hf rest
    have hle := fieldBytes_le_messageBytes hf
    rw [readEmbedded, Wire.readBytes_bytes (by omega), Option.bind_eq_bind,
      Option.bind_some]
    simp only [readField_fieldBytes field
      (fun s hs => by have := string_le_fieldBytes hs; omega)
      (fun t ht => by have := term_le_fieldBytes ht; omega)]
    rfl
  have hread := Wire.readRepeated_flatMap readEmbedded
    (fun field => Wire.bytes 18 (fieldBytes field)) []
    (by simp) (fun _ => rfl) message.fields _ hfield (Wire.length_le_flatMap
      (fun field => Wire.bytes 18 (fieldBytes field))
      (fun _ => List.cons_ne_nil _ _) _)
  rw [List.append_nil] at hread
  simp only [readMessage, messageBytes, Wire.readVarint_varint
    message.documentId.toNat_lt, Option.bind_eq_bind, Option.bind_some, hread,
    if_true, toUInt64_toNat]

end StoreWire

open StoreWire in
/-- The serializer of `search_store.proto`. -/
def storeWire : StorePb where
  serialize message :=
    if (messageBytes message).length < 2 ^ 31 then some (messageBytes message)
    else none
  parse := readMessage
  parse_serialize := by
    intro message bytes h
    split at h
    · next hlen =>
        rw [← Option.some.inj h]
        exact readMessage_messageBytes (hlen.trans (by decide))
    · cases h
  term_length_le := by
    intro message bytes h field hf term ht
    split at h
    · rw [← Option.some.inj h]
      exact (term_le_fieldBytes ht).trans (fieldBytes_le_messageBytes hf)
    · cases h

/-- The limits of `index_config.h`, with the tokenizer that needs no
dictionary. -/
def spaceConfig : IndexConfig where
  pb := storeWire
  tokenizer := tokenizerSpaceImpl
  compressionType := .fixType
  maxSuffixTermSize := 64
  maxWriteBatchSize := 19922944

/-- The operator with the limit of `virtual_db.h`. -/
def millionOperator : DocListMergeOperator :=
  .new .fixType 1000000 (by decide)

end Wwsearch.Ref
