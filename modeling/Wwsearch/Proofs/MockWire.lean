import Wwsearch.Lib.Wire
import Wwsearch.Ref.Mock

/-!
# The message of a write buffer on the wire (`search_store.proto`)

The serializer that the library generates for `MockDataList`, and a reader that
expects the fields where it puts them. Together they are what `MockPb` asks for
(`mockWire`).
-/

namespace Wwsearch.Ref

open Wwsearch.Lib

namespace MockWire

def typeNumber : MockDataType → Nat
  | .kUnknown => 0
  | .kUpdate => 1
  | .kMerge => 2
  | .kDelete => 3
  | .kDeleteRange => 4

def typeOf : Nat → Option MockDataType
  | 0 => some .kUnknown
  | 1 => some .kUpdate
  | 2 => some .kMerge
  | 3 => some .kDelete
  | 4 => some .kDeleteRange
  | _ => none

/-- One `MockData`, in the order of its field numbers. -/
def entryBytes (m : MockData) : Bytes :=
  Wire.varint 8 m.columnType.toNat ++
    (Wire.bytes 18 m.key ++
    (Wire.bytes 26 m.value ++
    (Wire.varint 32 (typeNumber m.type) ++
    m.endKey.toList.flatMap (Wire.bytes 42))))

def messageBytes (list : List MockData) : Bytes :=
  list.flatMap (fun m => Wire.bytes 10 (entryBytes m))

def readEntry (input : Bytes) : Option MockData := do
  let (column, input) ← Wire.readVarint 8 input
  let columnType ← StorageColumnType.all[column]?
  let (key, input) ← Wire.readBytes 18 input
  let (value, input) ← Wire.readBytes 26 input
  let (number, input) ← Wire.readVarint 32 input
  let type ← typeOf number
  let (endKey, input) ← Wire.readOptional 42 (Wire.readBytes 42) input
  if input = [] then some { columnType, key, value, type, endKey } else none

def readEmbedded (input : Bytes) : Option (MockData × Bytes) := do
  let (body, rest) ← Wire.readBytes 10 input
  let m ← readEntry body
  some (m, rest)

def readMessage (input : Bytes) : Option (List MockData) := do
  let (list, input) ← Wire.readRepeated 10 readEmbedded input.length input
  if input = [] then some list else none

theorem getElem?_toNat (c : StorageColumnType) :
    StorageColumnType.all[c.toNat]? = some c := by
  cases c <;> rfl

theorem typeOf_typeNumber (t : MockDataType) :
    typeOf (typeNumber t) = some t := by
  cases t <;> rfl

theorem length_bytes (tag : UInt8) (s : Bytes) : (Wire.bytes tag s).length =
    1 + (Varint.encode 9 s.length).length + s.length := by
  rw [Wire.bytes, List.length_cons, List.length_append]
  omega

theorem length_bytes_mono (tag : UInt8) {s s' : Bytes}
    (h : s.length ≤ s'.length) :
    (Wire.bytes tag s).length ≤ (Wire.bytes tag s').length := by
  have := Varint.encode_length_mono 9 h
  rw [length_bytes, length_bytes]
  omega

theorem readEntry_entryBytes (m : MockData)
    (hlen : (entryBytes m).length < 2 ^ 64) :
    readEntry (entryBytes m) = some m := by
  have hkey : m.key.length < 2 ^ 64 ∧ m.value.length < 2 ^ 64 := by
    simp only [entryBytes, List.length_append, length_bytes] at hlen
    omega
  have hcolumn : m.columnType.toNat < 2 ^ 64 := by
    cases m.columnType <;> decide
  have htype : typeNumber m.type < 2 ^ 64 := by
    cases m.type <;> decide
  have hend : ∀ e ∈ m.endKey, e.length < 2 ^ 64 := by
    intro e he
    have hle := Wire.length_le_of_mem (Wire.bytes 42) (Option.mem_toList.2 he)
    simp only [entryBytes, List.length_append] at hlen
    rw [length_bytes] at hle
    omega
  have hread := Wire.readOptional_toList (Wire.readBytes 42) [] (by simp)
    (fun _ => rfl) m.endKey (fun e he => Wire.readBytes_bytes (hend e he) _)
  rw [List.append_nil] at hread
  simp only [readEntry, entryBytes, Wire.readVarint_varint hcolumn,
    Wire.readBytes_bytes hkey.1, Wire.readBytes_bytes hkey.2,
    Wire.readVarint_varint htype, Option.bind_eq_bind, Option.bind_some,
    getElem?_toNat, typeOf_typeNumber, hread, if_true]

theorem readMessage_messageBytes {list : List MockData}
    (hlen : (messageBytes list).length < 2 ^ 31) :
    readMessage (messageBytes list) = some list := by
  have hentry : ∀ m ∈ list, ∀ rest, readEmbedded
      (Wire.bytes 10 (entryBytes m) ++ rest) = some (m, rest) := by
    intro m hm rest
    have hle := Wire.length_le_of_mem
      (fun m => Wire.bytes 10 (entryBytes m)) hm
    rw [length_bytes, ← messageBytes] at hle
    have hbody : (entryBytes m).length < 2 ^ 64 := by omega
    simp only [readEmbedded, Wire.readBytes_bytes hbody, Option.bind_eq_bind,
      Option.bind_some, readEntry_entryBytes m hbody]
  have hread := Wire.readRepeated_flatMap readEmbedded
    (fun m => Wire.bytes 10 (entryBytes m)) [] (by simp) (fun _ => rfl) list _
    hentry (Wire.length_le_flatMap (fun m => Wire.bytes 10 (entryBytes m))
      (fun _ => List.cons_ne_nil _ _) list)
  rw [List.append_nil] at hread
  simp only [readMessage, messageBytes, hread, Option.bind_eq_bind,
    Option.bind_some, if_true]

/-- The kinds are all below 128, so each takes one byte. -/
theorem length_update_le (m : MockData) :
    (entryBytes { m with type := .kUpdate, endKey := none }).length ≤
      (entryBytes m).length := by
  have htype : (Wire.varint 32 (typeNumber .kUpdate)).length =
      (Wire.varint 32 (typeNumber m.type)).length := by
    cases m.type <;> rfl
  simp only [entryBytes, List.length_append, htype, Option.toList_none,
    List.flatMap_nil, List.length_nil]
  omega

end MockWire

open MockWire in
/-- The serializer of `MockDataList`. -/
def mockWire : MockPb where
  serializeToString list :=
    if (messageBytes list).length < 2 ^ 31 then some (messageBytes list)
    else none
  parseFromString := readMessage
  byteSize m := (Wire.bytes 10 (entryBytes m)).length
  parse_serialize := by
    intro list data h
    split at h
    · next hlen =>
        rw [← Option.some.inj h]
        exact readMessage_messageBytes hlen
    · cases h
  serialize_nil := rfl
  serialize_isSome := by
    intro list
    rw [messageBytes, List.length_flatMap]
    split
    · next hlen => simpa using hlen
    · next hlen => simpa using hlen
  byteSize_update := fun m => length_bytes_mono 10 (length_update_le m)

end Wwsearch.Ref
