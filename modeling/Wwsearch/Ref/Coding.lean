import Wwsearch.Ref.Types

/-!
# Integers and keys (`coding.cpp`, `codec_impl.cpp`)

Keys are built with the big-endian appenders, doc lists with the host-order
ones of the `internal` namespace; the host is little-endian. The varint
writers and readers keep the shape of the source: the 32-bit writer is
unrolled by length, the 64-bit one is a loop, and both readers give up on the
end of the input and on a group that would start past the top bit.

A reader returns the value and the rest of its slice, or nothing where the
source returns a null pointer.

A key starts with its table: the business type and the partition set, nine
bytes, big-endian, so that the byte order of the keys is the order of the
numbers. Behind that a stored key and a doc-value key have the document id, an
inverted key has the field and the term. In the meta column a byte says what
follows: nothing behind a zero, a user id behind a one.
-/

namespace Wwsearch.Ref

open Wwsearch.Lib

/-! ## The parts of a key -/

def appendFixed8 (key : Bytes) (i : UInt8) : Bytes := key ++ [i]

/-- `AppendFixed32`: `htonl`, then the word's bytes. -/
def appendFixed32 (key : Bytes) (i : UInt32) : Bytes :=
  key ++ (Word.toLE 4 i.toNat).reverse

/-- `AppendFixed64`: `htonll`, then the word's bytes. -/
def appendFixed64 (key : Bytes) (i : UInt64) : Bytes :=
  key ++ (Word.toLE 8 i.toNat).reverse

/-- `htonl` of the library: the bytes of the word, the other way round. -/
def htonl (i : UInt32) : UInt32 :=
  UInt32.ofNat (Word.ofLE (Word.toLE 4 i.toNat).reverse)

/-- `htonll`: the halves change places, each through `htonl`. -/
def htonll (i : UInt64) : UInt64 :=
  ((htonl i.toUInt32).toUInt64 <<< 32) |||
    (htonl (i >>> 32).toUInt32).toUInt64

/-- `RemoveFixed8`. -/
def removeFixed8 (key : Bytes) : UInt8 × Bytes := (key.headD 0, key.drop 1)

/-- `RemoveFixed64`; `ntohll` has the body of `htonll`. -/
def removeFixed64 (key : Bytes) : UInt64 × Bytes :=
  (htonll (UInt64.ofNat (Word.ofLE (key.take 8))), key.drop 8)

/-- `AppendBuffer`: the size is a `uint32_t`, so a longer buffer is cut to its
length modulo `2 ^ 32`. -/
def appendBuffer (key buffer : Bytes) (size : UInt32) : Bytes :=
  key ++ buffer.take size.toNat

/-! ## Doc lists: host order -/

namespace Internal

def appendFixed8 (key : Bytes) (i : UInt8) : Bytes := key ++ [i]

def appendFixed64 (key : Bytes) (i : UInt64) : Bytes :=
  key ++ Word.toLE 8 i.toNat

end Internal

/-! ## Varints -/

def encodeVarint32 (v : UInt32) : Bytes :=
  let b : UInt32 := 128
  if v < 0x80 then [v.toUInt8]
  else if v < 0x4000 then [(v ||| b).toUInt8, (v >>> 7).toUInt8]
  else if v < 0x200000 then
    [(v ||| b).toUInt8, (v >>> 7 ||| b).toUInt8, (v >>> 14).toUInt8]
  else if v < 0x10000000 then
    [(v ||| b).toUInt8, (v >>> 7 ||| b).toUInt8, (v >>> 14 ||| b).toUInt8,
      (v >>> 21).toUInt8]
  else
    [(v ||| b).toUInt8, (v >>> 7 ||| b).toUInt8, (v >>> 14 ||| b).toUInt8,
      (v >>> 21 ||| b).toUInt8, (v >>> 28).toUInt8]

/-- The loop of `EncodeVarint64`; a 64-bit value has at most ten groups. -/
def encodeVarint64.loop : Nat → UInt64 → Bytes
  | 0, v => [v.toUInt8]
  | fuel + 1, v =>
      if 128 ≤ v then ((v &&& 127) ||| 128).toUInt8 :: loop fuel (v >>> 7)
      else [v.toUInt8]

def encodeVarint64 (v : UInt64) : Bytes := encodeVarint64.loop 9 v

def putVarint32 (dst : Bytes) (v : UInt32) : Bytes := dst ++ encodeVarint32 v

def putVarint64 (dst : Bytes) (v : UInt64) : Bytes := dst ++ encodeVarint64 v

/-- The loop of `GetVarint64Ptr`: `shift` runs over 0, 7, .., 63. -/
def getVarint64Ptr.loop : Nat → UInt64 → UInt64 → Bytes →
    Option (UInt64 × Bytes)
  | 0, _, _, _ => none
  | _ + 1, _, _, [] => none
  | fuel + 1, shift, result, byte :: p =>
      if byte &&& 128 ≠ 0 then
        loop fuel (shift + 7) (result ||| ((byte &&& 127).toUInt64 <<< shift)) p
      else some (result ||| (byte.toUInt64 <<< shift), p)

def getVarint64 (input : Bytes) : Option (UInt64 × Bytes) :=
  getVarint64Ptr.loop 10 0 0 input

/-- The loop of `GetVarint32PtrFallback`: `shift` runs over 0, 7, .., 28. -/
def getVarint32PtrFallback.loop : Nat → UInt32 → UInt32 → Bytes →
    Option (UInt32 × Bytes)
  | 0, _, _, _ => none
  | _ + 1, _, _, [] => none
  | fuel + 1, shift, result, byte :: p =>
      if byte &&& 128 ≠ 0 then
        loop fuel (shift + 7) (result ||| ((byte &&& 127).toUInt32 <<< shift)) p
      else some (result ||| (byte.toUInt32 <<< shift), p)

/-- `GetVarint32Ptr`: one byte is the fast path. -/
def getVarint32 (input : Bytes) : Option (UInt32 × Bytes) :=
  match input with
  | byte :: p =>
      if byte &&& 128 = 0 then some (byte.toUInt32, p)
      else getVarint32PtrFallback.loop 5 0 0 input
  | [] => getVarint32PtrFallback.loop 5 0 0 input

/-! ## Keys -/

def encodeMetaKey (table : TableID) : Bytes :=
  appendFixed64 (appendFixed8 [] table.businessType) table.partitionSet

def encodeStoredFieldKey (table : TableID) (documentId : DocumentID) : Bytes :=
  appendFixed64 (appendFixed64 (appendFixed8 [] table.businessType)
    table.partitionSet) documentId

/-- The term's size reaches `AppendBuffer` as a `uint32_t`. -/
def encodeInvertedKey (table : TableID) (fieldId : FieldID) (term : Bytes) :
    Bytes :=
  appendBuffer (appendFixed8 (appendFixed64 (appendFixed8 []
    table.businessType) table.partitionSet) fieldId) term
      term.length.toUInt32

/-- `DecodeInvertedKey`: the business type, the partition set, the field and
the term, where the key is long enough. -/
def decodeInvertedKey (invertedKey : Bytes) :
    Option (UInt8 × UInt64 × FieldID × Bytes) :=
  if invertedKey.length < 10 then none
  else
    let (businessType, key) := removeFixed8 invertedKey
    let (partitionSet, key) := removeFixed64 key
    let (fieldId, key) := removeFixed8 key
    some (businessType, partitionSet, fieldId, key)

def encodeSequenceMetaKey (table : TableID) : Bytes :=
  appendFixed8 (appendFixed64 (appendFixed8 [] table.businessType)
    table.partitionSet) 0

def encodeSequenceMappingKey (table : TableID) (userId : Bytes) : Bytes :=
  appendFixed8 (appendFixed64 (appendFixed8 [] table.businessType)
    table.partitionSet) 1 ++ userId

end Wwsearch.Ref
