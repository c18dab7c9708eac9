import Wwsearch.Ref.Coding

/-!
# Doc lists on disk (`codec_doclist.h`, `doclist_compression.cpp`,
`codec_doclist_impl.cpp`)

A doc list is one header byte and a body. In the fixed layout the body is a
run of nine-byte records, the id in host order and one state byte. In the
variable-length layout it is an optional block of delete positions followed by
the ids, the first one whole and every other one as its distance from the one
before; the decoder expands that back into the fixed layout.

The writers check their own input with `assert`: the order of the ids in
`DocListDeltaBuffer`, the order of the delete positions in
`DocListDelDeltaBuffer`. An assertion that fails stops the process, so the
writers below answer nothing there. A position and a count of deletes are
`uint32_t` in the source and are cut to that width here as well.
-/

namespace Wwsearch.Ref

open Wwsearch.Lib

abbrev DocumentState := UInt8

def kDocumentStateOK : DocumentState := 0
def kDocumentStateDelete : DocumentState := 1

/-- `merge::DocList`, one packed record of the fixed layout. -/
structure DocList where
  docId : DocumentID
  docState : DocumentState
  deriving DecidableEq, Repr, Inhabited

/-- `DocListHeader`: three bit fields in one byte, the version lowest. -/
structure DocListHeader where
  version : UInt8 := 0
  flag : UInt8 := 0
  extend : UInt8 := 0
  deriving DecidableEq, Repr

def DocListHeader.toByte (h : DocListHeader) : UInt8 :=
  let low : UInt8 := h.version &&& 15
  let mid : UInt8 := h.flag &&& 7
  let top : UInt8 := h.extend &&& 1
  low ||| (mid <<< 4) ||| (top <<< 7)

def DocListHeader.ofByte (b : UInt8) : DocListHeader :=
  { version := b &&& 15, flag := (b >>> 4) &&& 7, extend := b >>> 7 }

/-- `DocListCompressionType`. -/
inductive DocListCompressionType where
  | fixType
  | varLenBlockType
  deriving DecidableEq, Repr

def DocListCompressionType.version : DocListCompressionType → UInt8
  | .fixType => 0
  | .varLenBlockType => 1

/-! ## The variable-length encoder -/

structure DocListDelDeltaBuffer where
  delNum : UInt32 := 0
  lastPos : UInt32 := 0
  delPosition : List UInt32 := []
  deriving DecidableEq, Repr

/-- `AddDeletePos`; nothing where it returns false. -/
def DocListDelDeltaBuffer.addDeletePos (b : DocListDelDeltaBuffer) (pos : Nat) :
    Option DocListDelDeltaBuffer :=
  if b.delPosition ≠ [] ∧ pos ≤ b.lastPos.toNat then none
  else some { delNum := b.delNum + 1, lastPos := pos.toUInt32,
              delPosition := b.delPosition ++ [pos.toUInt32] }

def DocListDelDeltaBuffer.putPositions (prevPos : UInt32) (buffer : Bytes) :
    List UInt32 → Bytes
  | [] => buffer
  | pos :: rest => putPositions pos (putVarint32 buffer (pos - prevPos)) rest

/-- `DocListDelDeltaBuffer::SerializeToString`; its own assertion compares the
count with the number of positions kept. -/
def DocListDelDeltaBuffer.serializeToString (b : DocListDelDeltaBuffer)
    (buffer : Bytes) : Option Bytes :=
  if b.delNum ≠ 0 then
    if b.delNum.toNat = b.delPosition.length then
      some (putPositions 0 (putVarint32 buffer b.delNum) b.delPosition)
    else none
  else some buffer

structure DocListDeltaBuffer where
  lastDocid : DocumentID := 0
  docList : List DocumentID := []
  deriving DecidableEq, Repr

/-- `DocListDeltaBuffer::AddDoc`; nothing where it returns false. -/
def DocListDeltaBuffer.addDoc (b : DocListDeltaBuffer) (docId : DocumentID) :
    Option DocListDeltaBuffer :=
  if b.docList ≠ [] ∧ b.lastDocid ≤ docId then none
  else some { lastDocid := docId, docList := b.docList ++ [docId] }

/-- `DocListDeltaBuffer::SerializeToString`. -/
def DocListDeltaBuffer.putDocs (prevDocId : DocumentID) (buffer : Bytes) :
    List DocumentID → Bytes
  | [] => buffer
  | docId :: rest =>
      putDocs docId
        (putVarint64 buffer
          (if prevDocId = 0 then docId else prevDocId - docId)) rest

structure DocListCompressionEncoder where
  header : DocListHeader := { version := 1 }
  delBuffer : DocListDelDeltaBuffer := {}
  deltaBuffer : DocListDeltaBuffer := {}
  pos : Nat := 0
  hasDel : Bool := false
  deriving DecidableEq, Repr

/-- `DocListCompressionEncoder::AddDoc`, with its two assertions. -/
def DocListCompressionEncoder.addDoc (e : DocListCompressionEncoder)
    (docId : DocumentID) (isDel : Bool) : Option DocListCompressionEncoder := do
  let deltaBuffer ← e.deltaBuffer.addDoc docId
  if isDel then
    let delBuffer ← e.delBuffer.addDeletePos e.pos
    some { e with deltaBuffer, delBuffer, hasDel := true, pos := e.pos + 1 }
  else some { e with deltaBuffer, pos := e.pos + 1 }

/-- `DocListCompressionEncoder::SerializeToString`. -/
def DocListCompressionEncoder.serializeToString
    (e : DocListCompressionEncoder) : Option Bytes := do
  let header := if e.hasDel then { e.header with flag := 1 } else e.header
  let buffer : Bytes := [header.toByte]
  let buffer ←
    if e.hasDel then e.delBuffer.serializeToString buffer else some buffer
  some (DocListDeltaBuffer.putDocs 0 buffer e.deltaBuffer.docList)

/-! ## The variable-length decoder -/

/-- The delete positions: `n` gaps, added up from zero. -/
def DocListCompressionDecoder.getPositions :
    Nat → UInt32 → Bytes → Option (List UInt32 × Bytes)
  | 0, _, slice => some ([], slice)
  | n + 1, prevPos, slice => do
      let (pos, slice) ← getVarint32 slice
      let (rest, slice) ← getPositions n (prevPos + pos) slice
      some ((prevPos + pos) :: rest, slice)

/-- The ids, until the slice holds no further varint. `docNum` counts the
records written so far; a delete position that was passed over would stop the
process. Every round takes at least one byte, so the slice's own length is
fuel enough. -/
def DocListCompressionDecoder.getDocs :
    Nat → DocumentID → Nat → List UInt32 → Bytes → Option Bytes
  | 0, _, _, _, _ => some []
  | fuel + 1, prevDocId, docNum, delPosition, slice =>
      match getVarint64 slice with
      | none => some []
      | some (delta, slice) =>
          let docId := if prevDocId ≠ 0 then prevDocId - delta else delta
          match delPosition with
          | [] => do
              let rest ← getDocs fuel docId (docNum + 1) [] slice
              some (Word.toLE 8 docId.toNat ++ [kDocumentStateOK] ++ rest)
          | p :: ps =>
              if p.toNat = docNum then do
                let rest ← getDocs fuel docId (docNum + 1) ps slice
                some (Word.toLE 8 docId.toNat ++ [kDocumentStateDelete] ++ rest)
              else if p.toNat < docNum then none
              else do
                let rest ← getDocs fuel docId (docNum + 1) (p :: ps) slice
                some (Word.toLE 8 docId.toNat ++ [kDocumentStateOK] ++ rest)

/-- `DocListCompressionDecoder::Decode`: the header is copied, the body is
expanded. -/
def DocListCompressionDecoder.decode (data : Bytes) : Option Bytes := do
  match data with
  | [] => none
  | b :: slice =>
      let header := DocListHeader.ofByte b
      if header.version ≠ 1 then none
      else
        let (delPosition, slice) ←
          if header.flag ≠ 0 then do
            let (delNum, slice) ← getVarint32 slice
            getPositions delNum.toNat 0 slice
          else some ([], slice)
        let body ← getDocs slice.length 0 0 delPosition slice
        some (b :: body)

/-- `CodecImpl::DecodeDocListToFixBytes`, the fixed bytes handed back. -/
def decodeDocListToFixBytes (data : Bytes) : Option Bytes :=
  match data with
  | [] => none
  | b :: _ =>
      let header := DocListHeader.ofByte b
      if header.version = 0 then some data
      else if header.version = 1 then DocListCompressionDecoder.decode data
      else none

/-- The records behind a header: nine bytes each. A body that ends inside a
record would be read past its end. -/
def DocList.records : Nat → Bytes → Option (List DocList)
  | _, [] => some []
  | 0, _ :: _ => none
  | fuel + 1, b :: body =>
      if (b :: body).length < 9 then none
      else do
        let rest ← records fuel ((b :: body).drop 9)
        some (⟨UInt64.ofNat (Word.ofLE ((b :: body).take 8)),
          ((b :: body).drop 8).headD 0⟩ :: rest)

/-- The list a value stands for, whichever layout it is in. -/
def docListOf (data : Bytes) : Option (List DocList) := do
  let fix ← decodeDocListToFixBytes data
  DocList.records fix.length (fix.drop 1)

/-! ## The writers -/

/-- The two implementations of `DocListWriterCodec`. -/
inductive DocListWriterCodec where
  | order (data : Bytes)
  | compression (encoder : DocListCompressionEncoder)
  deriving DecidableEq, Repr

/-- `CodecImpl::NewOrderDocListWriterCodec`. -/
def newOrderDocListWriterCodec : DocListCompressionType → DocListWriterCodec
  | .fixType => .order [({} : DocListHeader).toByte]
  | .varLenBlockType => .compression {}

/-- `AddDocID`. The state reaches the encoder as a `bool`. -/
def DocListWriterCodec.addDocID (docId : DocumentID) (state : DocumentState) :
    DocListWriterCodec → Option DocListWriterCodec
  | .order data =>
      some (.order (Internal.appendFixed8 (Internal.appendFixed64 data docId)
        state))
  | .compression encoder => do
      let encoder ← encoder.addDoc docId (state ≠ 0)
      some (.compression encoder)

/-- `SerializeToBytes`: the flag it returns and the bytes. -/
def DocListWriterCodec.serializeToBytes :
    DocListWriterCodec → Option (Bool × Bytes)
  | .order data => some (true, data)
  | .compression encoder => do
      let buffer ← encoder.serializeToString
      some (true, buffer)

/-- A whole list through a new writer, one `AddDocID` after the other. -/
def writeDocList (type : DocListCompressionType) (docs : List DocList) :
    Option (Bool × Bytes) := do
  let writer ← docs.foldlM (fun writer doc =>
    writer.addDocID doc.docId doc.docState) (newOrderDocListWriterCodec type)
  writer.serializeToBytes

end Wwsearch.Ref
