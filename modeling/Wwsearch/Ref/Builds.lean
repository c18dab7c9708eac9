import Wwsearch.Ref.DocIterator

/-!
# Doc lists with and without assertions (`doclist_compression.cpp`,
`codec_doclist_impl.cpp`)

The encoder, the compression writer and the reader do part of their work in
the argument of an `assert`. A build evaluates these arguments, or it is
compiled with `NDEBUG` and an `assert` is nothing at all, its argument
included. The functions of this file are the ones of `Ref.DocList` and
`Ref.DocIterator` once more, with the build as a parameter; an assertion that
is not compiled in leaves the object as it is.

A process can end in two ways here. An assertion fails, or an id is read from
memory that is not the list's. The second one is why the reader is written over
bytes: its slice has the size the constructor computes, in `size_t`, which need
not be the size of the bytes behind it.
-/

namespace Wwsearch.Ref

open Wwsearch.Lib

inductive Build where
  | debug
  | ndebug
  deriving DecidableEq, Repr

inductive Halt where
  | assertion
  | outOfBounds
  deriving DecidableEq, Repr

/-- A call under an assertion that it returns true. -/
def holds {α : Type} : Option α → Except Halt α
  | some a => .ok a
  | none => .error .assertion

/-- `assert(call)`, on an object that stands at `s` before the call. -/
def Build.assert {α : Type} (build : Build) (s : α) (call : Except Halt α) :
    Except Halt α :=
  match build with
  | .debug => call
  | .ndebug => .ok s

/-! ## Writing -/

/-- `DocListCompressionEncoder::AddDoc`. -/
def DocListCompressionEncoder.addDocIn (build : Build)
    (e : DocListCompressionEncoder) (docId : DocumentID) (isDel : Bool) :
    Except Halt DocListCompressionEncoder := do
  let deltaBuffer ←
    build.assert e.deltaBuffer (holds (e.deltaBuffer.addDoc docId))
  if isDel then
    let delBuffer ←
      build.assert e.delBuffer (holds (e.delBuffer.addDeletePos e.pos))
    .ok { e with deltaBuffer, delBuffer, hasDel := true, pos := e.pos + 1 }
  else .ok { e with deltaBuffer, pos := e.pos + 1 }

/-- `DocListCompressionEncoder::SerializeToString`. The assertion inside of
`DocListDelDeltaBuffer::SerializeToString` is only met where the one around the
call is compiled in. -/
def DocListCompressionEncoder.serializeToStringIn (build : Build)
    (e : DocListCompressionEncoder) : Except Halt Bytes := do
  let header := if e.hasDel then { e.header with flag := 1 } else e.header
  let buffer : Bytes := [header.toByte]
  let buffer ←
    if e.hasDel then
      build.assert buffer (holds (e.delBuffer.serializeToString buffer))
    else .ok buffer
  build.assert buffer
    (.ok (DocListDeltaBuffer.putDocs 0 buffer e.deltaBuffer.docList))

/-- `CompressionWriterCodecImpl::AddDocID`. -/
def CompressionWriterCodecImpl.addDocIDIn (build : Build)
    (encoder : DocListCompressionEncoder) (doc : DocList) :
    Except Halt DocListCompressionEncoder :=
  build.assert encoder
    (encoder.addDocIn build doc.docId (doc.docState ≠ 0))

/-- A whole list through a new `CompressionWriterCodecImpl`, then
`SerializeToBytes`. -/
def writeDocListIn (build : Build) (docs : List DocList) :
    Except Halt Bytes := do
  let encoder ← docs.foldlM (CompressionWriterCodecImpl.addDocIDIn build) {}
  encoder.serializeToStringIn build

/-! ## Reading -/

/-- `Slice`: where its bytes start, and its size. -/
structure Slice where
  data : Bytes := []
  size : Nat := 0
  deriving DecidableEq, Repr

/-- `len - sizeof(DocListHeader)`, in `size_t`. -/
def sizeBehindHeader (len : Nat) : Nat := (2 ^ 64 + len - 1) % 2 ^ 64

/-- The constructor of `DocListReaderCodecImpl`: the slice it leaves. -/
def newSliceIn (build : Build) (data : Bytes) : Except Halt Slice :=
  match data with
  | [] => .ok {}
  | b :: body =>
      let header := DocListHeader.ofByte b
      if header.version = 0 then
        .ok { data := body, size := sizeBehindHeader (b :: body).length }
      else if header.version = 1 then do
        let buffer ←
          build.assert [] (holds (DocListCompressionDecoder.decode (b :: body)))
        .ok { data := buffer.drop 1, size := sizeBehindHeader buffer.length }
      else build.assert {} (.error .assertion)

/-- `DocListReaderCodecImpl::DocID` at `pos_`. -/
def Slice.docIDAt (slice : Slice) (pos : Nat) : Except Halt DocumentID :=
  if slice.size ≤ pos then .ok noMoreDocs
  else if slice.data.length < pos + 8 then .error .outOfBounds
  else .ok (UInt64.ofNat (Word.ofLE ((slice.data.drop pos).take 8)))

/-- `DocListReaderCodecImpl::State` at `pos_`. -/
def Slice.stateAtIn (build : Build) (slice : Slice) (pos : Nat) :
    Except Halt DocumentState := do
  if slice.size ≤ pos then build.assert () (.error .assertion)
  match slice.data[pos + 8]? with
  | some state => .ok state
  | none => .error .outOfBounds

/-- The documents from `pos_` on, one `NextDoc` after the other. -/
def Slice.docsIn (build : Build) (slice : Slice) :
    Nat → Nat → Except Halt (List DocList)
  | 0, _ => .ok []
  | fuel + 1, pos => do
      let docId ← slice.docIDAt pos
      if docId = noMoreDocs then .ok []
      else
        let docState ← slice.stateAtIn build pos
        let rest ← docsIn build slice fuel (pos + 9)
        .ok (⟨docId, docState⟩ :: rest)

/-- The documents a new reader of the value goes through. Every round takes
nine bytes or is the last one, so the slice's own length is fuel enough. -/
def readDocListIn (build : Build) (data : Bytes) :
    Except Halt (List DocList) := do
  let slice ← newSliceIn build data
  slice.docsIn build (slice.data.length + 1) 0

end Wwsearch.Ref
