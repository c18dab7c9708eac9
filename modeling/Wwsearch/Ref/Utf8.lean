import Wwsearch.Ref.Types

/-!
# Suffixes of a term (`utf8_suffixbuilder.cpp`, `core.h`)

`UTF8SuffixBuilder` walks a term by code points. The walk itself is
`utf8::next`, which decodes one sequence and checks it: the trail octets, the
code point, and that the sequence is the shortest one for it. Any failure is an
exception that ends the walk.

A sequence is decoded from the octets that are left, and its result is their
number, so the iterator of the source is the length of a prefix here.
-/

namespace Wwsearch.Ref

open Wwsearch.Lib

namespace Utf8

def isTrail (oc : UInt8) : Bool := oc >>> 6 == 2

def isCodePointValid (cp : UInt32) : Bool :=
  cp ≤ 0x10ffff && !(0xd800 ≤ cp && cp ≤ 0xdfff)

def sequenceLength (lead : UInt8) : Nat :=
  if lead < 0x80 then 1
  else if lead >>> 5 == 0x6 then 2
  else if lead >>> 4 == 0xe then 3
  else if lead >>> 3 == 0x1e then 4
  else 0

def isOverlongSequence (cp : UInt32) (length : Nat) : Bool :=
  if cp < 0x80 then length != 1
  else if cp < 0x800 then length != 2
  else if cp < 0x10000 then length != 3
  else false

/-- One octet's part of a code point: `(oc << shift) & mask`. -/
def part (oc : UInt8) (shift mask : UInt32) : UInt32 :=
  (oc.toUInt32 <<< shift) &&& mask

/-- `get_sequence_1` to `get_sequence_4`: the code point, if the trail octets
are there. -/
def getSequence : Nat → Bytes → Option UInt32
  | 1, a :: _ => some a.toUInt32
  | 2, a :: b :: _ =>
      if isTrail b then some (part a 6 0x7ff + part b 0 0x3f) else none
  | 3, a :: b :: c :: _ =>
      if isTrail b && isTrail c then
        some (part a 12 0xffff + part b 6 0xfff + part c 0 0x3f)
      else none
  | 4, a :: b :: c :: d :: _ =>
      if isTrail b && isTrail c && isTrail d then
        some (part a 18 0x1fffff + part b 12 0x3ffff + part c 6 0xfff +
          part d 0 0x3f)
      else none
  | _, _ => none

/-- `validate_next`: how far the iterator moves, or nothing where `utf8::next`
throws. At the end of the term the lead octet is the terminating zero of
`c_str()`, and `get_sequence_1` finds no room for it. -/
def next (rest : Bytes) : Option Nat :=
  match rest with
  | [] => none
  | lead :: _ => do
      let length := sequenceLength lead
      let cp ← getSequence length rest
      if isCodePointValid cp && !isOverlongSequence cp length then some length
      else none

end Utf8

structure UTF8SuffixBuilder where
  buffer : Bytes
  pos : Nat := 0
  minSuffixLen : Nat
  deriving DecidableEq, Repr

namespace UTF8SuffixBuilder

/-- The constructor; a minimum above the buffer's size is cut down to it. -/
def init (buffer : Bytes) (minSuffixLen : UInt32) : UTF8SuffixBuilder :=
  { buffer, minSuffixLen := min minSuffixLen.toNat buffer.length }

def term (b : UTF8SuffixBuilder) : Bytes := b.buffer.drop b.pos

/-- `Next`: the builder moved on, or nothing where it returns false. Its error
flag is only read by a further call, and there is none after a false. -/
def next (b : UTF8SuffixBuilder) : Option UTF8SuffixBuilder := do
  let step ← Utf8.next b.term
  let pos := b.pos + step
  if pos < b.buffer.length ∧ b.minSuffixLen ≤ b.buffer.length - pos then
    some { b with pos }
  else none

/-- The terms of `do { .. } while (builder.Next())`. Every step moves forward,
so the buffer's size is fuel enough. -/
def terms : Nat → UTF8SuffixBuilder → List Bytes
  | 0, b => [b.term]
  | fuel + 1, b =>
      match b.next with
      | none => [b.term]
      | some b' => b.term :: terms fuel b'

/-- The loop on fuel, and nothing where it goes on. -/
def termsLoop : Nat → UTF8SuffixBuilder → Option (List Bytes)
  | 0, _ => none
  | fuel + 1, b =>
      match b.next with
      | none => some [b.term]
      | some b' => (termsLoop fuel b').map (b.term :: ·)

end UTF8SuffixBuilder

end Wwsearch.Ref
