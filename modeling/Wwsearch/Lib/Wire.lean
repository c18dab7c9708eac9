import Wwsearch.Lib.Bytes

/-!
# Tagged fields

The wire format of protocol buffers as a serializer writes it: a field is a tag
byte and a varint, or a tag byte, a length and that many bytes, and the fields
of a message stand in the order of their numbers. A reader that follows the
same order needs one byte of lookahead, to see whether an optional field or one
more repeated field is there.

Each reader has one lemma. It takes its own field off the front of any input
and leaves what follows; an absent field is recognised by what follows it.
-/

namespace Wwsearch.Lib.Wire

variable {α : Type}

def varint (tag : UInt8) (v : Nat) : Bytes := tag :: Varint.encode 9 v

def bytes (tag : UInt8) (s : Bytes) : Bytes :=
  tag :: (Varint.encode 9 s.length ++ s)

def readVarint (tag : UInt8) : Bytes → Option (Nat × Bytes)
  | [] => none
  | t :: rest => if t = tag then Varint.decode 10 0 0 rest else none

def readBytes (tag : UInt8) (input : Bytes) : Option (Bytes × Bytes) := do
  let (n, rest) ← readVarint tag input
  if n ≤ rest.length then some (rest.take n, rest.drop n) else none

def readOptional (tag : UInt8) (read : Bytes → Option (α × Bytes))
    (input : Bytes) : Option (Option α × Bytes) :=
  if input.head? = some tag then do
    let (v, rest) ← read input
    some (some v, rest)
  else some (none, input)

def readRepeated (tag : UInt8) (read : Bytes → Option (α × Bytes)) :
    Nat → Bytes → Option (List α × Bytes)
  | 0, input => some ([], input)
  | fuel + 1, input =>
      if input.head? = some tag then do
        let (v, rest) ← read input
        let (vs, rest) ← readRepeated tag read fuel rest
        some (v :: vs, rest)
      else some ([], input)

theorem readVarint_varint {tag : UInt8} {v : Nat} (h : v < 2 ^ 64)
    (rest : Bytes) : readVarint tag (varint tag v ++ rest) = some (v, rest) := by
  have hdec := Varint.decode_encode 9 v 0 0 rest (h.trans (by decide))
  rw [Nat.zero_add, Nat.pow_zero, Nat.mul_one] at hdec
  rw [varint, List.cons_append, readVarint, if_pos rfl, hdec]

theorem readBytes_bytes {tag : UInt8} {s : Bytes} (h : s.length < 2 ^ 64)
    (rest : Bytes) : readBytes tag (bytes tag s ++ rest) = some (s, rest) := by
  have hlen : readVarint tag (bytes tag s ++ rest) =
      some (s.length, s ++ rest) := by
    rw [bytes, List.cons_append, List.append_assoc]
    exact readVarint_varint h (s ++ rest)
  have hle : s.length ≤ (s ++ rest).length := by
    rw [List.length_append]
    omega
  simp only [readBytes, hlen, Option.bind_eq_bind, Option.bind_some, if_pos hle,
    List.take_left, List.drop_left]

theorem readOptional_toList {tag : UInt8} (read : Bytes → Option (α × Bytes))
    {enc : α → Bytes} (rest : Bytes) (hrest : rest.head? ≠ some tag)
    (hhead : ∀ v, (enc v).head? = some tag) (o : Option α)
    (hread : ∀ v ∈ o, read (enc v ++ rest) = some (v, rest)) :
    readOptional tag read (o.toList.flatMap enc ++ rest) = some (o, rest) := by
  cases o with
  | none =>
      rw [Option.toList_none, List.flatMap_nil, List.nil_append, readOptional,
        if_neg hrest]
  | some v =>
      have hh : (enc v ++ rest).head? = some tag := by
        rw [List.head?_append, hhead, Option.some_or]
      rw [Option.toList_some, List.flatMap_singleton, readOptional, if_pos hh,
        hread v rfl]
      rfl

theorem readRepeated_flatMap {tag : UInt8} (read : Bytes → Option (α × Bytes))
    (enc : α → Bytes) (rest : Bytes) (hrest : rest.head? ≠ some tag)
    (hhead : ∀ v, (enc v).head? = some tag) : ∀ (vs : List α) (fuel : Nat),
    (∀ v ∈ vs, ∀ rest, read (enc v ++ rest) = some (v, rest)) →
    vs.length ≤ fuel →
    readRepeated tag read fuel (vs.flatMap enc ++ rest) = some (vs, rest) := by
  intro vs
  induction vs with
  | nil =>
      intro fuel _ _
      cases fuel with
      | zero => rfl
      | succ fuel => rw [List.flatMap_nil, List.nil_append, readRepeated,
          if_neg hrest]
  | cons v vs ih =>
      intro fuel hread hfuel
      cases fuel with
      | zero => exact absurd hfuel (by simp)
      | succ fuel =>
          have hh : (enc v ++ (vs.flatMap enc ++ rest)).head? = some tag := by
            rw [List.head?_append, hhead, Option.some_or]
          rw [List.flatMap_cons, List.append_assoc, readRepeated, if_pos hh,
            hread v List.mem_cons_self]
          rw [Option.bind_eq_bind, Option.bind_some]
          simp only [ih fuel (fun w hw => hread w (List.mem_cons_of_mem _ hw))
            (by simpa using hfuel)]
          rfl

/-- Each repeated field has a byte of its own, so the input's length is fuel
enough. -/
theorem length_le_flatMap (enc : α → Bytes) (hne : ∀ v, enc v ≠ [])
    (vs : List α) : vs.length ≤ (vs.flatMap enc).length := by
  induction vs with
  | nil => exact Nat.zero_le _
  | cons v vs ih =>
      have := List.length_pos_iff.2 (hne v)
      rw [List.flatMap_cons, List.length_append, List.length_cons]
      omega

theorem length_le_of_mem (enc : α → Bytes) {vs : List α} {v : α} (h : v ∈ vs) :
    (enc v).length ≤ (vs.flatMap enc).length := by
  rw [List.flatMap_def]
  exact (List.sublist_flatten_of_mem (List.mem_map_of_mem h)).length_le

end Wwsearch.Lib.Wire
