import Mathlib.Data.List.Infix

/-!
# Text as octets

A text is the encodings of its characters, one after the other. In an encoding
the octets behind the first one, and only these, lie in a range of their own,
so the octets of a text alone say where its characters start (`startsAt_iff`).
That is why looking for one text in another can be done by octets: what is
found starts where a character does (`infix_iff`).
-/

namespace Wwsearch.Lib.Utf8Text

def encode (cs : List Char) : List UInt8 := cs.flatMap String.utf8EncodeChar

/-- The octets are those of some characters. -/
def Valid (t : List UInt8) : Prop := ∃ cs, t = encode cs

/-- One of the characters of `t` starts at `i`. -/
def StartsAt (t : List UInt8) (i : Nat) : Prop :=
  ∃ before c after, t = encode (before ++ c :: after) ∧
    i = (encode before).length

/-- An octet that no character starts with. -/
def isContinuation (b : UInt8) : Bool :=
  decide (128 ≤ b.toNat) && decide (b.toNat < 192)

theorem encode_append (cs ds : List Char) :
    encode (cs ++ ds) = encode cs ++ encode ds := List.flatMap_append

theorem encode_cons (c : Char) (cs : List Char) :
    encode (c :: cs) = String.utf8EncodeChar c ++ encode cs := List.flatMap_cons

theorem encode_ne_nil {cs : List Char} (h : cs ≠ []) : encode cs ≠ [] := by
  obtain ⟨c, cs, rfl⟩ := List.exists_cons_of_ne_nil h
  rw [encode_cons]
  exact List.append_ne_nil_of_left_ne_nil String.utf8EncodeChar_ne_nil _

theorem encode_eq_nil_iff {cs : List Char} : encode cs = [] ↔ cs = [] := by
  constructor
  · exact fun h => by_contra fun hne => encode_ne_nil hne h
  · rintro rfl
    rfl

theorem isContinuation_ofNat {n : Nat} (h : n < 256) :
    isContinuation (UInt8.ofNat n) = true ↔ 128 ≤ n ∧ n < 192 := by
  rw [isContinuation, UInt8.toNat_ofNat_of_lt' h, Bool.and_eq_true,
    decide_eq_true_iff, decide_eq_true_iff]

/-- One octet that is none, and then continuations. -/
theorem utf8EncodeChar_shape (c : Char) : ∃ b bs,
    String.utf8EncodeChar c = b :: bs ∧ isContinuation b = false ∧
      ∀ b' ∈ bs, isContinuation b' = true := by
  have hlast : ∀ n : Nat, isContinuation (UInt8.ofNat (n % 0x40 + 0x80)) =
      true := fun n => (isContinuation_ofNat (by omega)).2 (by omega)
  have hfirst : ∀ n : Nat, n < 128 ∨ 192 ≤ n → n < 256 →
      isContinuation (UInt8.ofNat n) = false := fun n hn hlt => by
    rw [← Bool.not_eq_true, isContinuation_ofNat hlt]
    omega
  fun_cases String.utf8EncodeChar c with
  | case1 v h => exact ⟨_, _, rfl, hfirst _ (by omega) (by omega), nofun⟩
  | case2 v _ h =>
      exact ⟨_, _, rfl, hfirst _ (by omega) (by omega),
        List.forall_mem_cons.2 ⟨hlast _, nofun⟩⟩
  | case3 v _ _ h =>
      exact ⟨_, _, rfl, hfirst _ (by omega) (by omega),
        List.forall_mem_cons.2 ⟨hlast _,
          List.forall_mem_cons.2 ⟨hlast _, nofun⟩⟩⟩
  | case4 v _ _ h =>
      exact ⟨_, _, rfl, hfirst _ (by omega) (by omega),
        List.forall_mem_cons.2 ⟨hlast _, List.forall_mem_cons.2 ⟨hlast _,
          List.forall_mem_cons.2 ⟨hlast _, nofun⟩⟩⟩⟩

/-- A text begins with an octet that is no continuation. -/
theorem head_encode {cs : List Char} (h : cs ≠ []) : ∃ b bs,
    encode cs = b :: bs ∧ isContinuation b = false := by
  obtain ⟨c, cs, rfl⟩ := List.exists_cons_of_ne_nil h
  obtain ⟨b, bs, hshape, hb, -⟩ := utf8EncodeChar_shape c
  exact ⟨b, bs ++ encode cs, by rw [encode_cons, hshape]; rfl, hb⟩

theorem startsAt_of_getElem? (cs : List Char) : ∀ {i : Nat} {b : UInt8},
    (encode cs)[i]? = some b → isContinuation b = false →
      StartsAt (encode cs) i := by
  induction cs with
  | nil => intro i b h; cases h
  | cons c cs ih =>
      intro i b h hb
      obtain ⟨first, rest, hshape, -, hrest⟩ := utf8EncodeChar_shape c
      rw [encode_cons] at h
      by_cases hi : i < (String.utf8EncodeChar c).length
      · -- inside of the first character only its own start is no continuation
        cases i with
        | zero => exact ⟨[], c, cs, rfl, rfl⟩
        | succ i =>
            rw [List.getElem?_append_left hi, hshape, List.getElem?_cons_succ] at h
            rw [hrest b (List.mem_of_getElem? h)] at hb
            cases hb
      · rw [List.getElem?_append_right (not_lt.1 hi)] at h
        obtain ⟨before, c', after, heq, hlen⟩ := ih h hb
        refine ⟨c :: before, c', after, ?_, ?_⟩
        · rw [List.cons_append, encode_cons, encode_cons, heq]
        · rw [encode_cons, List.length_append, ← hlen]
          omega

/-- Where characters start can be read off the octets. -/
theorem startsAt_iff {t : List UInt8} (ht : Valid t) {i : Nat} :
    StartsAt t i ↔ ∃ b, t[i]? = some b ∧ isContinuation b = false := by
  constructor
  · rintro ⟨before, c, after, rfl, rfl⟩
    obtain ⟨b, bs, hhead, hb⟩ := head_encode (List.cons_ne_nil c after)
    refine ⟨b, ?_, hb⟩
    rw [encode_append, hhead, List.getElem?_append_right (Nat.le_refl _),
      Nat.sub_self, List.getElem?_cons_zero]
  · obtain ⟨cs, rfl⟩ := ht
    rintro ⟨b, h, hb⟩
    exact startsAt_of_getElem? cs h hb

/-- A text that is found in another one begins where a character does. -/
theorem infix_iff {t p : List UInt8} (ht : Valid t) (hp : Valid p)
    (hne : p ≠ []) : p <:+: t ↔ ∃ i, StartsAt t i ∧ p <+: t.drop i := by
  constructor
  · rintro ⟨before, after, rfl⟩
    obtain ⟨cs, rfl⟩ := hp
    obtain ⟨b, bs, hhead, hb⟩ := head_encode (mt encode_eq_nil_iff.2 hne)
    refine ⟨before.length, (startsAt_iff ht).2 ⟨b, ?_, hb⟩, after, ?_⟩
    · rw [List.append_assoc, List.getElem?_append_right (Nat.le_refl _),
        Nat.sub_self, hhead]
      rfl
    · rw [List.append_assoc, List.drop_left]
  · rintro ⟨i, -, hbegins⟩
    exact hbegins.isInfix.trans (List.drop_suffix i t).isInfix

end Wwsearch.Lib.Utf8Text
