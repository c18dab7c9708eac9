import Wwsearch.Lib.Settles
import Wwsearch.Proofs.StoreWire
import Wwsearch.Proofs.TableKeys
import Wwsearch.Spec.Index

/-!
# The ends of a term

`UTF8SuffixBuilder` steps through a term by characters and counts what is left
in bytes. The proof follows the text: `next_utf8EncodeChar` is one character,
whatever its width, `next_builderAt_cons` one step of the builder in front of a
text, and `mem_terms` the walk, by induction on the characters behind the one
the builder stands at. A step that is refused for the minimum ends the walk,
and nothing is missed by that, since every later end is shorter still.

The loop ends on other bytes as well, because a step that is not an error moves
on by an octet at least.

A query does not look at terms but at keys, and a key has its term cut to the
length modulo `2 ^ 32`. The terms of a field with suffixes are too short for
that; a pattern need not be.
-/

namespace Wwsearch.Spec

open Wwsearch.Lib Wwsearch.Ref Utf8Text

/-! ## One character -/

theorem isTrail_ofNat : ∀ n < 256, Utf8.isTrail (UInt8.ofNat n) =
    decide (128 ≤ n ∧ n < 192) := by decide +kernel

theorem sequenceLength_ofNat : ∀ n < 256,
    Utf8.sequenceLength (UInt8.ofNat n) =
      if n < 128 then 1 else if n < 192 then 0 else if n < 224 then 2
      else if n < 240 then 3 else if n < 248 then 4 else 0 := by decide +kernel

/-- The mask cuts a part to its low bits. -/
theorem toNat_part {n k : Nat} (hn : n < 256) {shift mask : UInt32}
    (hshift : shift.toNat < 32) (hmask : mask.toNat = 2 ^ k - 1) (hk : k ≤ 32) :
    (Utf8.part (UInt8.ofNat n) shift mask).toNat =
      n * 2 ^ shift.toNat % 2 ^ k := by
  rw [Utf8.part, UInt32.toNat_and, hmask, Nat.and_two_pow_sub_one_eq_mod,
    UInt32.toNat_shiftLeft, Nat.mod_eq_of_lt hshift,
    Nat.mod_mod_of_dvd _ (Nat.pow_dvd_pow 2 hk), Nat.shiftLeft_eq,
    UInt8.toNat_toUInt32, UInt8.toNat_ofNat_of_lt' hn]

theorem toNat_val_lt (c : Char) : c.val.toNat < 0x110000 := by
  have hvalid : c.val.toNat < 0xd800 ∨
      0xdfff < c.val.toNat ∧ c.val.toNat < 0x110000 := c.valid
  omega

/-- A sequence that encodes a character decodes to it. -/
theorem getSequence_utf8EncodeChar (c : Char) (rest : Bytes) :
    Utf8.getSequence (String.utf8EncodeChar c).length
      (String.utf8EncodeChar c ++ rest) = some c.val := by
  have hval : ∀ {cp : UInt32}, cp.toNat = c.val.toNat → some cp = some c.val :=
    fun h => congrArg some (UInt32.toNat_inj.1 h)
  have hrange := toNat_val_lt c
  have htrail : ∀ n : Nat,
      Utf8.isTrail (UInt8.ofNat (n % 0x40 + 0x80)) = true := fun n => by
    rw [isTrail_ofNat _ (by omega), decide_eq_true_iff]
    omega
  have hlow : ∀ n : Nat, (Utf8.part (UInt8.ofNat (n % 0x40 + 0x80)) 0
      0x3f).toNat = n % 64 := fun n => by
    rw [toNat_part (k := 6) (by omega) (by decide) (by decide) (by decide)]
    show (n % 0x40 + 0x80) * 1 % 64 = n % 64
    omega
  fun_cases String.utf8EncodeChar c with
  | case1 v h =>
      refine hval ?_
      rw [UInt8.toNat_toUInt32, UInt8.toNat_ofNat']
      omega
  | case2 v _ h =>
      show (if Utf8.isTrail _ = true then _ else _) = _
      rw [if_pos (htrail _)]
      refine hval ?_
      rw [UInt32.toNat_add, hlow,
        toNat_part (k := 11) (by omega) (by decide) (by decide) (by decide)]
      show ((v / 64 % 0x20 + 0xc0) * 64 % 2048 + v % 64) % 4294967296 = v
      omega
  | case3 v _ _ h =>
      show (if (Utf8.isTrail _ && Utf8.isTrail _) = true then _ else _) = _
      rw [htrail, htrail, if_pos (Bool.and_self true)]
      refine hval ?_
      rw [UInt32.toNat_add, UInt32.toNat_add, hlow,
        toNat_part (k := 16) (by omega) (by decide) (by decide) (by decide),
        toNat_part (k := 12) (by omega) (by decide) (by decide) (by decide)]
      show (((v / 4096 % 0x10 + 0xe0) * 4096 % 65536 +
        (v / 64 % 0x40 + 0x80) * 64 % 4096) % 4294967296 + v % 64) %
          4294967296 = v
      omega
  | case4 v _ _ h =>
      show (if (Utf8.isTrail _ && Utf8.isTrail _ && Utf8.isTrail _) = true then _
        else _) = _
      rw [htrail, htrail, htrail, if_pos (by decide)]
      refine hval ?_
      rw [UInt32.toNat_add, UInt32.toNat_add, UInt32.toNat_add, hlow,
        toNat_part (k := 21) (by omega) (by decide) (by decide) (by decide),
        toNat_part (k := 18) (by omega) (by decide) (by decide) (by decide),
        toNat_part (k := 12) (by omega) (by decide) (by decide) (by decide)]
      show ((((v / 262144 % 0x08 + 0xf0) * 262144 % 2097152 +
        (v / 4096 % 0x40 + 0x80) * 4096 % 262144) % 4294967296 +
          (v / 64 % 0x40 + 0x80) * 64 % 4096) % 4294967296 + v % 64) %
            4294967296 = v
      omega

theorem isCodePointValid_val (c : Char) : Utf8.isCodePointValid c.val = true := by
  have hvalid : c.val.toNat < 0xd800 ∨
      0xdfff < c.val.toNat ∧ c.val.toNat < 0x110000 := c.valid
  rw [Utf8.isCodePointValid, Bool.and_eq_true, Bool.not_eq_true',
    Bool.and_eq_false_iff, decide_eq_true_iff, decide_eq_false_iff_not,
    decide_eq_false_iff_not, UInt32.le_iff_toNat_le, UInt32.le_iff_toNat_le,
    UInt32.le_iff_toNat_le]
  simp only [UInt32.reduceToNat]
  omega

theorem isOverlongSequence_iff (cp : UInt32) (n : Nat) :
    Utf8.isOverlongSequence cp n = false ↔
      (cp.toNat < 0x80 → n = 1) ∧
      (0x80 ≤ cp.toNat → cp.toNat < 0x800 → n = 2) ∧
      (0x800 ≤ cp.toNat → cp.toNat < 0x10000 → n = 3) := by
  rw [Utf8.isOverlongSequence]
  simp only [UInt32.lt_iff_toNat_lt, UInt32.reduceToNat]
  split_ifs <;> simp <;> omega

/-- The lead octet says how long the sequence is, and it is not too long. -/
theorem sequenceLength_utf8EncodeChar (c : Char) : ∃ b bs,
    String.utf8EncodeChar c = b :: bs ∧
      Utf8.sequenceLength b = (String.utf8EncodeChar c).length ∧
      Utf8.isOverlongSequence c.val (String.utf8EncodeChar c).length =
        false := by
  simp only [isOverlongSequence_iff]
  fun_cases String.utf8EncodeChar c with
  | case1 v h =>
      refine ⟨_, _, rfl, ?_, ?_⟩
      · rw [sequenceLength_ofNat _ (by omega), if_pos (by omega)]
        rfl
      · refine ⟨fun _ => ?_, fun _ _ => ?_, fun _ _ => ?_⟩ <;>
          simp only [List.length_cons, List.length_nil] <;> omega
  | case2 v _ h =>
      refine ⟨_, _, rfl, ?_, ?_⟩
      · rw [sequenceLength_ofNat _ (by omega), if_neg (by omega),
          if_neg (by omega), if_pos (by omega)]
        rfl
      · refine ⟨fun _ => ?_, fun _ _ => ?_, fun _ _ => ?_⟩ <;>
          simp only [List.length_cons, List.length_nil] <;> omega
  | case3 v _ _ h =>
      refine ⟨_, _, rfl, ?_, ?_⟩
      · rw [sequenceLength_ofNat _ (by omega), if_neg (by omega),
          if_neg (by omega), if_neg (by omega), if_pos (by omega)]
        rfl
      · refine ⟨fun _ => ?_, fun _ _ => ?_, fun _ _ => ?_⟩ <;>
          simp only [List.length_cons, List.length_nil] <;> omega
  | case4 v _ _ h =>
      have hrange : c.val.toNat < 0x110000 := toNat_val_lt c
      refine ⟨_, _, rfl, ?_, ?_⟩
      · rw [sequenceLength_ofNat _ (by omega), if_neg (by omega),
          if_neg (by omega), if_neg (by omega), if_neg (by omega),
          if_pos (by omega)]
        rfl
      · refine ⟨fun _ => ?_, fun _ _ => ?_, fun _ _ => ?_⟩ <;>
          simp only [List.length_cons, List.length_nil] <;> omega

/-- The walk takes a character whole, whatever comes behind it. -/
theorem next_utf8EncodeChar (c : Char) (rest : Bytes) :
    Utf8.next (String.utf8EncodeChar c ++ rest) =
      some (String.utf8EncodeChar c).length := by
  have hsequence := getSequence_utf8EncodeChar c rest
  obtain ⟨b, bs, hshape, hlength, hoverlong⟩ := sequenceLength_utf8EncodeChar c
  have hlead : String.utf8EncodeChar c ++ rest = b :: (bs ++ rest) := by
    rw [hshape]
    rfl
  rw [hlead] at hsequence ⊢
  rw [Utf8.next]
  simp only [hlength, hsequence, Option.bind_eq_bind, Option.bind_some,
    isCodePointValid_val, hoverlong, Bool.not_false, Bool.and_self, if_true]

/-! ## The walk -/

/-- A builder that stands in front of the character `c` of a text. -/
def builderAt (before : List Char) (c : Char) (cs : List Char)
    (minSuffixLen : Nat) : UTF8SuffixBuilder where
  buffer := encode (before ++ c :: cs)
  pos := (encode before).length
  minSuffixLen

theorem term_builderAt (before : List Char) (c : Char) (cs : List Char)
    (minLen : Nat) : (builderAt before c cs minLen).term = encode (c :: cs) := by
  rw [UTF8SuffixBuilder.term, builderAt, encode_append, List.drop_left]

/-- It goes on while there is another character and the minimum is left. -/
theorem next_builderAt_cons (before : List Char) (c d : Char) (cs : List Char)
    (minLen : Nat) : (builderAt before c (d :: cs) minLen).next =
      if minLen ≤ (encode (d :: cs)).length then
        some (builderAt (before ++ [c]) d cs minLen)
      else none := by
  have hpos : (encode (before ++ [c])).length =
      (encode before).length + (String.utf8EncodeChar c).length := by
    rw [encode_append, List.length_append]
    simp [encode]
  have hmore : 0 < (encode (d :: cs)).length :=
    List.length_pos_of_ne_nil (encode_ne_nil (List.cons_ne_nil d cs))
  have hlength : (encode (before ++ c :: d :: cs)).length =
      (encode before).length + (String.utf8EncodeChar c).length +
        (encode (d :: cs)).length := by
    rw [encode_append, encode_cons, List.length_append, List.length_append]
    omega
  rw [UTF8SuffixBuilder.next, term_builderAt, encode_cons, next_utf8EncodeChar,
    Option.bind_eq_bind, Option.bind_some]
  have hnew : builderAt (before ++ [c]) d cs minLen =
      { builderAt before c (d :: cs) minLen with
        pos := (encode before).length + (String.utf8EncodeChar c).length } := by
    rw [builderAt, hpos, List.append_assoc]
    rfl
  have hroom : (encode before).length + (String.utf8EncodeChar c).length <
        (encode (before ++ c :: d :: cs)).length ∧
      minLen ≤ (encode (before ++ c :: d :: cs)).length -
        ((encode before).length + (String.utf8EncodeChar c).length) ↔
      minLen ≤ (encode (d :: cs)).length := by
    rw [hlength]
    omega
  rw [hnew]
  by_cases hmin : minLen ≤ (encode (d :: cs)).length
  · rw [if_pos hmin]
    exact if_pos (hroom.2 hmin)
  · rw [if_neg hmin]
    exact if_neg fun h => hmin (hroom.1 h)

theorem next_builderAt_nil (before : List Char) (c : Char) (minLen : Nat) :
    (builderAt before c [] minLen).next = none := by
  have hlength : (encode (before ++ [c])).length =
      (encode before).length + (String.utf8EncodeChar c).length := by
    rw [encode_append, List.length_append]
    simp [encode]
  rw [UTF8SuffixBuilder.next, term_builderAt, encode_cons, next_utf8EncodeChar,
    Option.bind_eq_bind, Option.bind_some]
  refine if_neg fun h => ?_
  have hlt : (encode before).length + (String.utf8EncodeChar c).length <
      (encode (before ++ [c])).length := h.1
  omega

theorem length_encode_le {suf cs : List Char} (h : suf <:+ cs) :
    (encode suf).length ≤ (encode cs).length := by
  obtain ⟨r, rfl⟩ := h
  rw [encode_append, List.length_append]
  omega

theorem length_le_encode (cs : List Char) : cs.length ≤ (encode cs).length := by
  induction cs with
  | nil => exact Nat.le_refl 0
  | cons c cs ih =>
      have hpos := List.length_pos_of_ne_nil
        (String.utf8EncodeChar_ne_nil (c := c))
      rw [encode_cons, List.length_append, List.length_cons]
      omega

/-- An end of a text that is as long is all of it. -/
theorem eq_of_suffix {suf cs : List Char} (h : suf <:+ cs)
    (hlen : (encode cs).length ≤ (encode suf).length) : suf = cs := by
  obtain ⟨r, rfl⟩ := h
  have hr := length_le_encode r
  rw [encode_append, List.length_append] at hlen
  rw [List.length_eq_zero_iff.1 (show r.length = 0 by omega)]
  rfl

/-- The walk takes the text it stands in front of, and every end of it that has
the minimal length. -/
theorem mem_terms (cs : List Char) : ∀ (before : List Char) (c : Char)
    (fuel minLen : Nat) (x : Bytes), cs.length ≤ fuel →
    (x ∈ (builderAt before c cs minLen).terms fuel ↔
      ∃ suf, suf ≠ [] ∧ suf <:+ c :: cs ∧ x = encode suf ∧
        (suf = c :: cs ∨ minLen ≤ (encode suf).length)) := by
  induction cs with
  | nil =>
      intro before c fuel minLen x _
      have hterms : (builderAt before c [] minLen).terms fuel =
          [encode [c]] := by
        cases fuel with
        | zero => rw [UTF8SuffixBuilder.terms, term_builderAt]
        | succ fuel =>
            rw [UTF8SuffixBuilder.terms, next_builderAt_nil, term_builderAt]
      rw [hterms, List.mem_singleton]
      constructor
      · rintro rfl
        exact ⟨[c], List.cons_ne_nil _ _, List.suffix_refl _, rfl, .inl rfl⟩
      · rintro ⟨suf, hne, hsuf, rfl, -⟩
        rcases List.suffix_cons_iff.1 hsuf with rfl | hsuf
        · rfl
        · exact absurd (List.suffix_nil.1 hsuf) hne
  | cons d cs ih =>
      intro before c fuel minLen x hfuel
      obtain ⟨fuel, rfl⟩ := Nat.exists_eq_succ_of_ne_zero
        (Nat.ne_zero_of_lt hfuel)
      rw [UTF8SuffixBuilder.terms, next_builderAt_cons, term_builderAt]
      by_cases hmin : minLen ≤ (encode (d :: cs)).length
      · rw [if_pos hmin]
        dsimp only
        rw [List.mem_cons, ih _ _ _ _ _ (Nat.le_of_succ_le_succ hfuel)]
        constructor
        · rintro (rfl | ⟨suf, hne, hsuf, rfl, hlen⟩)
          · exact ⟨_, List.cons_ne_nil _ _, List.suffix_refl _, rfl, .inl rfl⟩
          · refine ⟨suf, hne, hsuf.trans (List.suffix_cons c _), rfl, .inr ?_⟩
            exact hlen.elim (fun h => h ▸ hmin) id
        · rintro ⟨suf, hne, hsuf, rfl, hlen⟩
          rcases List.suffix_cons_iff.1 hsuf with rfl | hsuf
          · exact .inl rfl
          · rcases hlen with rfl | hlen
            · exact .inl rfl
            · exact .inr ⟨suf, hne, hsuf, rfl, .inr hlen⟩
      · rw [if_neg hmin, List.mem_singleton]
        constructor
        · rintro rfl
          exact ⟨_, List.cons_ne_nil _ _, List.suffix_refl _, rfl, .inl rfl⟩
        · rintro ⟨suf, -, hsuf, rfl, hlen⟩
          rcases List.suffix_cons_iff.1 hsuf with rfl | hsuf
          · rfl
          · -- a proper end is shorter than the one that was refused
            have hle := length_encode_le hsuf
            exact hlen.elim (congrArg encode) fun h => absurd (h.trans hle) hmin

/-! ## The loop ends -/

theorem pos_of_next {rest : Bytes} {n : Nat} (h : Utf8.next rest = some n) :
    0 < n := by
  cases rest with
  | nil => cases h
  | cons lead rest =>
      obtain ⟨cp, hsequence, hcheck⟩ := Option.bind_eq_some_iff.1 h
      have hlength : Utf8.sequenceLength lead ≠ 0 := fun h0 => by
        rw [h0] at hsequence
        cases hsequence
      split at hcheck
      · rw [← Option.some.inj hcheck]
        exact Nat.pos_of_ne_zero hlength
      · cases hcheck

/-- A step moves the builder on in the same buffer. -/
theorem next_moves {b b' : UTF8SuffixBuilder} (h : b.next = some b') :
    b.pos < b'.pos ∧ b'.buffer = b.buffer := by
  obtain ⟨step, hstep, hmove⟩ := Option.bind_eq_some_iff.1 h
  dsimp only at hmove
  split at hmove
  · rw [← Option.some.inj hmove]
    exact ⟨Nat.lt_add_of_pos_right (pos_of_next hstep), rfl⟩
  · cases hmove

theorem termsLoop_eq (n : Nat) : ∀ (b : UTF8SuffixBuilder) (fuel : Nat),
    b.buffer.length - b.pos ≤ n → n < fuel →
      b.termsLoop fuel = some (b.terms n) := by
  induction n with
  | zero =>
      intro b fuel hleft hfuel
      obtain ⟨fuel, rfl⟩ := Nat.exists_eq_succ_of_ne_zero hfuel.ne'
      have hterm : b.term = [] := List.drop_eq_nil_of_le (by omega)
      have hnext : b.next = none := by
        rw [UTF8SuffixBuilder.next, hterm]
        rfl
      rw [UTF8SuffixBuilder.termsLoop, hnext]
      rfl
  | succ n ih =>
      intro b fuel hleft hfuel
      obtain ⟨fuel, rfl⟩ := Nat.exists_eq_succ_of_ne_zero
        (Nat.ne_zero_of_lt hfuel)
      rw [UTF8SuffixBuilder.termsLoop, UTF8SuffixBuilder.terms]
      cases hnext : b.next with
      | none => rfl
      | some b' =>
          obtain ⟨hpos, hbuffer⟩ := next_moves hnext
          dsimp only
          rw [ih b' fuel (by rw [hbuffer]; omega) (by omega)]
          rfl

/-- The loop comes to its end on any bytes, text or not. -/
theorem termsLoop_settles (term : Bytes) (suffixLen : UInt32) :
    Settles (fun fuel => (UTF8SuffixBuilder.init term suffixLen).termsLoop fuel)
      ((UTF8SuffixBuilder.init term suffixLen).terms term.length) :=
  ⟨term.length + 1, fun fuel hfuel => termsLoop_eq term.length _ fuel
    (Nat.sub_le _ _) (Nat.lt_of_succ_le hfuel)⟩

/-! ## The indexed terms -/

section Field

variable {config : IndexConfig} {field : IndexField}

variable (hsuffix : field.flag.suffixBuild = true)
  (hstring : field.fieldType = kStringIndexField)

include hsuffix hstring

theorem mem_indexedTerms {cs : List Char}
    (hsize : (encode cs).length ≤ config.maxSuffixTermSize.toNat) {x : Bytes} :
    x ∈ indexedTerms config field (encode cs) ↔
      ∃ suf, suf ≠ [] ∧ suf <:+ cs ∧ x = encode suf ∧
        (suf = cs ∨ field.effectiveSuffixLen.toNat ≤ (encode suf).length) := by
  cases cs with
  | nil =>
      refine ⟨fun h => absurd h List.not_mem_nil, ?_⟩
      rintro ⟨suf, hne, hsuf, -⟩
      exact absurd (List.suffix_nil.1 hsuf) hne
  | cons c cs =>
      have hterms : indexedTerms config field (encode (c :: cs)) =
          (builderAt [] c cs (min field.effectiveSuffixLen.toNat
            (encode (c :: cs)).length)).terms (encode (c :: cs)).length := by
        rw [indexedTerms, if_neg (encode_ne_nil (List.cons_ne_nil c cs)),
          DocumentWriter.expandTerm, if_pos ⟨hsuffix, hstring, hsize⟩]
        rfl
      have hfuel := (Nat.le_succ _).trans (length_le_encode (c :: cs))
      rw [hterms, mem_terms cs [] c _ _ x hfuel]
      refine exists_congr fun suf => and_congr_right fun _ =>
        and_congr_right fun hsuf => and_congr_right fun _ => ?_
      refine ⟨fun h => ?_, fun h => h.imp_right (min_le_left _ _).trans⟩
      rcases h with h | h
      · exact .inl h
      · -- the minimum is cut to the length of the term
        rcases min_le_iff.1 h with h | h
        · exact .inr h
        · exact .inl (eq_of_suffix hsuf h)

/-- What an indexed term begins with is what occurs where an end is taken. -/
theorem starts_iff {t : Bytes} (ht : Valid t)
    (hsize : t.length ≤ config.maxSuffixTermSize.toNat) (p : Bytes) :
    (∃ term ∈ indexedTerms config field t, p <+: term) ↔
      OccursFrom field.effectiveSuffixLen.toNat t p := by
  constructor
  · obtain ⟨cs, rfl⟩ := ht
    rintro ⟨term, hterm, hbegins⟩
    obtain ⟨suf, hne, ⟨before, rfl⟩, rfl, hlen⟩ :=
      (mem_indexedTerms hsuffix hstring hsize).1 hterm
    obtain ⟨c, after, rfl⟩ := List.exists_cons_of_ne_nil hne
    refine ⟨(encode before).length, ⟨before, c, after, rfl, rfl⟩, ?_, ?_⟩
    · rwa [encode_append, List.drop_left]
    · rw [encode_append, List.length_append, Nat.add_sub_cancel_left]
      refine hlen.imp_left fun h => ?_
      rw [List.self_eq_append_left.1 h]
      rfl
  · rintro ⟨i, ⟨before, c, after, rfl, rfl⟩, hbegins, hlen⟩
    rw [encode_append, List.drop_left] at hbegins
    rw [encode_append, List.length_append, Nat.add_sub_cancel_left] at hlen
    refine ⟨encode (c :: after), (mem_indexedTerms hsuffix hstring hsize).2
      ⟨c :: after, List.cons_ne_nil _ _, List.suffix_append _ _, rfl, ?_⟩, hbegins⟩
    refine hlen.imp_left fun h => ?_
    rw [encode_eq_nil_iff.1 (List.length_eq_zero_iff.1 h)]
    rfl

/-- The terms are short enough for their keys, and so a scan that is not cut
looks at their bytes. -/
theorem scanHits_iff {table : TableID} {t : Bytes} (ht : Valid t)
    (hsize : t.length ≤ config.maxSuffixTermSize.toNat) (p : Bytes) :
    (∃ term ∈ indexedTerms config field t,
      ScanHits table field.fieldId p term) ↔
      OccursFrom field.effectiveSuffixLen.toNat t (p.take (p.length % 2 ^ 32)) := by
  rw [← starts_iff hsuffix hstring ht hsize]
  refine exists_congr fun term => and_congr_right fun hterm => ?_
  have hshort : term.length < 2 ^ 32 := by
    obtain ⟨cs, rfl⟩ := ht
    obtain ⟨suf, -, hsuf, rfl, -⟩ :=
      (mem_indexedTerms hsuffix hstring hsize).1 hterm
    have hle := length_encode_le hsuf
    have hmax := config.maxSuffixTermSize.toNat_lt
    omega
  have hkey : encodeInvertedKey table field.fieldId p =
      encodeMetaKey table ++ field.fieldId :: p.take (p.length % 2 ^ 32) := by
    rw [encodeInvertedKey_cut, Nat.toUInt32, UInt32.toNat_ofNat']
  rw [ScanHits, List.isPrefixOf_iff_prefix, hkey, encodeInvertedKey_eq hshort,
    List.prefix_append_right_inj, List.cons_prefix_cons]
  exact and_iff_right rfl

end Field

/-- A pattern of the minimal length occurs where it can be found. -/
theorem occursFrom_iff {suffixLen : Nat} {t p : Bytes} (ht : Valid t)
    (hp : Valid p) (hne : p ≠ []) (hlen : suffixLen ≤ p.length) :
    OccursFrom suffixLen t p ↔ p <:+: t := by
  rw [infix_iff ht hp hne, OccursFrom]
  refine exists_congr fun i => and_congr_right fun _ =>
    ⟨And.left, fun hbegins => ⟨hbegins, .inr ?_⟩⟩
  have hle := hbegins.length_le
  rw [List.length_drop] at hle
  exact hlen.trans hle

/-- **Suffixes and prefixes make substrings.** The expansion of a term ends,
whatever its bytes are. A pattern begins some indexed term of a text if and only
if it occurs at a character that an end is taken from, and a pattern of the
minimal length hits exactly the texts it is a substring of, as long as its
length fits into 32 bits; a longer one is cut by its key, and must not occur as
it is then. -/
theorem suffixSearch_iff {config : IndexConfig} {table : TableID}
    {field : IndexField} {t p : Bytes}
    (hsuffix : field.flag.suffixBuild = true)
    (hstring : field.fieldType = kStringIndexField)
    (hsize : t.length ≤ config.maxSuffixTermSize.toNat) (ht : Valid t)
    (hp : Valid p) (hne : p ≠ []) :
    (∀ (term : Bytes) (suffixLen : UInt32),
      Settles (fun fuel =>
          (UTF8SuffixBuilder.init term suffixLen).termsLoop fuel)
        ((UTF8SuffixBuilder.init term suffixLen).terms term.length)) ∧
    (SuffixSearch config table field t p ↔
      (2 ^ 32 ≤ p.length → ¬ OccursFrom field.effectiveSuffixLen.toNat t
        (p.take (p.length % 2 ^ 32)))) := by
  refine ⟨termsLoop_settles, ?_⟩
  have hhits := @scanHits_iff config field hsuffix hstring table t ht hsize p
  by_cases hfit : p.length < 2 ^ 32
  · refine iff_of_true ⟨starts_iff hsuffix hstring ht hsize p, fun hlen => ?_⟩
      fun hlong => absurd hfit (not_lt.2 hlong)
    rw [hhits, Nat.mod_eq_of_lt hfit, List.take_length,
      occursFrom_iff ht hp hne hlen]
  · have hlong := not_lt.1 hfit
    have hmax := config.maxSuffixTermSize.toNat_lt
    have hnot : ¬ p <:+: t := fun h => by
      have hle := h.length_le
      omega
    have hlen : field.effectiveSuffixLen.toNat ≤ p.length :=
      (field.effectiveSuffixLen.toNat_lt.trans_le hlong).le
    constructor
    · rintro ⟨-, hsearch⟩ -
      rw [← hhits, hsearch hlen]
      exact hnot
    · intro hcut
      refine ⟨starts_iff hsuffix hstring ht hsize p, fun _ => ?_⟩
      rw [hhits]
      exact iff_of_false (hcut hlong) hnot

/-- Characters of one, two, three and four octets, a minimum of three octets,
and a pattern of the last two. -/
theorem suffixSearch_iff_fourWidths :
    SuffixSearch spaceConfig ⟨1, 2⟩
      { fieldId := 3, flag := ⟨8⟩, fieldType := kStringIndexField,
        suffixLen := 3 }
      (encode ['a', 'é', '中', '😀']) (encode ['中', '😀']) :=
  (suffixSearch_iff rfl rfl (by decide) ⟨_, rfl⟩ ⟨_, rfl⟩ (by decide)).2.2
    fun h => absurd h (by decide)

theorem encode_replicate (n : Nat) :
    encode (List.replicate n 'a') = List.replicate n 97 := by
  induction n with
  | zero => rfl
  | succ n ih => rw [List.replicate_succ, encode_cons, ih]; rfl

/-- A pattern of one octet more than 32 bits can count: its key is that of one
octet, and the scan hits a term that is shorter than the pattern. -/
theorem longPattern_hits :
    let field : IndexField :=
      { fieldId := 3, flag := ⟨8⟩, fieldType := kStringIndexField }
    let p := encode (List.replicate (2 ^ 32 + 1) 'a')
    Valid [97] ∧ Valid p ∧ p ≠ [] ∧
      ¬ SuffixSearch spaceConfig ⟨1, 2⟩ field [97] p := by
  intro field p
  have hp : p = List.replicate (2 ^ 32 + 1) 97 := encode_replicate _
  have hlen : p.length = 2 ^ 32 + 1 := by rw [hp, List.length_replicate]
  have hvalid : Valid [97] := ⟨['a'], rfl⟩
  have hsuffix : field.flag.suffixBuild = true := by decide
  refine ⟨hvalid, ⟨_, rfl⟩, fun h => ?_, fun h => ?_⟩
  · rw [h] at hlen
    cases hlen
  · have hcut : p.take (p.length % 2 ^ 32) = [97] := by
      rw [hlen, hp, List.take_replicate]
      rfl
    have hscan := (@scanHits_iff spaceConfig field hsuffix rfl ⟨1, 2⟩ [97]
      hvalid (by decide) p).2 (by
        rw [hcut]
        exact ⟨0, ⟨[], 'a', [], rfl, rfl⟩, List.prefix_refl _, .inl rfl⟩)
    have hinfix := (h.hits (by rw [hlen]; decide)).1 hscan
    have hle := hinfix.length_le
    rw [hlen] at hle
    exact absurd hle (by decide)

end Wwsearch.Spec
