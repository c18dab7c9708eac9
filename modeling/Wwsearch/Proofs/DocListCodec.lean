import Wwsearch.Ref.DocList
import Wwsearch.Spec.Cursor
import Wwsearch.Spec.Merge

/-!
# A doc list survives both layouts

The varints of the source are the base-128 numbers of `Lib.Varint`, read and
written in machine words: the two writers as such (`encodeVarint64_eq`,
`encodeVarint32_eq`), the two readers as one loop over words of either size
(`loop_eq_decode`). On top of that, each writer accepts every strictly descending
list, and the decoder gives the list back (`docListOf_writeDocList`).

The delete positions are the only place where the length of a list shows: they
are stored modulo `2 ^ 32`, so a tombstone past that point would be read back
in the wrong place.
-/

namespace Wwsearch.Ref

open Wwsearch.Lib Wwsearch.Spec

/-! ## Words and bytes -/

theorem and_128_iff : ∀ n < 256, n &&& 128 ≠ 0 ↔ 128 ≤ n := by decide +kernel

theorem or_128_eq : ∀ n < 256, n ||| 128 = n % 128 + 128 := by decide +kernel

theorem and_127_eq : ∀ n < 256, n &&& 127 = n % 128 := by decide +kernel

theorem byte_and_128 (b : UInt8) : b &&& 128 ≠ 0 ↔ 128 ≤ b.toNat := by
  rw [← and_128_iff b.toNat b.toNat_lt, Ne, Ne, ← UInt8.toNat_inj,
    UInt8.toNat_and]
  rfl

theorem byte_and_127 (b : UInt8) : (b &&& 127).toNat = b.toNat % 128 := by
  rw [UInt8.toNat_and]
  exact and_127_eq b.toNat b.toNat_lt

theorem or_128_mod (v : Nat) : (v ||| 128) % 256 = v % 128 + 128 := by
  have h := Nat.or_mod_two_pow (a := v) (b := 128) (n := 8)
  rw [show (2 : Nat) ^ 8 = 256 from rfl, show 128 % 256 = 128 from rfl,
    or_128_eq _ (Nat.mod_lt _ (by omega)), Nat.mod_mod_of_dvd _ (by omega)] at h
  exact h

theorem or_shiftLeft {acc s m : Nat} (h : acc < 2 ^ s) :
    acc ||| (m <<< s) = acc + m * 2 ^ s := by
  rw [Nat.or_comm, Nat.shiftLeft_eq, Nat.mul_comm,
    ← Nat.two_pow_add_eq_or_of_lt h, Nat.add_comm]

theorem toUInt8_eq_ofNat64 (v : UInt64) : v.toUInt8 = UInt8.ofNat v.toNat := by
  rw [← UInt8.toNat_inj, UInt64.toNat_toUInt8, UInt8.toNat_ofNat']

theorem toUInt8_eq_ofNat32 (v : UInt32) : v.toUInt8 = UInt8.ofNat v.toNat := by
  rw [← UInt8.toNat_inj, UInt32.toNat_toUInt8, UInt8.toNat_ofNat']

theorem ofNat_mod {v : Nat} : UInt8.ofNat (v % 256) = UInt8.ofNat v := by
  rw [← UInt8.toNat_inj, UInt8.toNat_ofNat', UInt8.toNat_ofNat',
    show (2 : Nat) ^ 8 = 256 from rfl, Nat.mod_mod]

/-! ## Varints -/

theorem encodeVarint64_loop_eq (k : Nat) (v : UInt64) :
    encodeVarint64.loop k v = Varint.encode k v.toNat := by
  induction k generalizing v with
  | zero => rw [encodeVarint64.loop, Varint.encode, toUInt8_eq_ofNat64]
  | succ k ih =>
      have hge : 128 ≤ v ↔ ¬ v.toNat < 128 := by
        rw [UInt64.le_iff_toNat_le]
        exact not_lt.symm
      rw [encodeVarint64.loop, Varint.encode]
      split
      · next h =>
          rw [if_neg (hge.1 h), ih, toUInt8_eq_ofNat64, ← ofNat_mod,
            UInt64.toNat_or, UInt64.toNat_and, UInt64.toNat_shiftRight]
          congr 2
          · have hlow : v.toNat &&& 127 = v.toNat % 128 :=
              Nat.and_two_pow_sub_one_eq_mod v.toNat 7
            refine (or_128_mod _).trans ?_
            rw [show (127 : UInt64).toNat = 127 from rfl, hlow, Nat.mod_mod]
          · exact Nat.shiftRight_eq_div_pow _ _
      · next h => rw [if_pos (not_not.1 fun h' => h (hge.2 h')),
          toUInt8_eq_ofNat64]

theorem encodeVarint64_eq (v : UInt64) :
    encodeVarint64 v = Varint.encode 9 v.toNat := encodeVarint64_loop_eq 9 v

theorem encodeVarint32_eq (v : UInt32) :
    encodeVarint32 v = Varint.encode 4 v.toNat := by
  have hhigh : ∀ w : UInt32,
      (w ||| 128).toUInt8 = UInt8.ofNat (w.toNat % 128 + 128) := by
    intro w
    rw [toUInt8_eq_ofNat32, ← ofNat_mod, UInt32.toNat_or]
    exact congrArg UInt8.ofNat (or_128_mod w.toNat)
  have hshift : ∀ n : UInt32, n.toNat < 32 →
      (v >>> n).toNat = v.toNat / 2 ^ n.toNat := by
    intro n hn
    rw [UInt32.toNat_shiftRight, Nat.mod_eq_of_lt hn, Nat.shiftRight_eq_div_pow]
  have h7 := hshift 7 (by decide)
  have h14 := hshift 14 (by decide)
  have h21 := hshift 21 (by decide)
  have h28 := hshift 28 (by decide)
  simp only [UInt32.reduceToNat, Nat.reducePow] at h7 h14 h21 h28
  have hd : ∀ a b c : Nat, a / b / c = a / (b * c) := fun a b c =>
    Nat.div_div_eq_div_mul a b c
  simp only [encodeVarint32, UInt32.lt_iff_toNat_lt, UInt32.reduceToNat, hhigh,
    toUInt8_eq_ofNat32, h7, h14, h21, h28, Varint.encode, hd, Nat.reduceMul]
  by_cases h₁ : v.toNat < 128
  · simp [h₁]
  by_cases h₂ : v.toNat < 16384
  · have h₂' : v.toNat / 128 < 128 := by omega
    simp [h₁, h₂, h₂']
  by_cases h₃ : v.toNat < 2097152
  · have h₂' : ¬ v.toNat / 128 < 128 := by omega
    have h₃' : v.toNat / 16384 < 128 := by omega
    simp [h₁, h₂, h₂', h₃, h₃']
  have h₂' : ¬ v.toNat / 128 < 128 := by omega
  have h₃' : ¬ v.toNat / 16384 < 128 := by omega
  by_cases h₄ : v.toNat < 268435456
  · have h₄' : v.toNat / 2097152 < 128 := by omega
    simp [h₁, h₂, h₂', h₃, h₃', h₄, h₄']
  · have h₄' : ¬ v.toNat / 2097152 < 128 := by omega
    simp [h₁, h₂, h₂', h₃, h₃', h₄, h₄']

/-! The two readers have one loop, over words of 64 and of 32 bits. -/

section Words

variable {W : Type} {toNat : W → Nat} {bits : Nat}
  {loop : Nat → W → W → Bytes → Option (W × Bytes)} {next : W → W}
  {group : W → W → UInt8 → W}

/-- Inside its bits the reader's word is the number read so far. -/
theorem loop_eq_decode
    (hloop : ∀ k shift result b input, loop (k + 1) shift result (b :: input) =
      if b &&& 128 ≠ 0 then loop k (next shift) (group shift result (b &&& 127))
        input
      else some (group shift result b, input))
    (hnext : ∀ shift, toNat shift + 7 < bits →
      toNat (next shift) = toNat shift + 7)
    (hgroup : ∀ (shift result : W) (b : UInt8), toNat shift < bits →
      toNat result < 2 ^ toNat shift →
      toNat result + b.toNat * 2 ^ toNat shift < 2 ^ bits →
      toNat (group shift result b) =
        toNat result + b.toNat * 2 ^ toNat shift) {k : Nat} :
    ∀ {shift result : W} {v : Nat} {input rest : Bytes},
    toNat shift + 7 * k < bits + 7 → toNat result < 2 ^ toNat shift →
    v < 2 ^ bits →
    Varint.decode k (toNat shift) (toNat result) input = some (v, rest) →
    ∃ word, toNat word = v ∧ loop k shift result input = some (word, rest) := by
  induction k with
  | zero => intro shift result v input rest _ _ _ h; cases h
  | succ k ih =>
      intro shift result v input rest hs hr hv h
      cases input with
      | nil => cases h
      | cons b input =>
          have hshift : toNat shift < bits := by omega
          rw [Varint.decode] at h
          rw [hloop]
          split at h
          · next hb =>
              rw [if_pos ((byte_and_128 b).2 hb)]
              cases k with
              | zero => cases h
              | succ k =>
                  -- the group fits, because the number it is part of does
                  have hfits := (Varint.le_of_decode h).trans_lt hv
                  have hs' := hnext shift (by omega)
                  rw [← byte_and_127] at h hfits
                  have hr' := hgroup shift result _ hshift hr hfits
                  refine ih (by omega) ?_ hv ?_
                  · rw [hr', hs', Nat.pow_add, byte_and_127]
                    have hmod := Nat.mod_lt b.toNat (show 0 < 128 by omega)
                    have hmul : b.toNat % 128 * 2 ^ toNat shift ≤
                        127 * 2 ^ toNat shift :=
                      Nat.mul_le_mul_right _ (by omega)
                    omega
                  · rw [hr', hs']
                    exact h
          · next hb =>
              obtain ⟨rfl, rfl⟩ := Prod.mk.inj (Option.some.inj h)
              rw [if_neg fun h' => hb ((byte_and_128 b).1 h')]
              exact ⟨_, hgroup shift result b hshift hr hv, rfl⟩

end Words

theorem or_toUInt64 {shift result : UInt64} {b : UInt8}
    (hs : shift.toNat < 64) (hr : result.toNat < 2 ^ shift.toNat)
    (hfits : result.toNat + b.toNat * 2 ^ shift.toNat < 2 ^ 64) :
    (result ||| b.toUInt64 <<< shift).toNat =
      result.toNat + b.toNat * 2 ^ shift.toNat := by
  rw [UInt64.toNat_or, UInt64.toNat_shiftLeft, UInt8.toNat_toUInt64,
    Nat.mod_eq_of_lt hs, Nat.mod_eq_of_lt (by rw [Nat.shiftLeft_eq]; omega),
    or_shiftLeft hr]

theorem or_toUInt32 {shift result : UInt32} {b : UInt8}
    (hs : shift.toNat < 32) (hr : result.toNat < 2 ^ shift.toNat)
    (hfits : result.toNat + b.toNat * 2 ^ shift.toNat < 2 ^ 32) :
    (result ||| b.toUInt32 <<< shift).toNat =
      result.toNat + b.toNat * 2 ^ shift.toNat := by
  rw [UInt32.toNat_or, UInt32.toNat_shiftLeft, UInt8.toNat_toUInt32,
    Nat.mod_eq_of_lt hs, Nat.mod_eq_of_lt (by rw [Nat.shiftLeft_eq]; omega),
    or_shiftLeft hr]

theorem getVarint64_encode (v : UInt64) (rest : Bytes) :
    getVarint64 (encodeVarint64 v ++ rest) = some (v, rest) := by
  have h := Varint.decode_encode 9 v.toNat 0 0 rest
    (v.toNat_lt.trans (by decide))
  rw [Nat.zero_add, Nat.pow_zero, Nat.mul_one] at h
  obtain ⟨word, hword, hread⟩ := @loop_eq_decode UInt64 UInt64.toNat 64
    getVarint64Ptr.loop (· + 7) (fun shift result b =>
      result ||| b.toUInt64 <<< shift) (fun _ _ _ _ _ => rfl)
    (fun shift hs => (UInt64.toNat_add shift 7).trans
      (Nat.mod_eq_of_lt (hs.trans (by decide))))
    (fun _ _ _ => or_toUInt64) 10 0 0 _ _ _ (by decide) (by decide) v.toNat_lt h
  rw [getVarint64, encodeVarint64_eq, hread, UInt64.toNat_inj.1 hword]

/-- The fast path reads what the loop would have read. -/
theorem getVarint32_eq (input : Bytes) :
    getVarint32 input = getVarint32PtrFallback.loop 5 0 0 input := by
  cases input with
  | nil => rfl
  | cons b p =>
      simp only [getVarint32]
      split
      · next hb =>
          rw [getVarint32PtrFallback.loop, if_neg (not_not.2 hb), UInt32.zero_or,
            UInt32.shiftLeft_zero]
      · rfl

theorem getVarint32_encode (v : UInt32) (rest : Bytes) :
    getVarint32 (encodeVarint32 v ++ rest) = some (v, rest) := by
  have h := Varint.decode_encode 4 v.toNat 0 0 rest
    (v.toNat_lt.trans (by decide))
  rw [Nat.zero_add, Nat.pow_zero, Nat.mul_one] at h
  obtain ⟨word, hword, hread⟩ := @loop_eq_decode UInt32 UInt32.toNat 32
    getVarint32PtrFallback.loop (· + 7) (fun shift result b =>
      result ||| b.toUInt32 <<< shift) (fun _ _ _ _ _ => rfl)
    (fun shift hs => (UInt32.toNat_add shift 7).trans
      (Nat.mod_eq_of_lt (hs.trans (by decide))))
    (fun _ _ _ => or_toUInt32) 5 0 0 _ _ _ (by decide) (by decide) v.toNat_lt h
  rw [getVarint32_eq, encodeVarint32_eq, hread, UInt32.toNat_inj.1 hword]

/-! ## The fixed layout -/

/-- The body of the fixed layout. -/
def fixBody (docs : List DocList) : Bytes :=
  docs.flatMap fun doc => Word.toLE 8 doc.docId.toNat ++ [doc.docState]

theorem fixBody_cons (doc : DocList) (rest : List DocList) :
    fixBody (doc :: rest) =
      Word.toLE 8 doc.docId.toNat ++ [doc.docState] ++ fixBody rest :=
  List.flatMap_cons

theorem records_fixBody (docs : List DocList) : ∀ fuel : Nat,
    docs.length ≤ fuel → DocList.records fuel (fixBody docs) = some docs := by
  induction docs with
  | nil => intro fuel _; cases fuel <;> rfl
  | cons doc rest ih =>
      intro fuel hf
      cases fuel with
      | zero => exact absurd hf (by simp)
      | succ fuel =>
          have hword : (Word.toLE 8 doc.docId.toNat).length = 8 :=
            Word.toLE_length _ _
          have htake : (fixBody (doc :: rest)).take 8 =
              Word.toLE 8 doc.docId.toNat := by
            rw [fixBody_cons, List.append_assoc, List.take_append_of_le_length
              hword.ge, List.take_of_length_le hword.le]
          have hdrop : (fixBody (doc :: rest)).drop 8 =
              doc.docState :: fixBody rest := by
            rw [fixBody_cons, List.append_assoc, List.drop_left' hword,
              List.singleton_append]
          have hdrop' : (fixBody (doc :: rest)).drop 9 = fixBody rest := by
            rw [show (9 : Nat) = 8 + 1 from rfl, ← List.drop_drop, hdrop,
              List.drop_one, List.tail_cons]
          have hlen : 9 ≤ (fixBody (doc :: rest)).length := by
            rw [fixBody_cons, List.length_append, List.length_append, hword]
            simp
          obtain ⟨b, body, hb⟩ : ∃ b body, fixBody (doc :: rest) = b :: body := by
            cases h : fixBody (doc :: rest) with
            | nil => rw [h] at hlen; exact absurd hlen (by simp)
            | cons b body => exact ⟨b, body, rfl⟩
          rw [hb] at htake hdrop hdrop' hlen ⊢
          rw [DocList.records, if_neg (not_lt.2 hlen), hdrop', htake, hdrop,
            Word.ofNat_ofLE_toLE, ih fuel (by simpa using hf)]
          rfl

theorem length_le_fixBody (docs : List DocList) :
    docs.length ≤ (fixBody docs).length := by
  induction docs with
  | nil => exact Nat.zero_le _
  | cons doc rest ih =>
      rw [fixBody_cons, List.length_append, List.length_append, List.length_cons,
        List.length_singleton]
      omega

theorem length_fixBody (docs : List DocList) :
    (fixBody docs).length = 9 * docs.length := by
  induction docs with
  | nil => rfl
  | cons doc rest ih =>
      rw [fixBody_cons, List.length_append, List.length_append, Word.toLE_length,
        List.length_singleton, List.length_cons, ih]
      omega

theorem addDocID_order_foldlM (docs : List DocList) : ∀ data : Bytes,
    docs.foldlM (fun writer doc => writer.addDocID doc.docId doc.docState)
      (DocListWriterCodec.order data) = some (.order (data ++ fixBody docs)) := by
  induction docs with
  | nil => intro data; rw [fixBody, List.flatMap_nil, List.append_nil]; rfl
  | cons doc rest ih =>
      intro data
      rw [List.foldlM_cons, DocListWriterCodec.addDocID, Option.bind_eq_bind,
        Option.bind_some, ih, Internal.appendFixed8, Internal.appendFixed64,
        fixBody_cons]
      simp only [List.append_assoc]

theorem writeDocList_fix (docs : List DocList) :
    writeDocList .fixType docs = some (true, 0 :: fixBody docs) := by
  rw [writeDocList, newOrderDocListWriterCodec, addDocID_order_foldlM]
  rfl

theorem docListOf_fix (docs : List DocList) :
    docListOf (0 :: fixBody docs) = some docs := by
  have hfix : decodeDocListToFixBytes (0 :: fixBody docs) =
      some (0 :: fixBody docs) := rfl
  rw [docListOf, hfix]
  refine records_fixBody docs _ ?_
  exact (length_le_fixBody docs).trans (Nat.le_succ _)

/-! ## The variable-length layout: writing -/

/-- The places of the tombstones, counted from `k`. -/
def deletePositions : Nat → List DocList → List Nat
  | _, [] => []
  | k, doc :: rest =>
      if doc.docState ≠ 0 then k :: deletePositions (k + 1) rest
      else deletePositions (k + 1) rest

theorem le_of_mem_deletePositions {docs : List DocList} : ∀ {k p : Nat},
    p ∈ deletePositions k docs → k ≤ p ∧ p < k + docs.length := by
  induction docs with
  | nil => intro k p h; cases h
  | cons doc rest ih =>
      intro k p h
      rw [List.length_cons]
      rw [deletePositions] at h
      split at h
      · rcases List.mem_cons.1 h with rfl | h
        · omega
        · have := ih h
          omega
      · have := ih h
        omega

theorem length_deletePositions (docs : List DocList) : ∀ k : Nat,
    (deletePositions k docs).length =
      (docs.filter (fun doc => doc.docState ≠ 0)).length := by
  induction docs with
  | nil => intro k; rfl
  | cons doc rest ih =>
      intro k
      rw [deletePositions, List.filter_cons]
      by_cases h : doc.docState = 0
      · rw [if_neg (not_not.2 h), ih]
        simp [h]
      · rw [if_pos h, List.length_cons, ih]
        simp [h]

theorem addDoc_of_lt {b : DocListDeltaBuffer} {d : DocumentID}
    (h : b.docList ≠ [] → d < b.lastDocid) :
    b.addDoc d = some { lastDocid := d, docList := b.docList ++ [d] } := by
  rw [DocListDeltaBuffer.addDoc, if_neg]
  rintro ⟨hne, hle⟩
  exact absurd (h hne) (not_lt.2 hle)

theorem addDeletePos_of_lt {b : DocListDelDeltaBuffer} {pos : Nat}
    (h : b.delPosition ≠ [] → b.lastPos.toNat < pos) :
    b.addDeletePos pos = some
      { delNum := b.delNum + 1, lastPos := pos.toUInt32,
        delPosition := b.delPosition ++ [pos.toUInt32] } := by
  rw [DocListDelDeltaBuffer.addDeletePos, if_neg]
  rintro ⟨hne, hle⟩
  exact absurd (h hne) (not_lt.2 hle)

/-- What the encoder holds after a list: it never refuses a descending one. -/
theorem addDoc_foldlM (docs : List DocList) : ∀ e : DocListCompressionEncoder,
    docs.Pairwise (fun a b => b.docId < a.docId) →
    (e.deltaBuffer.docList ≠ [] →
      ∀ doc ∈ docs, doc.docId < e.deltaBuffer.lastDocid) →
    (e.delBuffer.delPosition ≠ [] → e.delBuffer.lastPos.toNat < e.pos) →
    ∃ e', docs.foldlM (fun e doc => e.addDoc doc.docId (doc.docState ≠ 0)) e =
        some e' ∧
      e'.header = e.header ∧
      e'.hasDel = (e.hasDel || docs.any (·.docState ≠ 0)) ∧
      e'.deltaBuffer.docList =
        e.deltaBuffer.docList ++ docs.map (·.docId) ∧
      e'.delBuffer.delPosition = e.delBuffer.delPosition ++
        (deletePositions e.pos docs).map Nat.toUInt32 ∧
      e'.delBuffer.delNum = e.delBuffer.delNum +
        UInt32.ofNat (deletePositions e.pos docs).length := by
  induction docs with
  | nil =>
      intro e _ _ _
      exact ⟨e, rfl, rfl, by simp, by simp, by simp [deletePositions],
        by simp [deletePositions]⟩
  | cons doc rest ih =>
      intro e hdesc hlast hpos
      obtain ⟨hlt, hrest⟩ := List.pairwise_cons.1 hdesc
      have hdelta := addDoc_of_lt fun hne => hlast hne doc List.mem_cons_self
      rw [List.foldlM_cons, DocListCompressionEncoder.addDoc, hdelta]
      by_cases hdel : doc.docState = 0
      · obtain ⟨e', hfold, hhead, hhas, hids, hps, hnum⟩ := ih
          { e with deltaBuffer := ⟨doc.docId, e.deltaBuffer.docList ++ [doc.docId]⟩,
                   pos := e.pos + 1 } hrest (fun _ => hlt)
          (fun h => Nat.lt_succ_of_lt (hpos h))
        refine ⟨e', ?_, hhead, ?_, ?_, ?_, ?_⟩
        · simpa [hdel] using hfold
        · simpa [hdel] using hhas
        · simpa using hids
        · simpa [deletePositions, hdel] using hps
        · simpa [deletePositions, hdel] using hnum
      · have hadd := addDeletePos_of_lt hpos
        have hwrap : e.pos.toUInt32.toNat < e.pos + 1 := by
          rw [Nat.toUInt32, UInt32.toNat_ofNat']
          exact Nat.lt_succ_of_le (Nat.mod_le _ _)
        obtain ⟨e', hfold, hhead, hhas, hids, hps, hnum⟩ := ih
          { e with deltaBuffer := ⟨doc.docId, e.deltaBuffer.docList ++ [doc.docId]⟩,
                   delBuffer := ⟨e.delBuffer.delNum + 1, e.pos.toUInt32,
                     e.delBuffer.delPosition ++ [e.pos.toUInt32]⟩,
                   hasDel := true, pos := e.pos + 1 } hrest (fun _ => hlt)
          (fun _ => hwrap)
        refine ⟨e', ?_, hhead, ?_, ?_, ?_, ?_⟩
        · simpa [hdel, hadd] using hfold
        · simpa [hdel] using hhas
        · simpa using hids
        · simpa [deletePositions, hdel] using hps
        · rw [hnum, deletePositions, if_pos hdel, List.length_cons]
          simp only [UInt32.ofNat_add]
          rw [UInt32.add_assoc, UInt32.add_comm 1]
          rfl

theorem addDocID_compression_foldlM (docs : List DocList) :
    ∀ e : DocListCompressionEncoder,
    docs.foldlM (fun writer doc => writer.addDocID doc.docId doc.docState)
        (DocListWriterCodec.compression e) =
      (docs.foldlM (fun (e : DocListCompressionEncoder) doc =>
        e.addDoc doc.docId (doc.docState ≠ 0)) e).map .compression := by
  induction docs with
  | nil => intro e; rfl
  | cons doc rest ih =>
      intro e
      rw [List.foldlM_cons, List.foldlM_cons, DocListWriterCodec.addDocID]
      cases h : e.addDoc doc.docId (decide (doc.docState ≠ 0)) with
      | none => rfl
      | some e' => exact ih e'

/-- The delete block, when there is one. -/
def deleteBlock (docs : List DocList) : Bytes :=
  if docs.any (·.docState ≠ 0) then
    DocListDelDeltaBuffer.putPositions 0
      (encodeVarint32 (UInt32.ofNat (deletePositions 0 docs).length))
      ((deletePositions 0 docs).map Nat.toUInt32)
  else []

/-- The header byte: layout one, and the delete flag. -/
def varLenHeader (docs : List DocList) : UInt8 :=
  if docs.any (·.docState ≠ 0) then 17 else 1

theorem putPositions_append (ps : List UInt32) : ∀ (prev : UInt32)
    (buffer : Bytes), DocListDelDeltaBuffer.putPositions prev buffer ps =
      buffer ++ DocListDelDeltaBuffer.putPositions prev [] ps := by
  induction ps with
  | nil => intro prev buffer; exact (List.append_nil _).symm
  | cons p rest ih =>
      intro prev buffer
      rw [DocListDelDeltaBuffer.putPositions, DocListDelDeltaBuffer.putPositions,
        ih, ih p (putVarint32 [] _)]
      simp only [putVarint32, List.append_assoc, List.nil_append]

theorem putDocs_append (ids : List DocumentID) : ∀ (prev : DocumentID)
    (buffer : Bytes), DocListDeltaBuffer.putDocs prev buffer ids =
      buffer ++ DocListDeltaBuffer.putDocs prev [] ids := by
  induction ids with
  | nil => intro prev buffer; exact (List.append_nil _).symm
  | cons d rest ih =>
      intro prev buffer
      rw [DocListDeltaBuffer.putDocs, DocListDeltaBuffer.putDocs, ih,
        ih d (putVarint64 [] _)]
      simp only [putVarint64, List.append_assoc, List.nil_append]

/-- The bytes of the variable-length layout. -/
theorem writeDocList_varLen {docs : List DocList}
    (hdesc : docs.Pairwise (fun a b => b.docId < a.docId))
    (hnum : (deletePositions 0 docs).length < 2 ^ 32) :
    writeDocList .varLenBlockType docs = some (true, varLenHeader docs ::
      (deleteBlock docs ++
        DocListDeltaBuffer.putDocs 0 [] (docs.map (·.docId)))) := by
  obtain ⟨e, hfold, hhead, hhas, hids, hps, hn⟩ := addDoc_foldlM docs {} hdesc
    (fun h => absurd rfl h) (fun h => absurd rfl h)
  simp only [Bool.false_or, List.nil_append, UInt32.zero_add] at hhas hids hps hn
  rw [writeDocList, newOrderDocListWriterCodec, addDocID_compression_foldlM, hfold]
  simp only [Option.map_some, Option.bind_eq_bind, Option.bind_some,
    DocListWriterCodec.serializeToBytes,
    DocListCompressionEncoder.serializeToString, hhead, hhas, hids]
  by_cases hany : docs.any (·.docState ≠ 0) = true
  · -- a delete flag means that the count is not zero
    have hpos : (deletePositions 0 docs).length ≠ 0 := by
      obtain ⟨doc, hmem, hdel⟩ := List.any_eq_true.1 hany
      rw [length_deletePositions]
      exact (List.length_pos_of_mem (List.mem_filter.2 ⟨hmem, hdel⟩)).ne'
    have htoNat : e.delBuffer.delNum.toNat = (deletePositions 0 docs).length := by
      rw [hn, UInt32.toNat_ofNat_of_lt' hnum]
    have hne : e.delBuffer.delNum ≠ 0 := by
      intro h0
      rw [h0] at htoNat
      exact hpos htoNat.symm
    simp only [hany, if_true, DocListDelDeltaBuffer.serializeToString, ne_eq, hne,
      not_false_eq_true, htoNat, hps, List.length_map, Option.bind_some]
    rw [putDocs_append, putPositions_append, deleteBlock, if_pos hany,
      putPositions_append _ _ (encodeVarint32 _), varLenHeader, if_pos hany, hn]
    rfl
  · rw [Bool.not_eq_true] at hany
    simp only [hany, Bool.false_eq_true, if_false, Option.bind_some]
    rw [putDocs_append, deleteBlock, varLenHeader]
    simp only [hany, Bool.false_eq_true, if_false, List.nil_append]
    rfl

/-! ## The variable-length layout: reading -/

theorem getPositions_putPositions (ps : List UInt32) : ∀ (prev : UInt32)
    (rest : Bytes), DocListCompressionDecoder.getPositions ps.length prev
      (DocListDelDeltaBuffer.putPositions prev [] ps ++ rest) =
        some (ps, rest) := by
  induction ps with
  | nil => intro prev rest; rfl
  | cons p ps ih =>
      intro prev rest
      have hp : prev + (p - prev) = p := by
        rw [UInt32.add_comm, UInt32.sub_add_cancel]
      rw [DocListDelDeltaBuffer.putPositions, putPositions_append, putVarint32,
        List.nil_append, List.append_assoc, List.length_cons,
        DocListCompressionDecoder.getPositions, getVarint32_encode]
      simp only [Option.bind_eq_bind, Option.bind_some, hp, ih]

theorem length_le_putDocs (ids : List DocumentID) : ∀ prev : DocumentID,
    ids.length ≤ (DocListDeltaBuffer.putDocs prev [] ids).length := by
  induction ids with
  | nil => intro prev; exact Nat.zero_le _
  | cons d rest ih =>
      intro prev
      have hpos : ∀ v, 0 < (encodeVarint64 v).length := fun v => by
        rw [encodeVarint64_eq]
        exact List.length_pos_of_ne_nil (Varint.encode_ne_nil _ _)
      rw [DocListDeltaBuffer.putDocs, putDocs_append, putVarint64,
        List.nil_append, List.length_append, List.length_cons]
      have := ih d
      have := hpos (if prev = 0 then d else prev - d)
      omega

theorem sub_sub_self64 (a b : UInt64) : a - (a - b) = b := by
  rw [UInt64.sub_eq_add_neg a, UInt64.neg_sub, UInt64.add_comm,
    UInt64.sub_add_cancel]

theorem docId_of_delta (prev d : DocumentID) :
    (if prev ≠ 0 then prev - (if prev = 0 then d else prev - d)
      else if prev = 0 then d else prev - d) = d := by
  by_cases h0 : prev = 0
  · rw [if_neg (not_not.2 h0), if_pos h0]
  · rw [if_pos h0, if_neg h0, sub_sub_self64]

/-- An id in front of every tombstone still to come. -/
theorem getDocs_ok {fuel k : Nat} {prev d : DocumentID} {ps : List UInt32}
    {slice body : Bytes} (hps : ∀ p ∈ ps, k < p.toNat)
    (h : DocListCompressionDecoder.getDocs fuel d (k + 1) ps slice =
      some body) :
    DocListCompressionDecoder.getDocs (fuel + 1) prev k ps
      (encodeVarint64 (if prev = 0 then d else prev - d) ++ slice) =
        some (Word.toLE 8 d.toNat ++ [kDocumentStateOK] ++ body) := by
  rw [DocListCompressionDecoder.getDocs, getVarint64_encode]
  simp only [docId_of_delta]
  cases ps with
  | nil => rw [h]; rfl
  | cons p ps =>
      have hlt := hps p List.mem_cons_self
      simp only [if_neg (Nat.ne_of_gt hlt), if_neg (Nat.lt_asymm hlt), h]
      rfl

/-- An id at the next tombstone. -/
theorem getDocs_delete {fuel k : Nat} {prev d : DocumentID} {p : UInt32}
    {ps : List UInt32} {slice body : Bytes} (hp : p.toNat = k)
    (h : DocListCompressionDecoder.getDocs fuel d (k + 1) ps slice =
      some body) :
    DocListCompressionDecoder.getDocs (fuel + 1) prev k (p :: ps)
      (encodeVarint64 (if prev = 0 then d else prev - d) ++ slice) =
        some (Word.toLE 8 d.toNat ++ [kDocumentStateDelete] ++ body) := by
  rw [DocListCompressionDecoder.getDocs, getVarint64_encode]
  simp only [docId_of_delta, if_pos hp, h]
  rfl

/-- The first tombstone still to come is not behind the reader. -/
theorem getDocs_putDocs (docs : List DocList) :
    ∀ (fuel k : Nat) (prev : DocumentID),
    docs.length ≤ fuel →
    (∀ doc ∈ docs, doc.docState = 0 ∨ doc.docState = 1) →
    (∀ p ∈ deletePositions k docs, p < 2 ^ 32) →
    DocListCompressionDecoder.getDocs fuel prev k
      ((deletePositions k docs).map Nat.toUInt32)
      (DocListDeltaBuffer.putDocs prev [] (docs.map (·.docId))) =
        some (fixBody docs) := by
  induction docs with
  | nil =>
      intro fuel k prev _ _ _
      cases fuel <;> rfl
  | cons doc rest ih =>
      intro fuel k prev hf hst hps
      cases fuel with
      | zero => exact absurd hf (by simp)
      | succ fuel =>
          have hps' : ∀ p ∈ deletePositions (k + 1) rest, p < 2 ^ 32 := by
            intro p hp
            apply hps
            rw [deletePositions]
            split
            · exact List.mem_cons_of_mem _ hp
            · exact hp
          have hrec := ih fuel (k + 1) doc.docId (by simpa using hf)
            (fun d hd => hst d (List.mem_cons_of_mem _ hd)) hps'
          rw [List.map_cons, DocListDeltaBuffer.putDocs, putDocs_append,
            putVarint64, List.nil_append, fixBody_cons, deletePositions]
          rcases hst doc List.mem_cons_self with hok | hdel
          · rw [if_neg (not_not.2 hok), hok]
            refine getDocs_ok (fun p hp => ?_) hrec
            obtain ⟨q, hq, rfl⟩ := List.mem_map.1 hp
            rw [Nat.toUInt32, UInt32.toNat_ofNat_of_lt' (hps' q hq)]
            exact (le_of_mem_deletePositions hq).1
          · have hne : doc.docState ≠ 0 := by
              rw [hdel]
              decide
            rw [if_pos hne, hdel, List.map_cons]
            refine getDocs_delete (UInt32.toNat_ofNat_of_lt' (hps k ?_)) hrec
            rw [deletePositions, if_pos hne]
            exact List.mem_cons_self

/-- Every writer takes a well-formed list. -/
theorem writeDocList_isSome {docs : List DocList} (hwf : WellFormed docs)
    (type : DocListCompressionType)
    (hnum : (docs.filter (fun doc => doc.docState ≠ 0)).length < 2 ^ 32) :
    ∃ out, writeDocList type docs = some (true, out) := by
  cases type with
  | fixType => exact ⟨_, writeDocList_fix docs⟩
  | varLenBlockType =>
      exact ⟨_, writeDocList_varLen hwf.desc (by rwa [length_deletePositions])⟩

/-- Every record takes a byte at least. -/
theorem length_le_writeDocList {docs : List DocList} (hwf : WellFormed docs)
    {type : DocListCompressionType} {out : Bytes}
    (hnum : (docs.filter (fun doc => doc.docState ≠ 0)).length < 2 ^ 32)
    (h : writeDocList type docs = some (true, out)) :
    docs.length ≤ out.length := by
  cases type with
  | fixType =>
      rw [writeDocList_fix] at h
      obtain ⟨-, rfl⟩ := Prod.mk.inj (Option.some.inj h)
      exact (length_le_fixBody docs).trans (Nat.le_succ _)
  | varLenBlockType =>
      rw [writeDocList_varLen hwf.desc (by rwa [length_deletePositions])] at h
      obtain ⟨-, rfl⟩ := Prod.mk.inj (Option.some.inj h)
      have hle := length_le_putDocs (docs.map (·.docId)) 0
      rw [List.length_map] at hle
      rw [List.length_cons, List.length_append]
      omega

/-- A value has its header at least. -/
theorem writeDocList_ne_nil {type : DocListCompressionType}
    {docs : List DocList} {result : Bool × Bytes}
    (h : writeDocList type docs = some result) : result.2 ≠ [] := by
  cases type with
  | fixType =>
      rw [writeDocList_fix] at h
      rw [← Option.some.inj h]
      exact List.cons_ne_nil _ _
  | varLenBlockType =>
      rw [writeDocList, newOrderDocListWriterCodec, addDocID_compression_foldlM,
        Option.bind_eq_bind, Option.bind_map, Option.bind_eq_some_iff] at h
      obtain ⟨e, -, hser⟩ := h
      obtain ⟨buffer, hbuffer, hresult⟩ := Option.bind_eq_some_iff.1 hser
      rw [← Option.some.inj hresult]
      show buffer ≠ []
      have hfront : ∀ {front : Bytes}, front ≠ [] →
          DocListDeltaBuffer.putDocs 0 front e.deltaBuffer.docList ≠ [] := by
        intro front hne hnil
        rw [putDocs_append] at hnil
        exact hne (List.append_eq_nil_iff.1 hnil).1
      rw [DocListCompressionEncoder.serializeToString] at hbuffer
      split at hbuffer
      · obtain ⟨front, hdel, hdocs⟩ := Option.bind_eq_some_iff.1 hbuffer
        rw [← Option.some.inj hdocs]
        refine hfront ?_
        rw [DocListDelDeltaBuffer.serializeToString] at hdel
        split at hdel
        · split at hdel
          · rw [← Option.some.inj hdel, putPositions_append, putVarint32]
            exact List.cons_ne_nil _ _
          · cases hdel
        · rw [← Option.some.inj hdel]
          exact List.cons_ne_nil _ _
      · rw [← Option.some.inj hbuffer]
        exact hfront (List.cons_ne_nil _ _)

theorem decodeDocListToFixBytes_varLen {docs : List DocList}
    (hwf : WellFormed docs)
    (hnum : (docs.filter (fun doc => doc.docState ≠ 0)).length < 2 ^ 32)
    (hps : ∀ p ∈ deletePositions 0 docs, p < 2 ^ 32) :
    decodeDocListToFixBytes (varLenHeader docs :: (deleteBlock docs ++
      DocListDeltaBuffer.putDocs 0 [] (docs.map (·.docId)))) =
        some (varLenHeader docs :: fixBody docs) := by
  have hdocs := getDocs_putDocs docs
    (DocListDeltaBuffer.putDocs 0 [] (docs.map (·.docId))).length 0 0
    (by simpa using length_le_putDocs (docs.map (·.docId)) 0) hwf.state hps
  rw [← length_deletePositions docs 0] at hnum
  simp only [decodeDocListToFixBytes, DocListCompressionDecoder.decode]
  by_cases hany : docs.any (·.docState ≠ 0) = true
  · have hhead : DocListHeader.ofByte (varLenHeader docs) =
        { version := 1, flag := 1 } := by
      rw [varLenHeader, if_pos hany]
      rfl
    have hcount : (UInt32.ofNat (deletePositions 0 docs).length).toNat =
        ((deletePositions 0 docs).map Nat.toUInt32).length := by
      rw [UInt32.toNat_ofNat_of_lt' hnum, List.length_map]
    rw [hhead, deleteBlock, if_pos hany, putPositions_append, List.append_assoc,
      getVarint32_encode]
    simp only [Option.bind_eq_bind, Option.bind_some, hcount,
      getPositions_putPositions, hdocs]
    rfl
  · have hhead : DocListHeader.ofByte (varLenHeader docs) =
        { version := 1 } := by
      rw [varLenHeader, if_neg hany]
      rfl
    have hnone : deletePositions 0 docs = [] := by
      rw [← List.length_eq_zero_iff, length_deletePositions,
        List.length_eq_zero_iff, List.filter_eq_nil_iff]
      simpa using hany
    rw [hnone, List.map_nil] at hdocs
    rw [hhead, deleteBlock, if_neg hany, List.nil_append]
    simp only [Option.bind_eq_bind, Option.bind_some, hdocs]
    rfl

/-- What is written is what is read, as long as the places of the tombstones
fit into 32 bits. -/
theorem docListOf_writeDocList {docs : List DocList} (hwf : WellFormed docs)
    {type : DocListCompressionType} {out : Bytes}
    (hnum : (docs.filter (fun doc => doc.docState ≠ 0)).length < 2 ^ 32)
    (hps : type = .varLenBlockType → ∀ p ∈ deletePositions 0 docs, p < 2 ^ 32)
    (h : writeDocList type docs = some (true, out)) :
    docListOf out = some docs := by
  cases type with
  | fixType =>
      rw [writeDocList_fix] at h
      obtain ⟨-, rfl⟩ := Prod.mk.inj (Option.some.inj h)
      exact docListOf_fix docs
  | varLenBlockType =>
      rw [writeDocList_varLen hwf.desc (by rwa [length_deletePositions])] at h
      obtain ⟨-, rfl⟩ := Prod.mk.inj (Option.some.inj h)
      rw [docListOf, decodeDocListToFixBytes_varLen hwf hnum (hps rfl)]
      refine records_fixBody docs _ ?_
      exact (length_le_fixBody docs).trans (Nat.le_succ _)

/-- A reader of a written list has the records of the list. -/
theorem newDocListReaderCodec_writeDocList {docs : List DocList}
    (hwf : WellFormed docs) (hlen : docs.length < 2 ^ 32)
    {type : DocListCompressionType} {out : Bytes}
    (h : writeDocList type docs = some (true, out)) (fieldId : Int) :
    newDocListReaderCodec out fieldId = some { slice := docs, fieldId } := by
  have hnum := (List.length_filter_le (fun doc => doc.docState ≠ 0)
    docs).trans_lt hlen
  have hdocs := docListOf_writeDocList hwf hnum (fun _ p hp => by
    have hlt := (le_of_mem_deletePositions hp).2
    omega) h
  rw [newDocListReaderCodec, if_neg, hdocs]
  · rfl
  · rintro rfl
    exact nomatch hdocs

/-- **Both encodings are the same list.** A well-formed list of fewer than
`2 ^ 32` records is taken by both writers. The bytes of the compression writer
decode to the body of the fixed bytes, and the readers of the two cannot be
told apart at any position. -/
theorem encodings_agree {docs : List DocList} (hwf : WellFormed docs)
    (hlen : docs.length < 2 ^ 32) (fieldId : Int) :
    ∃ header body header' varLen,
      writeDocList .fixType docs = some (true, header :: body) ∧
      writeDocList .varLenBlockType docs = some (true, varLen) ∧
      DocListCompressionDecoder.decode varLen = some (header' :: body) ∧
      decodeDocListToFixBytes varLen = some (header' :: body) ∧
      decodeDocListToFixBytes (header :: body) = some (header :: body) ∧
      ∃ fixReader varLenReader,
        newDocListReaderCodec (header :: body) fieldId = some fixReader ∧
        newDocListReaderCodec varLen fieldId = some varLenReader ∧
        ∀ pos, SameResults { fixReader with pos }
          { varLenReader with pos } := by
  have hnum := (List.length_filter_le (fun doc => doc.docState ≠ 0)
    docs).trans_lt hlen
  have hps : ∀ p ∈ deletePositions 0 docs, p < 2 ^ 32 := fun p hp => by
    have hlt := (le_of_mem_deletePositions hp).2
    omega
  have hfix := writeDocList_fix docs
  have hvar := writeDocList_varLen hwf.desc (by rwa [length_deletePositions])
  have hdecode := decodeDocListToFixBytes_varLen hwf hnum hps
  refine ⟨_, _, _, _, hfix, hvar, ?_, hdecode, rfl, _, _,
    newDocListReaderCodec_writeDocList hwf hlen hfix fieldId,
    newDocListReaderCodec_writeDocList hwf hlen hvar fieldId,
    fun pos => ⟨rfl, rfl, ⟨rfl, rfl⟩, fun _ => ⟨rfl, rfl⟩⟩⟩
  rw [← hdecode, decodeDocListToFixBytes, varLenHeader]
  split
  · rfl
  · rfl

/-- Documents 9, 5 and 2, the second of them deleted. -/
theorem encodings_agree_threeDocuments :
    ∃ header body header' varLen,
      writeDocList .fixType [⟨9, 0⟩, ⟨5, 1⟩, ⟨2, 0⟩] =
        some (true, header :: body) ∧
      writeDocList .varLenBlockType [⟨9, 0⟩, ⟨5, 1⟩, ⟨2, 0⟩] =
        some (true, varLen) ∧
      decodeDocListToFixBytes varLen = some (header' :: body) := by
  have hwf : WellFormed [⟨9, 0⟩, ⟨5, 1⟩, ⟨2, 0⟩] :=
    ⟨by decide, by decide, by decide⟩
  obtain ⟨header, body, header', varLen, hfix, hvar, -, hdecode, -⟩ :=
    encodings_agree hwf (by decide) 1
  exact ⟨header, body, header', varLen, hfix, hvar, hdecode⟩

theorem length_encodeVarint32_le (v : UInt32) :
    (encodeVarint32 v).length ≤ 5 := by
  rw [encodeVarint32_eq]
  exact Varint.encode_length_le 4 _

theorem length_encodeVarint64_le (v : UInt64) :
    (encodeVarint64 v).length ≤ 10 := by
  rw [encodeVarint64_eq]
  exact Varint.encode_length_le 9 _

theorem length_filter_singleton_lt (p : DocList → Bool) (doc : DocList) :
    ([doc].filter p).length < 2 ^ 32 :=
  (List.length_filter_le p [doc]).trans_lt (Nat.one_lt_two_pow (by decide))

/-- The list of one record is small. -/
theorem length_writeDocList_singleton {type : DocListCompressionType}
    {doc : DocList} {out : Bytes}
    (h : writeDocList type [doc] = some (true, out)) : out.length ≤ 21 := by
  cases type with
  | fixType =>
      rw [writeDocList_fix] at h
      obtain ⟨-, rfl⟩ := Prod.mk.inj (Option.some.inj h)
      simp [fixBody, Word.toLE_length]
  | varLenBlockType =>
      have hnum : (deletePositions 0 [doc]).length < 2 ^ 32 := by
        rw [length_deletePositions]
        exact length_filter_singleton_lt _ doc
      rw [writeDocList_varLen (List.pairwise_singleton _ _) hnum] at h
      obtain ⟨-, rfl⟩ := Prod.mk.inj (Option.some.inj h)
      have hids : (DocListDeltaBuffer.putDocs 0 []
          ([doc].map (·.docId))).length ≤ 10 :=
        length_encodeVarint64_le _
      have hdel : (deleteBlock [doc]).length ≤ 10 := by
        rw [deleteBlock]
        split
        · next hany =>
            have hstate : doc.docState ≠ 0 := by simpa using hany
            rw [deletePositions, if_pos hstate]
            have hcount := length_encodeVarint32_le (UInt32.ofNat 1)
            have hpos := length_encodeVarint32_le ((0 : Nat).toUInt32 - 0)
            simp only [deletePositions, List.map_cons, List.map_nil,
              DocListDelDeltaBuffer.putPositions, putVarint32,
              List.length_append, List.length_cons, List.length_nil]
            simp only [Nat.zero_add] at *
            omega
        · exact Nat.zero_le _
      rw [List.length_cons, List.length_append]
      omega

end Wwsearch.Ref
