import Wwsearch.Proofs.DocListCodec
import Wwsearch.Spec.Merge

/-!
# What is left of a doc list without its assertions

With the assertions compiled in, the functions of `Ref.Builds` are those of
`Ref.DocList`: a well-formed list is written and read back whole, and whatever
the list, no id is ever read outside of the bytes. The encoder leaves nine
bytes for each document behind the header, and a size that is not larger.

Without them a writer does not take a single document, since the call to the
encoder is the argument of an assertion, and every list has the value of the
empty one, the header alone. The reader then does not decode that value: its
buffer stays empty, the size computed from it is `2 ^ 64 - 1`, and the first id
is read from behind the buffer. So no list comes through, not even the empty
one, whose bytes are the only ones on which the builds agree.
-/

namespace Wwsearch.Spec

open Wwsearch.Lib Wwsearch.Ref

/-! ## The build with assertions -/

theorem addDocIn_debug (e : DocListCompressionEncoder) (docId : DocumentID)
    (isDel : Bool) : e.addDocIn .debug docId isDel =
      holds (e.addDoc docId isDel) := by
  rw [DocListCompressionEncoder.addDocIn, DocListCompressionEncoder.addDoc]
  cases e.deltaBuffer.addDoc docId with
  | none => rfl
  | some deltaBuffer =>
      cases isDel with
      | false => rfl
      | true =>
          cases e.delBuffer.addDeletePos e.pos with
          | none => rfl
          | some delBuffer => rfl

theorem addDocIDIn_debug_foldlM (docs : List DocList) :
    ∀ e : DocListCompressionEncoder,
    docs.foldlM (CompressionWriterCodecImpl.addDocIDIn .debug) e =
      holds (docs.foldlM (fun (e : DocListCompressionEncoder) doc =>
        e.addDoc doc.docId (doc.docState ≠ 0)) e) := by
  induction docs with
  | nil => intro e; rfl
  | cons doc rest ih =>
      intro e
      rw [List.foldlM_cons, List.foldlM_cons,
        CompressionWriterCodecImpl.addDocIDIn, Build.assert, addDocIn_debug]
      cases h : e.addDoc doc.docId (decide (doc.docState ≠ 0)) with
      | none => rfl
      | some e' => exact ih e'

theorem serializeToStringIn_debug (e : DocListCompressionEncoder) :
    e.serializeToStringIn .debug = holds e.serializeToString := by
  rw [DocListCompressionEncoder.serializeToStringIn,
    DocListCompressionEncoder.serializeToString]
  cases e.hasDel with
  | false => rfl
  | true =>
      cases h : e.delBuffer.serializeToString
          [({ e.header with flag := 1 } : DocListHeader).toByte] with
      | none => simp [Build.assert, holds, h, bind, Except.bind]
      | some buffer => simp [Build.assert, holds, h, bind, Except.bind]

/-- With its assertions the writer is the one of the model. -/
theorem writeDocListIn_debug (docs : List DocList) :
    writeDocListIn .debug docs =
      holds ((writeDocList .varLenBlockType docs).map (·.2)) := by
  rw [writeDocListIn, writeDocList, newOrderDocListWriterCodec,
    addDocIDIn_debug_foldlM, addDocID_compression_foldlM]
  cases docs.foldlM (fun (e : DocListCompressionEncoder) doc =>
      e.addDoc doc.docId (doc.docState ≠ 0)) {} with
  | none => rfl
  | some e =>
      show e.serializeToStringIn .debug = _
      rw [serializeToStringIn_debug]
      simp only [Option.map_some, Option.bind_eq_bind, Option.bind_some,
        DocListWriterCodec.serializeToBytes]
      cases e.serializeToString with
      | none => rfl
      | some buffer => rfl

/-- A written value: the header of the layout, and a byte at least for each
document. -/
theorem writeDocList_shape {docs : List DocList}
    (hdesc : docs.Pairwise (fun a b => b.docId < a.docId)) {out : Bool × Bytes}
    (h : writeDocList .varLenBlockType docs = some out) :
    ∃ b body, out.2 = b :: body ∧ (DocListHeader.ofByte b).version = 1 ∧
      docs.length ≤ body.length := by
  obtain ⟨e, hfold, hhead, -, hids, -, -⟩ := addDoc_foldlM docs {} hdesc
    (fun h => absurd rfl h) (fun h => absurd rfl h)
  rw [List.nil_append] at hids
  have hlen := length_le_putDocs (docs.map (·.docId)) 0
  rw [List.length_map] at hlen
  rw [writeDocList, newOrderDocListWriterCodec, addDocID_compression_foldlM,
    hfold, Option.map_some, Option.bind_eq_bind, Option.bind_some] at h
  obtain ⟨buffer, hbuffer, hout⟩ := Option.bind_eq_some_iff.1 h
  rw [← Option.some.inj hout]
  rw [DocListCompressionEncoder.serializeToString, hhead, hids] at hbuffer
  split at hbuffer
  · obtain ⟨front, hdel, hdocs⟩ := Option.bind_eq_some_iff.1 hbuffer
    obtain ⟨block, rfl⟩ : ∃ block, front = 17 :: block := by
      rw [DocListDelDeltaBuffer.serializeToString] at hdel
      split at hdel
      · split at hdel
        · rw [← Option.some.inj hdel, putPositions_append, putVarint32]
          exact ⟨_, rfl⟩
        · cases hdel
      · exact ⟨[], (Option.some.inj hdel).symm⟩
    dsimp only at hdocs
    rw [putDocs_append] at hdocs
    refine ⟨17, block ++ _, (Option.some.inj hdocs).symm, rfl, ?_⟩
    rw [List.length_append]
    omega
  · dsimp only [Option.bind_eq_bind, Option.bind_some] at hbuffer
    rw [putDocs_append] at hbuffer
    exact ⟨1, _, (Option.some.inj hbuffer).symm, rfl, hlen⟩

/-- The decoder writes whole records. -/
theorem dvd_length_getDocs {fuel : Nat} : ∀ {prev : DocumentID} {k : Nat}
    {ps : List UInt32} {slice out : Bytes},
    DocListCompressionDecoder.getDocs fuel prev k ps slice = some out →
      9 ∣ out.length := by
  have hrec : ∀ (docId : DocumentID) (state : DocumentState) (rest : Bytes),
      9 ∣ rest.length →
      9 ∣ (Word.toLE 8 docId.toNat ++ [state] ++ rest).length := by
    intro docId state rest hrest
    rw [List.length_append, List.length_append, Word.toLE_length,
      List.length_singleton]
    omega
  induction fuel with
  | zero =>
      intro prev k ps slice out h
      rw [← Option.some.inj h]
      exact dvd_zero 9
  | succ fuel ih =>
      intro prev k ps slice out h
      rw [DocListCompressionDecoder.getDocs] at h
      split at h
      · rw [← Option.some.inj h]
        exact dvd_zero 9
      · dsimp only at h
        split at h
        · obtain ⟨rest, hrest, hout⟩ := Option.bind_eq_some_iff.1 h
          rw [← Option.some.inj hout]
          exact hrec _ _ _ (ih hrest)
        · split at h
          · obtain ⟨rest, hrest, hout⟩ := Option.bind_eq_some_iff.1 h
            rw [← Option.some.inj hout]
            exact hrec _ _ _ (ih hrest)
          · split at h
            · cases h
            · obtain ⟨rest, hrest, hout⟩ := Option.bind_eq_some_iff.1 h
              rw [← Option.some.inj hout]
              exact hrec _ _ _ (ih hrest)

theorem decode_shape {data buffer : Bytes}
    (h : DocListCompressionDecoder.decode data = some buffer) :
    ∃ b body, buffer = b :: body ∧ 9 ∣ body.length := by
  cases data with
  | nil => cases h
  | cons b slice =>
      rw [DocListCompressionDecoder.decode.eq_def] at h
      dsimp only at h
      split at h
      · cases h
      · split at h
        · obtain ⟨delNum, -, h⟩ := Option.bind_eq_some_iff.1 h
          obtain ⟨parts, -, h⟩ := Option.bind_eq_some_iff.1 h
          obtain ⟨body, hbody, h⟩ := Option.bind_eq_some_iff.1 h
          exact ⟨b, body, (Option.some.inj h).symm, dvd_length_getDocs hbody⟩
        · rw [Option.bind_eq_bind, Option.bind_some] at h
          obtain ⟨body, hbody, h⟩ := Option.bind_eq_some_iff.1 h
          exact ⟨b, body, (Option.some.inj h).symm, dvd_length_getDocs hbody⟩

/-- A slice of whole records is read inside of its bytes. -/
theorem docsIn_debug_ne_outOfBounds {slice : Slice}
    (hsize : slice.size ≤ slice.data.length) (hdvd : 9 ∣ slice.data.length)
    {fuel : Nat} : ∀ {pos : Nat}, 9 ∣ pos →
      slice.docsIn .debug fuel pos ≠ .error .outOfBounds := by
  induction fuel with
  | zero => intro pos _ h; cases h
  | succ fuel ih =>
      intro pos hpos
      rw [Slice.docsIn, Slice.docIDAt]
      by_cases hend : slice.size ≤ pos
      · rw [if_pos hend]
        nofun
      · have hroom : pos + 9 ≤ slice.data.length := by omega
        obtain ⟨state, hget⟩ : ∃ state, slice.data[pos + 8]? = some state :=
          ⟨_, List.getElem?_eq_getElem (show pos + 8 < slice.data.length by omega)⟩
        have hstate : slice.stateAtIn .debug pos = .ok state := by
          rw [Slice.stateAtIn, if_neg hend, hget]
        rw [if_neg hend, if_neg (show ¬ slice.data.length < pos + 8 by omega)]
        have hrest := @ih (pos + 9) (by omega)
        simp only [hstate, bind, Except.bind]
        split
        · nofun
        · cases hdocs : slice.docsIn .debug fuel (pos + 9) with
          | ok rest => nofun
          | error halt =>
              rw [hdocs] at hrest
              exact hrest

/-- The size of a slice behind a header is at most the bytes that are there. -/
theorem sizeBehindHeader_le (len : Nat) : sizeBehindHeader (len + 1) ≤ len := by
  rw [sizeBehindHeader, show 2 ^ 64 + (len + 1) - 1 = len + 2 ^ 64 by omega,
    Nat.add_mod_right]
  exact Nat.mod_le _ _

theorem readDocListIn_debug_ne_outOfBounds {b : UInt8} {body : Bytes}
    (hversion : (DocListHeader.ofByte b).version = 1) :
    readDocListIn .debug (b :: body) ≠ .error .outOfBounds := by
  rw [readDocListIn, newSliceIn]
  simp only [hversion]
  cases hdecode : DocListCompressionDecoder.decode (b :: body) with
  | none => nofun
  | some buffer =>
      obtain ⟨b', body', rfl, hdvd⟩ := decode_shape hdecode
      exact docsIn_debug_ne_outOfBounds (sizeBehindHeader_le _) hdvd
        (dvd_zero 9)

/-! ## A list through the build with assertions -/

/-- Reading on behind `front`, whose records are read already. -/
theorem docsIn_fixBody (docs : List DocList) : ∀ (front : Bytes) (fuel : Nat),
    docs.length < fuel → (∀ doc ∈ docs, doc.docId ≠ 0) →
    Slice.docsIn .debug
      { data := front ++ fixBody docs,
        size := (front ++ fixBody docs).length } fuel front.length =
      .ok docs := by
  induction docs with
  | nil =>
      intro front fuel hfuel _
      obtain ⟨fuel, rfl⟩ := Nat.exists_eq_succ_of_ne_zero hfuel.ne'
      rw [Slice.docsIn, Slice.docIDAt, if_pos]
      · rfl
      · rw [fixBody, List.flatMap_nil, List.append_nil]
  | cons doc rest ih =>
      intro front fuel hfuel hnz
      obtain ⟨fuel, rfl⟩ := Nat.exists_eq_succ_of_ne_zero (Nat.ne_zero_of_lt hfuel)
      have hword : (Word.toLE 8 doc.docId.toNat).length = 8 :=
        Word.toLE_length _ _
      have hdata : front ++ fixBody (doc :: rest) =
          front ++ Word.toLE 8 doc.docId.toNat ++ [doc.docState] ++
            fixBody rest := by
        rw [fixBody_cons]
        simp only [List.append_assoc]
      have hnext := ih (front ++ Word.toLE 8 doc.docId.toNat ++ [doc.docState])
        fuel (Nat.lt_of_succ_lt_succ hfuel)
        fun d hd => hnz d (List.mem_cons_of_mem _ hd)
      have hlength : (front ++ Word.toLE 8 doc.docId.toNat ++
          [doc.docState]).length = front.length + 9 := by
        simp [hword]
      have hroom : front.length + 9 ≤
          (front ++ fixBody (doc :: rest)).length := by
        rw [hdata, List.length_append, hlength]
        omega
      have htake : ((front ++ fixBody (doc :: rest)).drop front.length).take 8 =
          Word.toLE 8 doc.docId.toNat := by
        rw [List.drop_left, fixBody_cons, List.append_assoc,
          List.take_left' hword]
      have hstate : (front ++ fixBody (doc :: rest))[front.length + 8]? =
          some doc.docState := by
        have hfront : (front ++ Word.toLE 8 doc.docId.toNat).length =
            front.length + 8 := by
          rw [List.length_append, hword]
        rw [hdata, List.append_assoc, ← hfront,
          List.getElem?_append_right (Nat.le_refl _), Nat.sub_self]
        rfl
      rw [← hdata, hlength] at hnext
      have hne : doc.docId ≠ noMoreDocs := hnz doc List.mem_cons_self
      rw [Slice.docsIn, Slice.docIDAt, if_neg (by dsimp only; omega),
        if_neg (by dsimp only; omega)]
      simp only [htake, Word.ofNat_ofLE_toLE, bind, Except.bind, if_neg hne]
      rw [Slice.stateAtIn, if_neg (by dsimp only; omega)]
      simp only [hstate, hnext]

/-- With its assertions the program reads back what it wrote. -/
theorem writtenDocsIn_debug {docs : List DocList} (hwf : WellFormed docs)
    (hlen : docs.length < 2 ^ 32) : writtenDocsIn .debug docs = .ok docs := by
  have hnum := (List.length_filter_le (fun doc => doc.docState ≠ 0)
    docs).trans_lt hlen
  have hwrite := writeDocList_varLen hwf.desc (by rwa [length_deletePositions])
  have hfix := decodeDocListToFixBytes_varLen hwf hnum fun p hp => by
    have hlt := (le_of_mem_deletePositions hp).2
    omega
  obtain ⟨b, body, hout, hversion, -⟩ := writeDocList_shape hwf.desc hwrite
  dsimp only at hout
  rw [hout] at hwrite hfix
  rw [decodeDocListToFixBytes, hversion] at hfix
  have hdecode : DocListCompressionDecoder.decode (b :: body) =
      some (varLenHeader docs :: fixBody docs) := hfix
  have hsize : sizeBehindHeader (varLenHeader docs :: fixBody docs).length =
      (fixBody docs).length := by
    rw [List.length_cons, sizeBehindHeader, length_fixBody]
    omega
  rw [writtenDocsIn, writeDocListIn_debug, hwrite]
  show readDocListIn .debug (b :: body) = .ok docs
  rw [readDocListIn, newSliceIn]
  simp only [hversion, hdecode, hsize, Build.assert, holds, bind, Except.bind]
  exact docsIn_fixBody docs [] _
    (Nat.lt_succ_of_le (length_le_fixBody docs)) hwf.nonzero

/-! ## The build without assertions -/

theorem addDocIDIn_ndebug_foldlM (docs : List DocList)
    (e : DocListCompressionEncoder) :
    docs.foldlM (CompressionWriterCodecImpl.addDocIDIn .ndebug) e = .ok e := by
  induction docs with
  | nil => rfl
  | cons doc rest ih => exact ih

/-- Every list has the bytes of the empty one. -/
theorem writeDocListIn_ndebug (docs : List DocList) :
    writeDocListIn .ndebug docs = .ok [1] := by
  rw [writeDocListIn, addDocIDIn_ndebug_foldlM]
  rfl

theorem writtenDocsIn_ndebug (docs : List DocList) :
    writtenDocsIn .ndebug docs = .error .outOfBounds := by
  rw [writtenDocsIn, writeDocListIn_ndebug]
  rfl

/-- It is not the bytes: no compressed value can be read without the
assertions. -/
theorem readDocListIn_ndebug {b : UInt8} (body : Bytes)
    (hversion : (DocListHeader.ofByte b).version = 1) :
    readDocListIn .ndebug (b :: body) = .error .outOfBounds := by
  rw [readDocListIn, newSliceIn]
  simp only [hversion]
  rfl

/-! ## The two builds -/

theorem sameBytes_iff {docs : List DocList}
    (hdesc : docs.Pairwise (fun a b => b.docId < a.docId)) :
    SameBytes docs ↔ docs = [] := by
  rw [SameBytes, writeDocListIn_debug, writeDocListIn_ndebug]
  constructor
  · intro h
    cases hwrite : writeDocList .varLenBlockType docs with
    | none => rw [hwrite] at h; cases h
    | some out =>
        obtain ⟨b, body, hout, -, hle⟩ := writeDocList_shape hdesc hwrite
        rw [hwrite, Option.map_some, hout] at h
        obtain ⟨-, rfl⟩ := List.cons.inj (Except.ok.inj h)
        exact List.length_eq_zero_iff.1 (Nat.le_zero.1 hle)
  · rintro rfl
    rfl

theorem not_sameDocs {docs : List DocList}
    (hdesc : docs.Pairwise (fun a b => b.docId < a.docId)) :
    ¬ SameDocs docs := by
  rw [SameDocs, writtenDocsIn_ndebug, writtenDocsIn, writeDocListIn_debug]
  cases hwrite : writeDocList .varLenBlockType docs with
  | none => nofun
  | some out =>
      obtain ⟨b, body, hout, hversion, -⟩ := writeDocList_shape hdesc hwrite
      rw [Option.map_some, hout]
      exact readDocListIn_debug_ne_outOfBounds hversion

/-- **No list comes through without assertions.** The builds write the same
bytes for the empty list and for no other one, and there is no list, the empty
one included, for which they read back the same documents. -/
theorem builds_never_agree {docs : List DocList}
    (hdesc : docs.Pairwise (fun a b => b.docId < a.docId)) :
    ¬ BuildsAgree docs ∧ (SameBytes docs ↔ docs = []) ∧ ¬ SameDocs docs :=
  ⟨fun h => not_sameDocs hdesc h.2, sameBytes_iff hdesc, not_sameDocs hdesc⟩

theorem builds_never_agree_twoDocuments :
    let docs : List DocList :=
      [⟨5, kDocumentStateOK⟩, ⟨3, kDocumentStateDelete⟩]
    ¬ BuildsAgree docs ∧ (SameBytes docs ↔ docs = []) ∧ ¬ SameDocs docs :=
  builds_never_agree (by decide)

/-- Document 5: the value is `[1, 5]` in the one build and `[1]` in the other. -/
theorem builds_disagree_oneDocument :
    [(⟨5, kDocumentStateOK⟩ : DocList)].Pairwise
        (fun a b => b.docId < a.docId) ∧
      ¬ BuildsAgree [⟨5, kDocumentStateOK⟩] := by
  refine ⟨List.pairwise_singleton _ _, fun h => ?_⟩
  have hbytes : (.ok [1, 5] : Except Halt Bytes) = .ok [1] := h.1
  cases hbytes

end Wwsearch.Spec
