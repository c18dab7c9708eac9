import Mathlib.Data.List.Pairwise
import Wwsearch.Lib.Settles
import Wwsearch.Spec.Cursor

/-!
# The reader of one doc list

`Advance` of a reader is a binary search over the whole list, so it does not
matter where the reader stood. The search keeps that everything before `min`
is past the target and everything behind `max` is not; `search_spec` says what
that leaves for the position where it breaks, and the last comparison of
`Advance` turns it into `advance_atMost`.

`NextDoc` depends on the position, and needs of it only that the ids behind it
are the ones below the id it shows (`nextDoc_below`).
-/

namespace Wwsearch.Spec

open Wwsearch.Lib Wwsearch.Ref

/-! ## Greatest ids -/

section Bounds

variable {ids : Set DocumentID} {bound d : DocumentID}

theorem atMost_intro (h : d ≠ 0 → d ∈ ids ∧ d ≤ bound)
    (hmax : ∀ x ∈ ids, x ≤ bound → x ≤ d) : AtMost ids bound d := by
  refine ⟨?_, ?_⟩
  · by_cases hd : d = 0
    · exact .inl hd
    · exact .inr (h hd)
  · rintro x (rfl | ⟨hx, hxb⟩)
    · exact UInt64.zero_le
    · exact hmax x hx hxb

theorem AtMost.le (h : AtMost ids bound d) : d ≤ bound := by
  rcases h.1 with rfl | ⟨-, hd⟩
  · exact UInt64.zero_le
  · exact hd

theorem AtMost.mem (h : AtMost ids bound d) (hd : d ≠ 0) : d ∈ ids := by
  rcases h.1 with rfl | ⟨hmem, -⟩
  · exact absurd rfl hd
  · exact hmem

theorem AtMost.ge (h : AtMost ids bound d) {x : DocumentID} (hx : x ∈ ids)
    (hxb : x ≤ bound) : x ≤ d := h.2 (.inr ⟨hx, hxb⟩)

theorem AtMost.unique {e : DocumentID} (h : AtMost ids bound d)
    (h' : AtMost ids bound e) : d = e := IsGreatest.unique h h'

theorem below_intro (h : d ≠ 0 → d ∈ ids ∧ d < bound)
    (hmax : ∀ x ∈ ids, x < bound → x ≤ d) : Below ids bound d := by
  refine ⟨?_, ?_⟩
  · by_cases hd : d = 0
    · exact .inl hd
    · exact .inr (h hd)
  · rintro x (rfl | ⟨hx, hxb⟩)
    · exact UInt64.zero_le
    · exact hmax x hx hxb

theorem Below.mem (h : Below ids bound d) (hd : d ≠ 0) : d ∈ ids := by
  rcases h.1 with rfl | ⟨hmem, -⟩
  · exact absurd rfl hd
  · exact hmem

theorem Below.lt (h : Below ids bound d) (hb : 0 < bound) : d < bound := by
  rcases h.1 with rfl | ⟨-, hd⟩
  · exact hb
  · exact hd

theorem Below.ge (h : Below ids bound d) {x : DocumentID} (hx : x ∈ ids)
    (hxb : x < bound) : x ≤ d := h.2 (.inr ⟨hx, hxb⟩)

theorem AtMost.mono {bound' : DocumentID} (h : AtMost ids bound d)
    (hd : d ≤ bound') (hb : bound' ≤ bound) : AtMost ids bound' d :=
  atMost_intro (fun hne => ⟨h.mem hne, hd⟩)
    fun _ hx hxb => h.ge hx (le_trans hxb hb)

theorem le_maxDocID (d : DocumentID) : d ≤ maxDocID := by
  rw [UInt64.le_iff_toNat_le]
  exact Nat.le_of_lt_succ (UInt64.toNat_lt d)

end Bounds

/-! ## The list of a reader -/

section Reader

variable {r : DocListReaderCodecImpl}

theorem currDoc_eq {i : Nat} (hi : i < r.slice.length) :
    r.currDoc i = r.slice[i].docId := by
  rw [DocListReaderCodecImpl.currDoc, getElem!_pos r.slice i hi]

theorem currDoc_lt (h : ReadableList r.slice) {i j : Nat} (hij : i < j)
    (hj : j < r.slice.length) : r.currDoc j < r.currDoc i := by
  rw [currDoc_eq hj, currDoc_eq (hij.trans hj)]
  exact List.pairwise_iff_getElem.1 h.desc i j (hij.trans hj) hj hij

theorem mem_idsOf_reader {d : DocumentID} : d ∈ idsOf (.reader r) ↔
    ∃ i, i < r.slice.length ∧ r.currDoc i = d := by
  rw [idsOf]
  constructor
  · rintro ⟨doc, hdoc, rfl⟩
    obtain ⟨i, hi, rfl⟩ := List.mem_iff_getElem.1 hdoc
    exact ⟨i, hi, currDoc_eq hi⟩
  · rintro ⟨i, hi, rfl⟩
    exact ⟨r.slice[i], List.getElem_mem hi, (currDoc_eq hi).symm⟩

theorem docID_of_lt (h : r.pos < r.slice.length) :
    r.docID = r.currDoc r.pos := by
  rw [DocListReaderCodecImpl.docID, List.getElem?_eq_getElem h, currDoc_eq h]

theorem docID_of_ge (h : r.slice.length ≤ r.pos) : r.docID = 0 := by
  rw [DocListReaderCodecImpl.docID, List.getElem?_eq_none h]
  rfl

theorem currDoc_ne_zero (h : ReadableList r.slice) {i : Nat}
    (hi : i < r.slice.length) : r.currDoc i ≠ 0 := by
  rw [currDoc_eq hi]
  exact h.nonzero _ (List.getElem_mem hi)

theorem docID_mem (hd : r.docID ≠ 0) : r.docID ∈ idsOf (.reader r) := by
  rcases Nat.lt_or_ge r.pos r.slice.length with hp | hp
  · exact mem_idsOf_reader.2 ⟨r.pos, hp, (docID_of_lt hp).symm⟩
  · exact absurd (docID_of_ge hp) hd

/-! ## The calls -/

/-- A call moves the reader to a place, and changes nothing else. -/
theorem nextDoc_moves : ∃ pos, r.nextDoc = { r with pos } := by
  rw [DocListReaderCodecImpl.nextDoc]
  split
  · exact ⟨_, rfl⟩
  · exact ⟨_, rfl⟩

theorem advance_moves (target : DocumentID) :
    ∃ pos, r.advance target = { r with pos } := by
  rw [DocListReaderCodecImpl.advance]
  split
  · exact ⟨_, rfl⟩
  · split
    · exact ⟨_, rfl⟩
    · dsimp only
      split
      · exact ⟨_, rfl⟩
      · exact ⟨_, rfl⟩

theorem nextDoc_slice : r.nextDoc.slice = r.slice := by
  obtain ⟨pos, hpos⟩ := @nextDoc_moves r
  rw [hpos]

theorem advance_slice (target : DocumentID) :
    (r.advance target).slice = r.slice := by
  obtain ⟨pos, hpos⟩ := @advance_moves r target
  rw [hpos]

theorem nextDoc_below (h : ReadableList r.slice) :
    Below (idsOf (.reader r)) r.docID r.nextDoc.docID := by
  rcases Nat.lt_or_ge r.pos r.slice.length with hp | hp
  · have hshow := docID_of_lt hp
    have hnext : r.nextDoc = { r with pos := r.pos + 1 } := by
      rw [DocListReaderCodecImpl.nextDoc, if_pos]
      rw [hshow]
      exact currDoc_ne_zero h hp
    rw [hnext, hshow]
    rcases Nat.lt_or_ge (r.pos + 1) r.slice.length with hp' | hp'
    · have hshow' : DocListReaderCodecImpl.docID { r with pos := r.pos + 1 } =
          r.currDoc (r.pos + 1) :=
        docID_of_lt (r := { r with pos := r.pos + 1 }) hp'
      rw [hshow']
      refine below_intro (fun _ => ⟨mem_idsOf_reader.2 ⟨_, hp', rfl⟩,
        currDoc_lt h (Nat.lt_succ_self _) hp'⟩) ?_
      intro x hx hlt
      obtain ⟨i, hi, rfl⟩ := mem_idsOf_reader.1 hx
      have hpi : r.pos < i := by
        by_contra hle
        rcases Nat.lt_or_eq_of_le (not_lt.1 hle) with hip | rfl
        · exact lt_asymm hlt (currDoc_lt h hip hp)
        · exact lt_irrefl _ hlt
      rcases Nat.lt_or_eq_of_le hpi with hip | rfl
      · exact le_of_lt (currDoc_lt h hip hi)
      · exact le_refl _
    · rw [docID_of_ge (r := { r with pos := r.pos + 1 }) hp']
      refine below_intro (fun hne => absurd rfl hne) fun x hx hlt => ?_
      obtain ⟨i, hi, rfl⟩ := mem_idsOf_reader.1 hx
      exfalso
      rcases Nat.lt_or_eq_of_le (Nat.le_of_lt_succ (hi.trans_le hp'))
        with hip | rfl
      · exact lt_asymm hlt (currDoc_lt h hip hp)
      · exact lt_irrefl _ hlt
  · have hshow := docID_of_ge hp
    have hnext : r.nextDoc = r := by
      rw [DocListReaderCodecImpl.nextDoc, if_neg fun hne => hne hshow]
    rw [hnext, hshow]
    exact below_intro (fun hne => absurd rfl hne)
      fun x _ hlt => absurd hlt (not_lt.2 UInt64.zero_le)

/-- What the binary search knows between two rounds. -/
structure Searching (r : DocListReaderCodecImpl) (target : DocumentID)
    (min max : Nat) : Prop where
  le : min ≤ max
  lt : max < r.slice.length
  before : ∀ i < min, target < r.currDoc i
  behind : max + 1 = r.slice.length ∨ r.currDoc max < target

/-- The position of a search: the first id up to the target, or any if there
is none. -/
structure Found (r : DocListReaderCodecImpl) (target : DocumentID)
    (p : Nat) : Prop where
  lt : p < r.slice.length
  first : r.currDoc p ≤ target → ∀ i < p, target < r.currDoc i
  none : target < r.currDoc p → ∀ i < r.slice.length, target < r.currDoc i

theorem Found.of_le {target : DocumentID} {p : Nat} (hp : p < r.slice.length)
    (hle : r.currDoc p ≤ target) (h : ∀ i < p, target < r.currDoc i) :
    Found r target p := ⟨hp, fun _ => h, fun hlt => absurd hle (not_le.2 hlt)⟩

/-- Nothing is known of the last position but that nothing is behind it. -/
theorem Found.of_last {target : DocumentID} {p : Nat} (hdesc : ReadableList r.slice)
    (hp : p + 1 = r.slice.length) (h : ∀ i < p, target < r.currDoc i) :
    Found r target p := by
  refine ⟨by omega, fun _ => h, fun hlt i hi => ?_⟩
  rcases Nat.lt_or_eq_of_le (show i ≤ p by omega) with hip | rfl
  · exact hlt.trans (currDoc_lt hdesc hip (by omega))
  · exact hlt

theorem search_spec (h : ReadableList r.slice) (target : DocumentID) :
    ∀ fuel min max, Searching r target min max → max - min < fuel →
      Found r target (r.search target fuel min max ((min + max) / 2)) := by
  have hupto : ∀ {p : Nat}, p < r.slice.length → target < r.currDoc p →
      ∀ i < p + 1, target < r.currDoc i := by
    intro p hp hlt i hi
    rcases Nat.lt_or_eq_of_le (Nat.le_of_lt_succ hi) with hip | rfl
    · exact hlt.trans (currDoc_lt h hip hp)
    · exact hlt
  intro fuel
  induction fuel with
  | zero => intro min max _ hfuel; exact absurd hfuel (Nat.not_lt_zero _)
  | succ fuel ih =>
      intro min max hs hfuel
      obtain ⟨hle, hlt, hbefore, hbehind⟩ := hs
      generalize hc : (min + max) / 2 = curr
      have hcl : curr < r.slice.length := by omega
      rw [DocListReaderCodecImpl.search, if_pos hle]
      by_cases heq : r.currDoc curr = target
      · rw [if_pos heq]
        refine .of_le hcl (le_of_eq heq) fun i hi => ?_
        rw [← heq]
        exact currDoc_lt h hi hcl
      · rw [if_neg heq]
        by_cases hgt : target < r.currDoc curr
        -- the left end moves up to the middle
        · simp only [if_pos hgt]
          split
          · next hmax =>
              have hlast : curr + 1 = r.slice.length := by
                rcases hbehind with hb | hb
                · omega
                · rw [hmax] at hb
                  exact absurd hb (lt_asymm hgt)
              exact .of_last h hlast fun i hi => hupto hcl hgt i (by omega)
          · split
            · next hne hmax =>
                rcases hbehind with hb | hb
                · exact .of_last h hb fun i hi => hupto hcl hgt i (by omega)
                · exact .of_le hlt (le_of_lt hb)
                    fun i hi => hupto hcl hgt i (by omega)
            · exact ih curr max ⟨by omega, hlt,
                fun i hi => hupto hcl hgt i (by omega), hbehind⟩ (by omega)
        -- the right end moves down to the middle
        · have hless : r.currDoc curr < target :=
            lt_of_le_of_ne (not_lt.1 hgt) heq
          simp only [if_neg hgt]
          split
          · next hmin =>
              exact .of_le hcl (le_of_lt hless) fun i hi => hbefore i (by omega)
          · split
            · next hmin =>
                split
                · next hmore =>
                    exact .of_le hcl (le_of_lt hless)
                      fun i hi => hupto (by omega) hmore i (by omega)
                · next hmore =>
                    exact .of_le (by omega) (not_lt.1 hmore) hbefore
            · exact ih min curr ⟨by omega, hcl, hbefore, .inr hless⟩ (by omega)

/-- Where `Advance` takes a reader of a list that is not empty: the place that
the search finds, or the end. -/
theorem advance_eq (h : ReadableList r.slice) (target : DocumentID)
    (hnil : r.slice ≠ []) : ∃ p, Found r target p ∧ r.advance target =
      { r with pos := if target < r.currDoc p then r.slice.length else p } := by
  have hpos : 0 < r.slice.length := List.length_pos_iff.2 hnil
  have hnone : ∀ i < 0, target < r.currDoc i :=
    fun i hi => absurd hi (Nat.not_lt_zero i)
  rw [DocListReaderCodecImpl.advance, if_neg hnil]
  by_cases hmax : target = maxDocID
  -- back to the start, the greatest id there is
  · have hle : r.currDoc 0 ≤ target := by
      rw [hmax]
      exact le_maxDocID _
    refine ⟨0, .of_le hpos hle hnone, ?_⟩
    rw [if_pos hmax, if_neg (not_lt.2 hle)]
  · have hfound := search_spec h target r.slice.length 0
      (r.slice.length - 1) ⟨by omega, by omega, hnone, .inl (by omega)⟩
      (by omega)
    rw [Nat.zero_add] at hfound
    refine ⟨_, hfound, ?_⟩
    rw [if_neg hmax]
    dsimp only
    generalize r.search target r.slice.length 0 (r.slice.length - 1)
      ((r.slice.length - 1) / 2) = p at hfound
    have hshow : DocListReaderCodecImpl.docID { r with pos := p } =
        r.currDoc p := docID_of_lt (r := { r with pos := p }) hfound.lt
    rw [hshow]
    split
    · rfl
    · rfl

theorem advance_atMost (h : ReadableList r.slice) (target : DocumentID) :
    AtMost (idsOf (.reader r)) target (r.advance target).docID := by
  by_cases hnil : r.slice = []
  · rw [DocListReaderCodecImpl.advance, if_pos hnil,
      docID_of_ge (by simp [hnil])]
    refine atMost_intro (fun hne => absurd rfl hne) fun x hx _ => ?_
    obtain ⟨i, hi, -⟩ := mem_idsOf_reader.1 hx
    rw [hnil] at hi
    exact absurd hi (Nat.not_lt_zero i)
  · obtain ⟨p, hfound, hadvance⟩ := advance_eq h target hnil
    rw [hadvance]
    by_cases hgt : target < r.currDoc p
    · rw [if_pos hgt, docID_of_ge (le_refl _)]
      refine atMost_intro (fun hne => absurd rfl hne) fun x hx hxt => ?_
      obtain ⟨i, hi, rfl⟩ := mem_idsOf_reader.1 hx
      exact absurd hxt (not_le.2 (hfound.none hgt i hi))
    · have hshow : DocListReaderCodecImpl.docID { r with pos := p } =
          r.currDoc p := docID_of_lt (r := { r with pos := p }) hfound.lt
      rw [if_neg hgt, hshow]
      refine atMost_intro (fun _ => ⟨mem_idsOf_reader.2 ⟨p, hfound.lt, rfl⟩,
        not_lt.1 hgt⟩) fun x hx hxt => ?_
      obtain ⟨i, hi, rfl⟩ := mem_idsOf_reader.1 hx
      rcases Nat.lt_trichotomy i p with hip | rfl | hpi
      · exact absurd hxt (not_le.2 (hfound.first (not_lt.1 hgt) i hip))
      · exact le_refl _
      · exact le_of_lt (currDoc_lt h hpi hi)

/-! ## The place -/

/-- The search reads inside of the list and comes to an end, in whatever order
the list is: the place that is read is between the ends, and the ends come
together. -/
theorem searchReads_eq (target : DocumentID) :
    ∀ fuel fuel' min max, min ≤ max → max < r.slice.length →
      max - min < fuel → max - min < fuel' →
      r.searchReads target fuel min max ((min + max) / 2) =
        some (r.search target fuel' min max ((min + max) / 2)) := by
  intro fuel
  induction fuel with
  | zero => intro _ _ _ _ _ hfuel; exact absurd hfuel (Nat.not_lt_zero _)
  | succ fuel ih =>
      intro fuel' min max hle hlt hfuel hfuel'
      obtain ⟨fuel', rfl⟩ := Nat.exists_eq_add_of_lt hfuel'
      rw [show max - min + fuel' + 1 = (max - min + fuel') + 1 from rfl,
        DocListReaderCodecImpl.searchReads, DocListReaderCodecImpl.search,
        if_pos hle, if_pos hle]
      generalize hc : (min + max) / 2 = curr
      have hcl : curr < r.slice.length := by omega
      rw [List.getElem?_eq_getElem hcl, currDoc_eq hcl]
      simp only [Option.bind_eq_bind, Option.bind_some]
      by_cases heq : r.slice[curr].docId = target
      · rw [if_pos heq, if_pos heq]
      · rw [if_neg heq, if_neg heq]
        have hend : ∀ lo hi : Nat, lo ≤ hi → hi < r.slice.length →
            (lo ≠ hi → lo + 1 ≠ hi → hi - lo < max - min) →
            (if hi = lo then some curr
              else if lo + 1 = hi then (r.slice[lo]?).bind fun minDoc =>
                if target < minDoc.docId then some hi else some lo
              else r.searchReads target fuel lo hi ((lo + hi) / 2)) =
            some (if hi = lo then curr
              else if lo + 1 = hi then
                if target < r.currDoc lo then hi else lo
              else r.search target (max - min + fuel') lo hi
                ((lo + hi) / 2)) := by
          intro lo hi hlohi hhi hless
          by_cases hsame : hi = lo
          · rw [if_pos hsame, if_pos hsame]
          · rw [if_neg hsame, if_neg hsame]
            by_cases hnext : lo + 1 = hi
            · have hlo : lo < r.slice.length := by omega
              rw [if_pos hnext, if_pos hnext, List.getElem?_eq_getElem hlo,
                currDoc_eq hlo, Option.bind_some]
              exact (apply_ite some _ _ _).symm
            · rw [if_neg hnext, if_neg hnext]
              have hshort := hless (Ne.symm hsame) hnext
              exact ih _ lo hi hlohi hhi (by omega) (by omega)
        by_cases hgt : target < r.slice[curr].docId
        · simp only [if_pos hgt]
          exact hend curr max (by omega) hlt fun hne hnext => by omega
        · simp only [if_neg hgt]
          exact hend min curr (by omega) hcl fun hne hnext => by omega

theorem advanceReads_settles (r : DocListReaderCodecImpl)
    (target : DocumentID) :
    Settles (fun fuel => r.advanceReads fuel target) (r.advance target) := by
  refine ⟨r.slice.length, fun fuel hfuel => ?_⟩
  show r.advanceReads fuel target = _
  rw [DocListReaderCodecImpl.advanceReads, DocListReaderCodecImpl.advance]
  by_cases hnil : r.slice = []
  · rw [if_pos hnil, if_pos hnil]
  · have hpos : 0 < r.slice.length := List.length_pos_iff.2 hnil
    rw [if_neg hnil, if_neg hnil]
    by_cases hmax : target = maxDocID
    · rw [if_pos hmax, if_pos hmax]
    · have hsearch := searchReads_eq (r := r) target fuel r.slice.length 0
        (r.slice.length - 1) (Nat.zero_le _) (by omega) (by omega) (by omega)
      rw [Nat.zero_add] at hsearch
      rw [if_neg hmax, if_neg hmax]
      dsimp only
      rw [hsearch]
      rfl

theorem advance_fieldId (target : DocumentID) :
    (r.advance target).fieldId = r.fieldId := by
  obtain ⟨pos, hpos⟩ := @advance_moves r target
  rw [hpos]

/-- The place of an entry up to the target that has only greater ones before
it. -/
theorem firstUpTo_eq {target : DocumentID} {p : Nat} (hp : p < r.slice.length)
    (hle : r.currDoc p ≤ target) (h : ∀ i < p, target < r.currDoc i) :
    firstUpTo r.slice target = p := by
  refine (List.findIdx_eq hp).2 ⟨?_, fun i hi => ?_⟩
  · rw [← currDoc_eq hp]
    exact decide_eq_true hle
  · rw [← currDoc_eq (hi.trans hp)]
    exact decide_eq_false (not_le.2 (h i hi))

theorem advance_found (h : ReadableList r.slice) {target : DocumentID}
    {doc : DocList} (hdoc : doc ∈ r.slice) (hle : doc.docId ≤ target) :
    (r.advance target).pos = firstUpTo r.slice target := by
  obtain ⟨p, hfound, hadvance⟩ :=
    advance_eq h target (List.ne_nil_of_mem hdoc)
  have hnot : ¬ target < r.currDoc p := by
    intro hgt
    obtain ⟨i, hi, rfl⟩ := List.mem_iff_getElem.1 hdoc
    have hlt := hfound.none hgt i hi
    rw [currDoc_eq hi] at hlt
    exact absurd hle (not_le.2 hlt)
  rw [hadvance, if_neg hnot, firstUpTo_eq hfound.lt (not_lt.1 hnot)
    (hfound.first (not_lt.1 hnot))]

theorem advance_ended (h : ReadableList r.slice) {target : DocumentID}
    (hall : ∀ doc ∈ r.slice, target < doc.docId) :
    r.slice.length ≤ (r.advance target).pos ∧
      (r.advance target).docID = noMoreDocs := by
  have hzero : (r.advance target).docID = noMoreDocs := by
    by_contra hne
    have hmost := advance_atMost h target
    obtain ⟨i, hi, hid⟩ := mem_idsOf_reader.1 (hmost.mem hne)
    have hgt := hall _ (List.getElem_mem hi)
    rw [← currDoc_eq hi, hid] at hgt
    exact absurd hmost.le (not_le.2 hgt)
  refine ⟨?_, hzero⟩
  by_contra hlt
  rw [← advance_slice target] at hlt h
  rw [docID_of_lt (not_le.1 hlt)] at hzero
  exact currDoc_ne_zero h (not_le.1 hlt) hzero

/-- **`Advance` ends, reads inside of the list and finds the first entry up to
the target**, wherever the reader stood: in lists of any length, for any
target, and the greatest target takes it to the first entry. -/
theorem advance_finds (r : DocListReaderCodecImpl) (h : ReadableList r.slice)
    (target : DocumentID) :
    ∃ r', Settles (fun fuel => r.advanceReads fuel target) r' ∧
      AdvancesTo r r' target ∧
      (target = maxDocID → r.slice ≠ [] → r'.pos = 0) := by
  refine ⟨r.advance target, advanceReads_settles r target,
    ⟨advance_slice target, advance_fieldId target,
      fun ⟨_, hdoc, hle⟩ => advance_found h hdoc hle, advance_ended h⟩, ?_⟩
  intro hmax hnil
  rw [DocListReaderCodecImpl.advance, if_neg hnil, if_pos hmax]

theorem advance_finds_three :
    ∃ r', Settles (fun fuel => DocListReaderCodecImpl.advanceReads fuel
        { slice := [⟨9, 0⟩, ⟨5, 1⟩, ⟨2, 0⟩], pos := 2 } 6) r' ∧
      AdvancesTo { slice := [⟨9, 0⟩, ⟨5, 1⟩, ⟨2, 0⟩], pos := 2 } r' 6 ∧
      ((6 : DocumentID) = maxDocID →
        [(⟨9, 0⟩ : DocList), ⟨5, 1⟩, ⟨2, 0⟩] ≠ [] → r'.pos = 0) :=
  advance_finds { slice := [⟨9, 0⟩, ⟨5, 1⟩, ⟨2, 0⟩], pos := 2 }
    ⟨by decide, by decide⟩ 6

end Reader

end Wwsearch.Spec
