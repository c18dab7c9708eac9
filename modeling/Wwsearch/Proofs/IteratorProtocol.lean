import Mathlib.Data.List.Forall2
import Wwsearch.Lib.Settles
import Wwsearch.Proofs.ReaderCursor

/-!
# What every iterator keeps to

`Advance` is only ever called in two ways: with a target that the iterator is
past, and with `MAX_DOCID` before the iteration starts. `Obeys` says what an
iterator does for the first call, for `NextDoc`, and how little is promised of
the second: a reader goes back to its start, an `OrIterator` stays where it is,
and a `MergeIterator` of both ends up somewhere in between. It never shows a
smaller id than before, and that is enough for the one that contains it.

`Standing` is the state that the calls keep. All parts of a `MergeIterator`
show the same id; the parts of an `OrIterator` are a heap, and each of them
shows the greatest of its ids up to the one at the front. The induction is on
the depth, because after one round the parts are no longer those of the
iterator that was called.
-/

namespace Wwsearch.Spec

open Wwsearch.Lib Wwsearch.Ref Wwsearch.Ref.DocIdSetIterator

/-! ## Standing iterators -/

/-- An iterator of at most the depth, as the calls leave it. -/
inductive Standing : Nat → DocIdSetIterator → Prop
  | reader {n : Nat} {r : DocListReaderCodecImpl}
      (hlist : ReadableList r.slice) : Standing n (.reader r)
  | merge {n : Nat} {sub : List DocIdSetIterator} {curr : DocumentID}
      {fieldId : Int} (hsub : ∀ s ∈ sub, Standing n s)
      (hsame : ∀ s ∈ sub, s.docID = curr) (hempty : sub = [] → curr = 0) :
      Standing (n + 1) (.merge sub curr fieldId)
  | or {n : Nat} {sub : List DocIdSetIterator} (hsub : ∀ s ∈ sub, Standing n s)
      (hheap : Heap.IsHeap docID sub)
      (hpos : ∀ s ∈ sub, AtMost (idsOf s) (docID (.or sub)) s.docID) :
      Standing (n + 1) (.or sub)

theorem mem_idsOf_merge {sub : List DocIdSetIterator} {curr : DocumentID}
    {fieldId : Int} {d : DocumentID} : d ∈ idsOf (.merge sub curr fieldId) ↔
      sub ≠ [] ∧ ∀ s ∈ sub, d ∈ idsOf s := by
  rw [idsOf]
  rfl

theorem mem_idsOf_or {sub : List DocIdSetIterator} {d : DocumentID} :
    d ∈ idsOf (.or sub) ↔ ∃ s ∈ sub, d ∈ idsOf s := by
  rw [idsOf]
  constructor
  · rintro ⟨s, hs, hd⟩
    exact ⟨s, hs, hd⟩
  · rintro ⟨s, hs, hd⟩
    exact ⟨s, hs, hd⟩

/-- The id that is shown is one of the ids. -/
theorem Standing.docID_mem {n : Nat} {it : DocIdSetIterator}
    (h : Standing n it) : it.docID ≠ 0 → it.docID ∈ idsOf it := by
  induction h with
  | reader hlist => exact Spec.docID_mem
  | merge hsub hsame hempty ih =>
      intro hne
      rw [mem_idsOf_merge]
      refine ⟨fun hnil => hne (hempty hnil), fun s hs => ?_⟩
      have hs' := ih s hs
      rw [hsame s hs] at hs'
      exact hs' hne
  | @or n sub hsub hheap hpos ih =>
      intro hne
      cases sub with
      | nil => exact absurd rfl hne
      | cons front rest =>
          exact mem_idsOf_or.2
            ⟨front, List.mem_cons_self, ih front List.mem_cons_self hne⟩

theorem Standing.ne_zero {n : Nat} {it : DocIdSetIterator}
    (h : Standing n it) : ∀ d ∈ idsOf it, d ≠ 0 := by
  induction h with
  | reader hlist =>
      intro d hd
      obtain ⟨i, hi, rfl⟩ := mem_idsOf_reader.1 hd
      exact currDoc_ne_zero hlist hi
  | @merge n sub curr fieldId hsub hsame hempty ih =>
      intro d hd
      obtain ⟨hne, hall⟩ := mem_idsOf_merge.1 hd
      obtain ⟨s, hs⟩ := List.exists_mem_of_ne_nil sub hne
      exact ih s hs d (hall s hs)
  | or hsub hheap hpos ih =>
      intro d hd
      obtain ⟨s, hs, hmem⟩ := mem_idsOf_or.1 hd
      exact ih s hs d hmem

/-- A call that ends, leaves the iterator standing, and takes it to an id that
`R` is true of. -/
def Goes (n : Nat) (c : Call) (it : DocIdSetIterator)
    (R : DocumentID → Prop) : Prop :=
  ∃ it', Settles (fun fuel => call fuel c it) it' ∧
    (Standing n it' ∧ idsOf it' = idsOf it ∧ R it'.docID)

structure Obeys (n : Nat) (it : DocIdSetIterator) : Prop where
  nextDoc : Goes n .nextDoc it (Below (idsOf it) it.docID)
  advance : ∀ target, target < it.docID →
    Goes n (.advance target) it (AtMost (idsOf it) target)
  rewind : Goes n (.advance maxDocID) it (it.docID ≤ ·)

theorem obeys_reader (n : Nat) {r : DocListReaderCodecImpl}
    (h : ReadableList r.slice) : Obeys n (.reader r) where
  nextDoc := by
    refine ⟨.reader r.nextDoc, Settles.succ (Settles.pure _), .reader ?_, ?_,
      nextDoc_below h⟩
    · rw [nextDoc_slice]
      exact h
    · rw [idsOf, idsOf, nextDoc_slice]
  advance := by
    intro target _
    refine ⟨.reader (r.advance target), Settles.succ (Settles.pure _),
      .reader ?_, ?_, advance_atMost h target⟩
    · rw [advance_slice]
      exact h
    · rw [idsOf, idsOf, advance_slice]
  rewind := by
    have hmost := advance_atMost h maxDocID
    refine ⟨.reader (r.advance maxDocID), Settles.succ (Settles.pure _),
      .reader ?_, ?_, ?_⟩
    · rw [advance_slice]
      exact h
    · rw [idsOf, idsOf, advance_slice]
    · show r.docID ≤ (r.advance maxDocID).docID
      by_cases hd : r.docID = 0
      · rw [hd]
        exact UInt64.zero_le
      · exact hmost.ge (Spec.docID_mem hd) (le_maxDocID _)

/-! ## A pass over the parts -/

/-- The parts before and after a pass, with what each of them did. -/
def Passed (n : Nat) (R : DocIdSetIterator → DocumentID → Prop) :
    List DocIdSetIterator → List DocIdSetIterator → Prop :=
  List.Forall₂ fun s s' => Standing n s' ∧ idsOf s' = idsOf s ∧ R s s'.docID

namespace Passed

variable {n : Nat} {R : DocIdSetIterator → DocumentID → Prop}
  {sub sub' : List DocIdSetIterator}

theorem standing (h : Passed n R sub sub') : ∀ s ∈ sub', Standing n s := by
  induction h with
  | nil => exact fun s hs => absurd hs List.not_mem_nil
  | cons hs _ ih =>
      intro x hx
      rcases List.mem_cons.1 hx with rfl | hx
      · exact hs.1
      · exact ih x hx

/-- Every part has its former self. -/
theorem former (h : Passed n R sub sub') :
    ∀ s' ∈ sub', ∃ s ∈ sub, idsOf s' = idsOf s ∧ R s s'.docID := by
  induction h with
  | nil => exact fun s hs => absurd hs List.not_mem_nil
  | @cons s s' sub sub' hs _ ih =>
      intro x hx
      rcases List.mem_cons.1 hx with rfl | hx
      · exact ⟨s, List.mem_cons_self, hs.2⟩
      · obtain ⟨y, hy, hxy⟩ := ih x hx
        exact ⟨y, List.mem_cons_of_mem s hy, hxy⟩

theorem latter (h : Passed n R sub sub') :
    ∀ s ∈ sub, ∃ s' ∈ sub', idsOf s' = idsOf s ∧ R s s'.docID := by
  induction h with
  | nil => exact fun s hs => absurd hs List.not_mem_nil
  | @cons s s' sub sub' hs _ ih =>
      intro x hx
      rcases List.mem_cons.1 hx with rfl | hx
      · exact ⟨s', List.mem_cons_self, hs.2⟩
      · obtain ⟨y, hy, hxy⟩ := ih x hx
        exact ⟨y, List.mem_cons_of_mem s' hy, hxy⟩

theorem nil_iff (h : Passed n R sub sub') : sub' = [] ↔ sub = [] := by
  cases h with
  | nil => exact Iff.rfl
  | cons _ _ => exact ⟨(fun h => nomatch h), (fun h => nomatch h)⟩

theorem idsOf_merge (h : Passed n R sub sub') (curr curr' : DocumentID)
    (f f' : Int) : idsOf (.merge sub' curr' f') = idsOf (.merge sub curr f) := by
  ext d
  rw [mem_idsOf_merge, mem_idsOf_merge, ne_eq, ne_eq, h.nil_iff]
  refine and_congr_right fun _ => ⟨fun hall s hs => ?_, fun hall s hs => ?_⟩
  · obtain ⟨s', hs', heq, -⟩ := h.latter s hs
    rw [← heq]
    exact hall s' hs'
  · obtain ⟨x, hx, heq, -⟩ := h.former s hs
    rw [heq]
    exact hall x hx

end Passed

/-! ## `MergeIterator` -/

/-- What the scan knows of the parts it has seen. -/
structure Scanned (seen : List DocIdSetIterator)
    (acc : DocumentID × FieldID × Bool) : Prop where
  le : ∀ s ∈ seen, acc.1 ≤ s.docID
  least : ∃ s ∈ seen, s.docID = acc.1
  same : acc.2.2 = false → ∀ s ∈ seen, s.docID = acc.1
  differ : acc.2.2 = true → ∃ s ∈ seen, acc.1 < s.docID

theorem Scanned.step {seen : List DocIdSetIterator}
    {acc : DocumentID × FieldID × Bool} (h : Scanned seen acc)
    (x : DocIdSetIterator) : Scanned (seen ++ [x]) (scanMin acc x) := by
  obtain ⟨y, hy, hymin⟩ := h.least
  rw [scanMin]
  by_cases hx : x.docID < acc.1
  · rw [if_pos hx]
    refine ⟨fun s hs => ?_, ⟨x, by simp, rfl⟩,
      fun hf => absurd hf Bool.noConfusion,
      fun _ => ⟨y, by simp [hy], hymin ▸ hx⟩⟩
    rcases List.mem_append.1 hs with hs | hs
    · exact (le_of_lt hx).trans (h.le s hs)
    · rw [List.mem_singleton.1 hs]
  · rw [if_neg hx]
    refine ⟨fun s hs => ?_, ⟨y, by simp [hy], hymin⟩, fun hf s hs => ?_,
      fun ht => ?_⟩
    · rcases List.mem_append.1 hs with hs | hs
      · exact h.le s hs
      · rw [List.mem_singleton.1 hs]
        exact not_lt.1 hx
    · obtain ⟨hretry, heq⟩ := Bool.or_eq_false_iff.1 hf
      rcases List.mem_append.1 hs with hs | hs
      · exact h.same hretry s hs
      · rw [List.mem_singleton.1 hs]
        exact le_antisymm (not_lt.1 (of_decide_eq_false heq)) (not_lt.1 hx)
    · rcases Bool.or_eq_true_iff.1 ht with hretry | hlt
      · obtain ⟨s, hs, hslt⟩ := h.differ hretry
        exact ⟨s, by simp [hs], hslt⟩
      · exact ⟨x, by simp, of_decide_eq_true hlt⟩

theorem findMin_scanned {sub : List DocIdSetIterator} (hne : sub ≠ []) :
    Scanned sub (findMin sub) := by
  have hfold : ∀ (rest seen : List DocIdSetIterator)
      (acc : DocumentID × FieldID × Bool), Scanned seen acc →
      Scanned (seen ++ rest) (rest.foldl scanMin acc) := by
    intro rest
    induction rest with
    | nil =>
        intro seen acc h
        rw [List.append_nil]
        exact h
    | cons x rest ih =>
        intro seen acc h
        rw [List.foldl_cons, List.append_cons]
        exact ih _ _ (h.step x)
  cases sub with
  | nil => exact absurd rfl hne
  | cons first rest =>
      refine hfold rest [first] _ ⟨fun s hs => ?_, ⟨first, by simp, rfl⟩,
        fun _ s hs => ?_, fun hf => absurd hf Bool.false_ne_true⟩
      · rw [List.mem_singleton.1 hs]
      · rw [List.mem_singleton.1 hs]

/-- A bound on the rounds: all ids that are shown, added up. -/
def shown (sub : List DocIdSetIterator) : Nat :=
  (sub.map fun s => s.docID.toNat).sum

theorem shown_lt {n : Nat} {R : DocIdSetIterator → DocumentID → Prop}
    {P : DocIdSetIterator → Prop} {sub sub' : List DocIdSetIterator}
    (h : Passed n R sub sub')
    (hle : ∀ s ∈ sub, ∀ d, R s d → d ≤ s.docID ∧ (P s → d < s.docID))
    (hex : ∃ s ∈ sub, P s) : shown sub' < shown sub := by
  have hsum : shown sub' ≤ shown sub ∧
      ((∃ s ∈ sub, P s) → shown sub' < shown sub) := by
    clear hex
    induction h with
    | nil => exact ⟨Nat.le_refl _, fun ⟨s, hs, _⟩ => absurd hs List.not_mem_nil⟩
    | @cons s s' sub sub' hs _ ih =>
        obtain ⟨ihle, ihlt⟩ := ih fun x hx => hle x (List.mem_cons_of_mem s hx)
        obtain ⟨hsle, hslt⟩ := hle s List.mem_cons_self _ hs.2.2
        have hle' := UInt64.le_iff_toNat_le.1 hsle
        simp only [shown, List.map_cons, List.sum_cons] at ihle ihlt ⊢
        refine ⟨by omega, ?_⟩
        rintro ⟨x, hx, hp⟩
        rcases List.mem_cons.1 hx with rfl | hx
        · have hlt := UInt64.lt_iff_toNat_lt.1 (hslt hp)
          omega
        · have hlt := ihlt ⟨x, hx, hp⟩
          omega
  exact hsum.2 hex

/-- What a round does to a part: one that is past the least id is advanced to
it, and another stays. -/
def CatchesUp (min : DocumentID) (s : DocIdSetIterator) (d : DocumentID) :
    Prop :=
  if min < s.docID then AtMost (idsOf s) min d else d = s.docID

section CatchUp

variable {n : Nat} {min d : DocumentID} {s : DocIdSetIterator}

theorem CatchesUp.le (h : CatchesUp min s d) :
    d ≤ s.docID ∧ (min < s.docID → d < s.docID) := by
  rw [CatchesUp] at h
  split at h
  · next hlt => exact ⟨(h.le.trans_lt hlt).le, fun _ => h.le.trans_lt hlt⟩
  · next hlt => exact ⟨le_of_eq h, fun h' => absurd h' hlt⟩

theorem CatchesUp.ge (h : CatchesUp min s d) {x : DocumentID}
    (hx : x ∈ idsOf s) (hmin : x ≤ min) (hle : x ≤ s.docID) : x ≤ d := by
  rw [CatchesUp] at h
  split at h
  · exact h.ge hx hmin
  · rw [h]
    exact hle

theorem catchUp_settles (hobeys : ∀ s, Standing n s → Obeys n s)
    {sub : List DocIdSetIterator} (hsub : ∀ s ∈ sub, Standing n s)
    (min : DocumentID) :
    ∃ sub', Settles (fun fuel => sub.mapM fun s =>
        if min < s.docID then call fuel (.advance min) s else some s) sub' ∧
      Passed n (CatchesUp min) sub sub' := by
  refine Settles.mapM
    (g := fun fuel s => if min < s.docID then call fuel (.advance min) s
      else some s)
    (R := fun s s' => Standing n s' ∧ idsOf s' = idsOf s ∧
      CatchesUp min s s'.docID) fun s hs => ?_
  by_cases hlt : min < s.docID
  · simp only [CatchesUp, if_pos hlt]
    exact (hobeys s (hsub s hs)).advance min hlt
  · simp only [CatchesUp, if_neg hlt]
    exact ⟨s, Settles.pure s, hsub s hs, rfl, rfl⟩

end CatchUp

/-- The loop ends at the greatest common id that no part is past. -/
theorem mergeLoop_settles {n : Nat} (hobeys : ∀ s, Standing n s → Obeys n s)
    (sub : List DocIdSetIterator) (hsub : ∀ s ∈ sub, Standing n s) :
    ∃ it, Settles (fun fuel => mergeLoop fuel sub) it ∧
      (Standing (n + 1) it ∧ idsOf it = idsOf (.merge sub 0 0) ∧
        (∀ s ∈ sub, it.docID ≤ s.docID) ∧
        ∀ d ∈ idsOf it, (∀ s ∈ sub, d ≤ s.docID) → d ≤ it.docID) := by
  generalize hm : shown sub = m
  induction m using Nat.strongRecOn generalizing sub with
  | ind m ih =>
      subst hm
      rcases hfind : findMin sub with ⟨min, fieldId, retry⟩
      by_cases hnil : sub = []
      · subst hnil
        refine ⟨.merge [] 0 0, Settles.succ (Settles.pure _),
          .merge hsub (fun s hs => absurd hs List.not_mem_nil) fun _ => rfl,
          rfl, fun s hs => absurd hs List.not_mem_nil, fun d hd _ => ?_⟩
        exact absurd rfl (mem_idsOf_merge.1 hd).1
      obtain ⟨hmin, ⟨low, hlow, hlowmin⟩, hsame, hdiffer⟩ :=
        findMin_scanned hnil
      rw [hfind] at hmin hlowmin hsame hdiffer
      replace hlowmin : low.docID = min := hlowmin
      cases retry with
      | false =>
          have hstop : Settles (fun fuel => mergeLoop fuel sub)
              (.merge sub min (fieldId.toNat : Int)) := by
            refine ⟨1, fun fuel hfuel => ?_⟩
            cases fuel with
            | zero => exact absurd hfuel (Nat.not_succ_le_zero 0)
            | succ fuel =>
                show mergeLoop (fuel + 1) sub = _
                rw [DocIdSetIterator.mergeLoop.eq_def]
                simp only [hfind]
          refine ⟨_, hstop, .merge hsub (hsame rfl) fun h => absurd h hnil, ?_,
            hmin, fun d hd hle => ?_⟩
          · ext d
            rw [mem_idsOf_merge, mem_idsOf_merge]
          · exact hlowmin ▸ hle low hlow
      | true =>
          obtain ⟨sub', hsettles, hpassed⟩ := catchUp_settles hobeys hsub min
          obtain ⟨it, hit, hstand, hids, hbelow, habove⟩ := ih _
            (shown_lt (P := fun s => min < s.docID) hpassed
              (fun s _ d hd => hd.le) (hdiffer rfl)) sub' hpassed.standing rfl
          refine ⟨it, ?_, hstand, hids.trans (hpassed.idsOf_merge _ _ _ _),
            fun s hs => ?_, fun d hd hle => ?_⟩
          · refine Settles.succ ?_
            have hstep : (fun fuel => mergeLoop (fuel + 1) sub) = fun fuel =>
                (sub.mapM fun s => if min < s.docID then
                  call fuel (.advance min) s else some s).bind
                    (mergeLoop fuel) := by
              funext fuel
              rw [DocIdSetIterator.mergeLoop, hfind]
              rfl
            rw [hstep]
            exact hsettles.bind hit
          · obtain ⟨s', hs', -, hr⟩ := hpassed.latter s hs
            exact (hbelow s' hs').trans hr.le.1
          · refine habove d hd fun s' hs' => ?_
            obtain ⟨s, hs, -, hr⟩ := hpassed.former s' hs'
            rw [hids, hpassed.idsOf_merge 0 0 0 0] at hd
            exact hr.ge ((mem_idsOf_merge.1 hd).2 s hs)
              (hlowmin ▸ hle low hlow) (hle s hs)

/-- A call to a `MergeIterator` is a pass over its parts and then the loop. -/
theorem goes_merge {n : Nat} (hobeys : ∀ s, Standing n s → Obeys n s)
    {sub : List DocIdSetIterator} {curr : DocumentID} {fieldId : Int}
    {c : Call} {R : DocIdSetIterator → DocumentID → Prop}
    {Q : DocumentID → Prop} (hsub : ∀ s ∈ sub, Goes n c s (R s))
    (hQ : ∀ d, (d ≠ 0 → d ∈ idsOf (.merge sub curr fieldId)) →
      (∀ s ∈ sub, ∃ p, R s p ∧ d ≤ p) →
      (∀ x ∈ idsOf (.merge sub curr fieldId),
        (∀ s ∈ sub, ∀ p, R s p → x ≤ p) → x ≤ d) → Q d) :
    Goes (n + 1) c (.merge sub curr fieldId) Q := by
  obtain ⟨sub', hsettles, hpassed⟩ := Settles.mapM
    (g := fun fuel s => call fuel c s)
    (R := fun s s' => Standing n s' ∧ idsOf s' = idsOf s ∧ R s s'.docID) hsub
  have hpassed : Passed n R sub sub' := hpassed
  obtain ⟨it, hit, hstand, hids, hbelow, habove⟩ :=
    mergeLoop_settles hobeys sub' hpassed.standing
  have hids' : idsOf it = idsOf (.merge sub curr fieldId) :=
    hids.trans (hpassed.idsOf_merge _ _ _ _)
  refine ⟨it, Settles.succ ?_, hstand, hids', hQ _ ?_ ?_ ?_⟩
  · have hstep : (fun fuel => call (fuel + 1) c (.merge sub curr fieldId)) =
        fun fuel => (sub.mapM (call fuel c)).bind (mergeLoop fuel) := by
      funext fuel
      cases c <;> rfl
    rw [hstep]
    exact hsettles.bind hit
  · rw [← hids']
    exact hstand.docID_mem
  · intro s hs
    obtain ⟨s', hs', -, hr⟩ := hpassed.latter s hs
    exact ⟨s'.docID, hr, hbelow s' hs'⟩
  · intro x hx hle
    refine habove x (hids'.symm ▸ hx) fun s' hs' => ?_
    obtain ⟨s, hs, -, hr⟩ := hpassed.former s' hs'
    exact hle s hs _ hr

theorem obeys_merge {n : Nat} (hobeys : ∀ s, Standing n s → Obeys n s)
    {sub : List DocIdSetIterator} {curr : DocumentID} {fieldId : Int}
    (hsub : ∀ s ∈ sub, Standing n s) (hsame : ∀ s ∈ sub, s.docID = curr)
    (hempty : sub = [] → curr = 0) :
    Obeys (n + 1) (.merge sub curr fieldId) where
  nextDoc := by
    refine goes_merge hobeys (fun s hs => (hobeys s (hsub s hs)).nextDoc) ?_
    intro d hmem hlow hhigh
    show Below _ curr d
    have hx : ∀ x ∈ idsOf (.merge sub curr fieldId), x < curr → x ≤ d := by
      intro x hx hxc
      refine hhigh x hx fun s hs p hp => hp.ge ((mem_idsOf_merge.1 hx).2 s hs) ?_
      rw [hsame s hs]
      exact hxc
    refine below_intro (fun hd => ⟨hmem hd, ?_⟩) hx
    obtain ⟨s, hs⟩ := List.exists_mem_of_ne_nil sub
      (mem_idsOf_merge.1 (hmem hd)).1
    obtain ⟨p, hp, hdp⟩ := hlow s hs
    rw [hsame s hs] at hp
    have hp0 : p ≠ 0 := fun h0 =>
      hd (le_antisymm (h0 ▸ hdp) UInt64.zero_le)
    exact hdp.trans_lt (hp.1.resolve_left hp0).2
  advance := by
    intro target htarget
    have htarget : target < curr := htarget
    refine goes_merge hobeys (fun s hs => (hobeys s (hsub s hs)).advance target
      (by rw [hsame s hs]; exact htarget)) ?_
    intro d hmem hlow hhigh
    have hx : ∀ x ∈ idsOf (.merge sub curr fieldId), x ≤ target → x ≤ d :=
      fun x hx hxt => hhigh x hx fun s hs p hp =>
        hp.ge ((mem_idsOf_merge.1 hx).2 s hs) hxt
    refine atMost_intro (fun hd => ⟨hmem hd, ?_⟩) hx
    obtain ⟨s, hs⟩ := List.exists_mem_of_ne_nil sub
      (mem_idsOf_merge.1 (hmem hd)).1
    obtain ⟨p, hp, hdp⟩ := hlow s hs
    exact hdp.trans hp.le
  rewind := by
    refine goes_merge hobeys (fun s hs => (hobeys s (hsub s hs)).rewind) ?_
    intro d _ _ hhigh
    show curr ≤ d
    by_cases hcurr : curr = 0
    · rw [hcurr]
      exact UInt64.zero_le
    · have hstand : Standing (n + 1) (.merge sub curr fieldId) :=
        .merge hsub hsame hempty
      refine hhigh curr (hstand.docID_mem hcurr) fun s hs p hp => ?_
      rw [hsame s hs] at hp
      exact hp

/-! ## `OrIterator` -/

theorem greater_iff (a b : DocIdSetIterator) :
    greater a b = true ↔ b.docID < a.docID := decide_eq_true_iff

theorem idsOf_or_perm {sub sub' : List DocIdSetIterator}
    (h : sub.Perm sub') : idsOf (.or sub) = idsOf (.or sub') := by
  ext d
  rw [mem_idsOf_or, mem_idsOf_or]
  exact exists_congr fun s => and_congr_left fun _ => h.mem_iff

/-- The parts between two rounds: those that are up to the target are where they
should be. -/
structure Waits (n : Nat) (target top : DocumentID)
    (sub : List DocIdSetIterator) : Prop where
  standing : ∀ s ∈ sub, Standing n s
  heap : Heap.IsHeap docID sub
  le : ∀ s ∈ sub, s.docID ≤ top
  pos : ∀ s ∈ sub, s.docID ≤ target → AtMost (idsOf s) target s.docID

section Rounds

variable {n : Nat} {target top : DocumentID} {front back : DocIdSetIterator}
  {rest popped : List DocIdSetIterator}

theorem pushed_perm (hperm : popped.Perm rest) :
    (Heap.pushHeap greater (popped ++ [back])).Perm (back :: rest) :=
  (Heap.pushHeap_perm popped back).trans
    ((List.perm_append_singleton back popped).trans (hperm.cons back))

/-- The front has been moved up to the target and pushed back. -/
theorem Waits.round (h : Waits n target top (front :: rest))
    (htop : target ≤ top) (hperm : popped.Perm rest)
    (hheap : Heap.IsHeap docID popped) (hstand : Standing n back)
    (hids : idsOf back = idsOf front)
    (hmost : AtMost (idsOf front) target back.docID) :
    Waits n target top (Heap.pushHeap greater (popped ++ [back])) := by
  have hmem : ∀ s ∈ Heap.pushHeap greater (popped ++ [back]),
      s = back ∨ s ∈ rest :=
    fun s hs => List.mem_cons.1 ((pushed_perm hperm).mem_iff.1 hs)
  refine ⟨fun s hs => ?_, Heap.pushHeap_isHeap greater_iff hheap back,
    fun s hs => ?_, fun s hs hst => ?_⟩
  · rcases hmem s hs with rfl | hs
    · exact hstand
    · exact h.standing s (List.mem_cons_of_mem front hs)
  · rcases hmem s hs with rfl | hs
    · exact hmost.le.trans htop
    · exact h.le s (List.mem_cons_of_mem front hs)
  · rcases hmem s hs with rfl | hs
    · rw [hids]
      exact hmost
    · exact h.pos s (List.mem_cons_of_mem front hs) hst

theorem idsOf_round (hperm : popped.Perm rest)
    (hids : idsOf back = idsOf front) :
    idsOf (.or (Heap.pushHeap greater (popped ++ [back]))) =
      idsOf (.or (front :: rest)) := by
  rw [idsOf_or_perm (pushed_perm hperm)]
  ext d
  rw [mem_idsOf_or, mem_idsOf_or, List.exists_mem_cons_iff,
    List.exists_mem_cons_iff, hids]

/-- With the front up to the target all parts are. -/
theorem Waits.stop (h : Waits n target top (front :: rest))
    (hpast : ¬ target < front.docID) :
    Standing (n + 1) (.or (front :: rest)) ∧
      AtMost (idsOf (.or (front :: rest))) target front.docID := by
  have hall : ∀ s ∈ front :: rest, s.docID ≤ front.docID :=
    h.heap.head_greatest
  have hmost : ∀ s ∈ front :: rest, AtMost (idsOf s) target s.docID :=
    fun s hs => h.pos s hs ((hall s hs).trans (not_lt.1 hpast))
  have hfront := hmost front List.mem_cons_self
  refine ⟨.or h.standing h.heap fun s hs =>
    (hmost s hs).mono (hall s hs) (not_lt.1 hpast), atMost_intro (fun h0 =>
      ⟨mem_idsOf_or.2 ⟨front, List.mem_cons_self, hfront.mem h0⟩,
        hfront.le⟩) fun x hx hxt => ?_⟩
  obtain ⟨s, hs, hxs⟩ := mem_idsOf_or.1 hx
  exact ((hmost s hs).ge hxs hxt).trans (hall s hs)

end Rounds

/-- The loop moves every part that is past the target and no other. -/
theorem orLoop_settles {n : Nat} {c : Call} {target top : DocumentID}
    (hcall : ∀ s, Standing n s → target < s.docID → s.docID ≤ top →
      Goes n c s (AtMost (idsOf s) target))
    (htop : target ≤ top) (sub : List DocIdSetIterator)
    (h : Waits n target top sub) :
    ∃ it, Settles (fun fuel => orLoop fuel c target sub) it ∧
      (Standing (n + 1) it ∧ idsOf it = idsOf (.or sub) ∧
        AtMost (idsOf (.or sub)) target it.docID) := by
  generalize hm : sub.countP (fun s => decide (target < s.docID)) = m
  induction m using Nat.strongRecOn generalizing sub with
  | ind m ih =>
      subst hm
      cases sub with
      | nil =>
          refine ⟨.or [], Settles.succ (Settles.pure _), .or h.standing h.heap
            (fun s hs => absurd hs List.not_mem_nil), rfl,
            atMost_intro (fun hne => absurd rfl hne) fun x hx _ => ?_⟩
          obtain ⟨s, hs, -⟩ := mem_idsOf_or.1 hx
          exact absurd hs List.not_mem_nil
      | cons front rest =>
          by_cases hpast : target < front.docID
          · obtain ⟨popped, hpop, hperm, hheap⟩ :=
              Heap.popHeap_spec greater_iff h.heap
            obtain ⟨back, hback, hbackstand, hbackids, hbackpos⟩ :=
              hcall front (h.standing front List.mem_cons_self) hpast
                (h.le front List.mem_cons_self)
            -- one part less is past the target
            obtain ⟨it, hit, hstand, hids, hmost⟩ := ih _ (by
                rw [(pushed_perm hperm).countP_eq, List.countP_cons,
                  List.countP_cons, decide_eq_true hpast,
                  decide_eq_false (not_lt.2 hbackpos.le)]
                simp)
              _ (h.round htop hperm hheap hbackstand hbackids hbackpos) rfl
            rw [idsOf_round hperm hbackids] at hids hmost
            refine ⟨it, Settles.succ ?_, hstand, hids, hmost⟩
            have hne : front.docID ≠ noMoreDocs := fun h0 => by
              rw [h0] at hpast
              exact not_lt.2 UInt64.zero_le hpast
            have hstep : (fun fuel => orLoop (fuel + 1) c target
                (front :: rest)) = fun fuel => (call fuel c front).bind
                  fun back => orLoop fuel c target
                    (Heap.pushHeap greater (popped ++ [back])) := by
              funext fuel
              rw [orLoop, if_pos ⟨hne, hpast⟩, hpop]
              simp only [List.getLastD_concat, List.dropLast_concat]
              rfl
            rw [hstep]
            exact Settles.bind (g := fun fuel back => orLoop fuel c target
              (Heap.pushHeap greater (popped ++ [back]))) hback hit
          · obtain ⟨hstand, hmost⟩ := h.stop hpast
            refine ⟨.or (front :: rest), Settles.succ ?_, hstand, rfl, hmost⟩
            have hstep : (fun fuel => orLoop (fuel + 1) c target
                (front :: rest)) = fun _ => some (.or (front :: rest)) := by
              funext fuel
              rw [orLoop, if_neg fun h => hpast h.2]
            rw [hstep]
            exact Settles.pure _

theorem le_sub_one {curr : DocumentID} (h : curr ≠ 0) (x : DocumentID) :
    x ≤ curr - 1 ↔ x < curr := by
  have h0 : curr.toNat ≠ 0 := fun h' => h (UInt64.toNat_inj.1 h')
  have hone : 1 ≤ curr := by
    rw [UInt64.le_iff_toNat_le]
    exact Nat.one_le_iff_ne_zero.2 h0
  rw [UInt64.le_iff_toNat_le, UInt64.lt_iff_toNat_lt,
    UInt64.toNat_sub_of_le _ _ hone]
  show _ ≤ curr.toNat - 1 ↔ _
  omega

/-- `NextDoc` of an `OrIterator` goes for what is up to one less. -/
theorem below_iff {curr : DocumentID} (h : curr ≠ 0) {ids : Set DocumentID}
    {d : DocumentID} : Below ids curr d ↔ AtMost ids (curr - 1) d := by
  have hset : Set.Iio curr = Set.Iic (curr - 1) := by
    ext x
    exact (le_sub_one h x).symm
  rw [Below, AtMost, hset]

theorem obeys_or {n : Nat} (hobeys : ∀ s, Standing n s → Obeys n s)
    {sub : List DocIdSetIterator} (hsub : ∀ s ∈ sub, Standing n s)
    (hheap : Heap.IsHeap docID sub)
    (hpos : ∀ s ∈ sub, AtMost (idsOf s) (docID (.or sub)) s.docID) :
    Obeys (n + 1) (.or sub) where
  nextDoc := by
    by_cases hzero : docID (.or sub) = noMoreDocs
    -- at the end it stays there
    · refine ⟨.or sub, Settles.succ ?_, .or hsub hheap hpos, rfl, ?_⟩
      · have hstep : (fun fuel => call (fuel + 1) .nextDoc (.or sub)) =
            fun _ => some (.or sub) := by
          funext fuel
          rw [call, if_pos hzero]
        rw [hstep]
        exact Settles.pure _
      · rw [hzero]
        exact below_intro (fun hne => absurd rfl hne)
          fun x _ hlt => absurd hlt (not_lt.2 UInt64.zero_le)
    · generalize hcurr : docID (.or sub) = curr at hzero hpos ⊢
      have hprev : curr - 1 < curr := (le_sub_one hzero _).1 (le_refl _)
      obtain ⟨it, hit, hstand, hids, hmost⟩ := @orLoop_settles n
        .nextDoc (curr - 1) curr
        (fun s hs hlt hle => by
          have heq : s.docID = curr := by
            refine le_antisymm hle (not_lt.1 fun h => ?_)
            exact not_lt.2 ((le_sub_one hzero _).2 h) hlt
          obtain ⟨s', hs', hstand', hids', hlow⟩ := (hobeys s hs).nextDoc
          rw [heq] at hlow
          exact ⟨s', hs', hstand', hids', (below_iff hzero).1 hlow⟩)
        hprev.le sub ⟨hsub, hheap,
          fun s hs => (hpos s hs).le,
          fun s hs hle => (hpos s hs).mono hle hprev.le⟩
      refine ⟨it, Settles.succ ?_, hstand, hids, (below_iff hzero).2 hmost⟩
      have hstep : (fun fuel => call (fuel + 1) .nextDoc (.or sub)) =
          fun fuel => orLoop fuel .nextDoc (curr - 1) sub := by
        funext fuel
        rw [call, hcurr, if_neg hzero]
      rw [hstep]
      exact hit
  advance := by
    intro target htarget
    obtain ⟨it, hit, hstand, hids, hmost⟩ := @orLoop_settles n
      (.advance target) target (docID (.or sub))
      (fun s hs hlt _ => (hobeys s hs).advance target hlt) (le_of_lt htarget)
      sub ⟨hsub, hheap, fun s hs => (hpos s hs).le,
        fun s hs hle => (hpos s hs).mono hle (le_of_lt htarget)⟩
    exact ⟨it, Settles.succ hit, hstand, hids, hmost⟩
  rewind := by
    have hstay : ∀ fuel, orLoop (fuel + 1) (.advance maxDocID) maxDocID sub =
        some (.or sub) := by
      intro fuel
      cases sub with
      | nil => rfl
      | cons front rest =>
          rw [orLoop, if_neg fun h => not_lt.2 (le_maxDocID _) h.2]
    refine ⟨.or sub, Settles.succ (Settles.succ ?_), .or hsub hheap hpos, rfl,
      le_refl _⟩
    have hstep : (fun fuel => call (fuel + 1 + 1) (.advance maxDocID)
        (.or sub)) = fun _ => some (.or sub) := funext hstay
    rw [hstep]
    exact Settles.pure _

/-! ## Every iterator -/

theorem standing_obeys (n : Nat) : ∀ it, Standing n it → Obeys n it := by
  induction n with
  | zero =>
      intro it h
      cases h with
      | reader hlist => exact obeys_reader 0 hlist
  | succ n ih =>
      intro it h
      cases h with
      | reader hlist => exact obeys_reader (n + 1) hlist
      | merge hsub hsame hempty => exact obeys_merge ih hsub hsame hempty
      | or hsub hheap hpos => exact obeys_or ih hsub hheap hpos

/-! ## From the start to the end -/

/-- The ids that calls of `NextDoc` go through, from the one that is shown. -/
inductive Shows : DocIdSetIterator → List DocumentID → Prop
  | done {it : DocIdSetIterator} (hzero : it.docID = noMoreDocs) : Shows it []
  | next {it it' : DocIdSetIterator} {ids : List DocumentID}
      (hne : it.docID ≠ noMoreDocs)
      (hnext : Settles (fun fuel => call fuel .nextDoc it) it')
      (hrest : Shows it' ids) : Shows it (it.docID :: ids)

theorem Shows.enumerate {it : DocIdSetIterator} {ids : List DocumentID}
    (h : Shows it ids) : Settles (fun fuel => enumerate fuel it) ids := by
  induction h with
  | @done it hzero =>
      refine Settles.succ ?_
      have hstep : (fun fuel => DocIdSetIterator.enumerate (fuel + 1) it) =
          fun _ => some [] := by
        funext fuel
        rw [DocIdSetIterator.enumerate, if_pos hzero]
      rw [hstep]
      exact Settles.pure _
  | @next it it' ids hne hnext _ ih =>
      refine Settles.succ ?_
      have hstep : (fun fuel => DocIdSetIterator.enumerate (fuel + 1) it) =
          fun fuel => (call fuel .nextDoc it).bind fun next =>
            (DocIdSetIterator.enumerate fuel next).map (it.docID :: ·) := by
        funext fuel
        rw [DocIdSetIterator.enumerate, if_neg hne]
        simp only [Option.bind_eq_bind, Option.map_eq_bind]
        rfl
      rw [hstep]
      exact Settles.bind (g := fun fuel next =>
        (DocIdSetIterator.enumerate fuel next).map (it.docID :: ·)) hnext ih.map

/-- From the id it shows an iterator goes down through the rest of its ids. -/
theorem Standing.shows {n : Nat} {it : DocIdSetIterator} (h : Standing n it) :
    ∃ ids, Shows it ids ∧ ids.Pairwise (fun a b => b < a) ∧
      ∀ d, d ∈ ids ↔ d ∈ idsOf it ∧ d ≤ it.docID := by
  generalize hd : it.docID.toNat = d
  induction d using Nat.strongRecOn generalizing it with
  | ind d ih =>
      subst hd
      by_cases hzero : it.docID = noMoreDocs
      · refine ⟨[], .done hzero, .nil, fun d => ?_⟩
        refine ⟨fun h => absurd h List.not_mem_nil, fun ⟨hmem, hle⟩ => ?_⟩
        rw [hzero] at hle
        exact absurd (le_antisymm hle UInt64.zero_le) (h.ne_zero d hmem)
      · obtain ⟨next, hnext, hstand, hids, hbelow⟩ :=
          (standing_obeys n it h).nextDoc
        have hlt : next.docID < it.docID := by
          refine hbelow.lt (lt_of_le_of_ne UInt64.zero_le fun h0 => ?_)
          exact hzero h0.symm
        obtain ⟨ids, hshows, hdesc, hmem⟩ :=
          ih _ (UInt64.lt_iff_toNat_lt.1 hlt) hstand rfl
        refine ⟨it.docID :: ids, .next hzero hnext hshows, ?_, fun d => ?_⟩
        · refine .cons (fun d hd => ?_) hdesc
          exact ((hmem d).1 hd).2.trans_lt hlt
        · rw [List.mem_cons, hmem, hids]
          constructor
          · rintro (rfl | ⟨hd, hle⟩)
            · exact ⟨h.docID_mem hzero, le_refl _⟩
            · exact ⟨hd, hle.trans hlt.le⟩
          · rintro ⟨hd, hle⟩
            rcases lt_or_eq_of_le hle with hlt' | heq
            · exact .inr ⟨hd, hbelow.ge hd hlt'⟩
            · exact .inl heq

theorem enumerate_settles {n : Nat} {it : DocIdSetIterator}
    (h : Standing n it) : ∃ ids, Settles (fun fuel => enumerate fuel it) ids ∧
      (ids.Pairwise (fun a b => b < a) ∧
        ∀ d, d ∈ ids ↔ d ∈ idsOf it ∧ d ≤ it.docID) := by
  obtain ⟨ids, hshows, hids⟩ := h.shows
  exact ⟨ids, hshows.enumerate, hids⟩

end Wwsearch.Spec
