import Mathlib.Data.List.Basic
import Mathlib.Order.Lattice

/-!
# Pages of a list with repeats

A list in order is asked for page by page. A page starts at a cursor, which is
an item and not a place: it has the first items that are not less than the
cursor. The cursor for the next page is the last item of the page, so that item
is shown again, and where it has not moved the loop ends.

So an item that is there as many times as a page is long stops the loop, and
nothing behind it is shown. Every page that goes on has passed what is before
its last item, and so the loop shows exactly what no such item is before
(`mem_pages_iff`). Every cursor is greater than the one before, so it ends
(`exists_pages`).
-/

namespace Wwsearch.Lib

variable {α : Type} [LinearOrder α]

/-! ## A page -/

section Page

variable {l : List α} {m : Nat} {s p : α}

/-- The first items of a list in order are those with fewer items before
them. -/
theorem mem_take_iff (h : l.Pairwise (· ≤ ·)) :
    p ∈ l.take m ↔ p ∈ l ∧ (l.countP fun x => x < p) < m := by
  induction l generalizing m with
  | nil => simp
  | cons x l ih =>
      obtain ⟨hx, hl⟩ := List.pairwise_cons.1 h
      cases m with
      | zero => simp
      | succ m =>
          rw [List.take_succ_cons, List.mem_cons, List.mem_cons, ih hl,
            List.countP_cons]
          by_cases hlt : x < p
          · simp only [hlt, hlt.ne', false_or, decide_true, if_true,
              Nat.add_lt_add_iff_right]
          · simp only [hlt, decide_false, Bool.false_eq_true, if_false,
              Nat.add_zero]
            have hnone : ∀ y ∈ l, ¬ y < p := fun y hy hlt' =>
              hlt ((hx y hy).trans_lt hlt')
            rw [List.countP_eq_zero.2 fun y hy => by simpa using hnone y hy]
            constructor
            · rintro (rfl | ⟨hp, -⟩)
              · exact ⟨.inl rfl, Nat.succ_pos m⟩
              · exact ⟨.inr hp, Nat.succ_pos m⟩
            · rintro ⟨rfl | hp, -⟩
              · exact .inl rfl
              · exact .inl (le_antisymm (not_lt.1 hlt) (hx p hp))

/-- The first items from the cursor on, at most `m`. -/
def pageAt (l : List α) (m : Nat) (s : α) : List α :=
  (l.filter fun x => s ≤ x).take m

/-- How many items there are from the cursor up to an item. -/
def between (l : List α) (s p : α) : Nat :=
  l.countP fun x => s ≤ x ∧ x < p

theorem mem_pageAt_iff (h : l.Pairwise (· ≤ ·)) :
    p ∈ pageAt l m s ↔ p ∈ l ∧ s ≤ p ∧ between l s p < m := by
  have hcount : (l.countP fun x => x < p && decide (s ≤ x)) = between l s p :=
    List.countP_congr fun x _ => by
      simp only [Bool.and_eq_true, decide_eq_true_eq, and_comm]
  rw [pageAt, mem_take_iff (h.filter _), List.mem_filter, List.countP_filter,
    decide_eq_true_eq, and_assoc, hcount]

theorem between_mono {t : α} (h : p ≤ t) : between l s p ≤ between l s t := by
  refine List.countP_mono_left fun x _ hx => ?_
  rw [decide_eq_true_eq] at hx ⊢
  exact ⟨hx.1, hx.2.trans_le h⟩

theorem le_getLast {page : List α} (h : page.Pairwise (· ≤ ·)) {last : α}
    (hlast : page.getLast? = some last) : ∀ x ∈ page, x ≤ last := by
  obtain ⟨init, rfl⟩ := List.getLast?_eq_some_iff.1 hlast
  intro x hx
  rcases List.mem_append.1 hx with hx | hx
  · exact (List.pairwise_append.1 h).2.2 x hx last List.mem_cons_self
  · exact (List.mem_singleton.1 hx).le

/-- Less is behind a later item. -/
theorem countP_behind_lt {t : α} (ht : t ∈ l) (hlt : s < t) :
    (l.countP fun x => t < x) < l.countP fun x => s < x := by
  induction l with
  | nil => exact absurd ht List.not_mem_nil
  | cons x l ih =>
      have hmono : (l.countP fun x => t < x) ≤ l.countP fun x => s < x :=
        List.countP_mono_left fun x _ hx => by
          rw [decide_eq_true_eq] at hx ⊢
          exact hlt.trans hx
      rw [List.countP_cons, List.countP_cons]
      rcases List.mem_cons.1 ht with rfl | ht
      · simp only [lt_irrefl, hlt, decide_true, decide_false,
          Bool.false_eq_true, if_false, if_true]
        omega
      · have hrest := ih ht
        by_cases htx : t < x
        · simp only [htx, hlt.trans htx, decide_true, if_true]
          omega
        · simp only [htx, decide_false, Bool.false_eq_true, if_false]
          omega

end Page

variable [DecidableEq α]

/-! ## The loop -/

/-- The cursor for the next page: the last item, and the least one of all where
the page has none or the cursor has not moved. -/
def nextCursor (least s : α) (page : List α) : α :=
  let last := page.getLast?.getD least
  if last = s then least else last

/-- What is shown from a cursor on; the cursor is the least one again at the
end. -/
inductive Pages (least : α) (l : List α) (m : Nat) : α → List α → Prop
  | last {s : α} : nextCursor least s (pageAt l m s) = least →
      Pages least l m s (pageAt l m s)
  | next {s : α} {rest : List α} : nextCursor least s (pageAt l m s) ≠ least →
      Pages least l m (nextCursor least s (pageAt l m s)) rest →
      Pages least l m s (pageAt l m s ++ rest)

variable {least : α} {l : List α} {m : Nat} {s p : α}

theorem count_le_between {q : α} (hq : s ≤ q) (hqp : q < p) :
    l.count q ≤ between l s p := by
  rw [List.count, between]
  refine List.countP_mono_left fun x _ hx => ?_
  rw [beq_iff_eq] at hx
  rw [hx, decide_eq_true_eq]
  exact ⟨hq, hqp⟩

/-- A page that the loop ends with has the cursor only. -/
theorem eq_of_nextCursor (hleast : ∀ a, least ≤ a) (h : l.Pairwise (· ≤ ·))
    (hnext : nextCursor least s (pageAt l m s) = least) :
    ∀ x ∈ pageAt l m s, x = s := by
  intro x hx
  obtain ⟨last, hlast⟩ := Option.ne_none_iff_exists'.1
    fun hnone => List.ne_nil_of_mem hx (List.getLast?_eq_none_iff.1 hnone)
  have hxs : s ≤ x := ((mem_pageAt_iff h).1 hx).2.1
  have hle := le_getLast ((h.filter _).sublist (List.take_sublist m _)) hlast x hx
  rw [nextCursor, hlast, Option.getD_some] at hnext
  split at hnext
  · next heq => exact le_antisymm (heq ▸ hle) hxs
  · rw [hnext] at hle
    exact le_antisymm (hle.trans (hleast s)) hxs

/-- A page that the loop goes on from ends with an item behind its cursor. -/
theorem nextCursor_mem (h : l.Pairwise (· ≤ ·))
    (hnext : nextCursor least s (pageAt l m s) ≠ least) :
    nextCursor least s (pageAt l m s) ∈ pageAt l m s ∧
      s < nextCursor least s (pageAt l m s) := by
  cases hlast : (pageAt l m s).getLast? with
  | none =>
      refine absurd ?_ hnext
      rw [nextCursor, hlast, Option.getD_none]
      exact ite_self _
  | some last =>
      have hmem := List.mem_of_getLast? hlast
      rw [nextCursor, hlast, Option.getD_some] at hnext ⊢
      split at hnext
      · exact absurd rfl hnext
      · next hne =>
          rw [if_neg hne]
          exact ⟨hmem, lt_of_le_of_ne ((mem_pageAt_iff h).1 hmem).2.1
            (Ne.symm hne)⟩

/-! ## All pages -/

/-- The loop comes to its end: what is behind the cursor gets less. -/
theorem exists_pages (h : l.Pairwise (· ≤ ·)) (s : α) :
    ∃ out, Pages least l m s out := by
  induction hn : l.countP (fun x => s < x) using Nat.strong_induction_on
    generalizing s with
  | _ n ih =>
      by_cases hnext : nextCursor least s (pageAt l m s) = least
      · exact ⟨_, .last hnext⟩
      · obtain ⟨hmem, hlt⟩ := nextCursor_mem h hnext
        generalize ht : nextCursor least s (pageAt l m s) = t at hnext hmem hlt
        have hless : l.countP (fun x => t < x) < n := by
          rw [← hn]
          exact countP_behind_lt ((mem_pageAt_iff h).1 hmem).1 hlt
        obtain ⟨rest, hrest⟩ := ih _ hless t rfl
        subst ht
        exact ⟨_, .next hnext hrest⟩

/-- What no item that fills a page is before. -/
def Unfilled (l : List α) (m : Nat) (s p : α) : Prop :=
  ∀ q, s ≤ q → q < p → l.count q < m

/-- A page that the loop ends with: either it is all there is from its cursor
on, or the cursor fills it. -/
theorem mem_lastPage_iff (hleast : ∀ a, least ≤ a) (h : l.Pairwise (· ≤ ·))
    (hm : 0 < m) (hnext : nextCursor least s (pageAt l m s) = least) :
    p ∈ pageAt l m s ↔ p ∈ l ∧ s ≤ p ∧ Unfilled l m s p := by
  have hsame := eq_of_nextCursor hleast h hnext
  constructor
  · intro hp
    obtain ⟨hl, hle, -⟩ := (mem_pageAt_iff h).1 hp
    exact ⟨hl, hle, fun q hq hqp => absurd (hq.trans_lt hqp)
      (hsame p hp).le.not_gt⟩
  · rintro ⟨hl, hle, hfree⟩
    refine (mem_pageAt_iff h).2 ⟨hl, hle, Nat.lt_of_not_le fun hfull => ?_⟩
    -- then the page is full of the cursor
    have hlen : (pageAt l m s).length = m := by
      rw [pageAt, List.length_take, Nat.min_eq_left]
      refine hfull.trans ?_
      rw [between, ← List.countP_eq_length_filter]
      exact List.countP_mono_left fun x _ hx => by
        rw [decide_eq_true_eq] at hx ⊢
        exact hx.1
    have hcount : (pageAt l m s).count s = m := by
      rw [List.count_eq_length.2 fun x hx => (hsame x hx).symm, hlen]
    have hless : m ≤ l.count s :=
      hcount.symm.le.trans (((List.take_sublist m _).trans
        List.filter_sublist).count_le s)
    have hslt : s < p := lt_of_le_of_ne hle fun heq => by
      subst heq
      have hzero : between l s s = 0 := List.countP_eq_zero.2 fun x _ hx => by
        rw [decide_eq_true_eq] at hx
        exact hx.1.not_gt hx.2
      omega
    exact absurd (hfree s le_rfl hslt) (Nat.not_lt.2 hless)

/-- A page that the loop goes on from has passed all before its last item. -/
theorem mem_page_or_iff (h : l.Pairwise (· ≤ ·)) {t : α}
    (hmem : t ∈ pageAt l m s) :
    (p ∈ pageAt l m s ∨ p ∈ l ∧ t ≤ p ∧ Unfilled l m t p) ↔
      p ∈ l ∧ s ≤ p ∧ Unfilled l m s p := by
  obtain ⟨-, hst, hless⟩ := (mem_pageAt_iff h).1 hmem
  constructor
  · rintro (hp | ⟨hl, htp, hfree⟩)
    · obtain ⟨hl, hle, hlt⟩ := (mem_pageAt_iff h).1 hp
      exact ⟨hl, hle, fun q hq hqp => (count_le_between hq hqp).trans_lt hlt⟩
    · refine ⟨hl, hst.trans htp, fun q hq hqp => ?_⟩
      rcases lt_or_ge q t with hqt | htq
      · exact (count_le_between hq hqt).trans_lt hless
      · exact hfree q htq hqp
  · rintro ⟨hl, hle, hfree⟩
    rcases lt_or_ge p t with hpt | htp
    · exact .inl ((mem_pageAt_iff h).2
        ⟨hl, hle, (between_mono hpt.le).trans_lt hless⟩)
    · exact .inr ⟨hl, htp, fun q hq => hfree q (hst.trans hq)⟩

/-- **The loop shows exactly what no item that fills a page is before.** -/
theorem mem_pages_iff (hleast : ∀ a, least ≤ a) (h : l.Pairwise (· ≤ ·))
    (hm : 0 < m) {out : List α} (hout : Pages least l m s out) :
    p ∈ out ↔ p ∈ l ∧ s ≤ p ∧ Unfilled l m s p := by
  induction hout with
  | last hnext => exact mem_lastPage_iff hleast h hm hnext
  | next hnext _ ih =>
      rw [List.mem_append, ih]
      exact mem_page_or_iff h (nextCursor_mem h hnext).1

end Wwsearch.Lib
