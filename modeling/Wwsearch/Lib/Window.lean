import Mathlib.Data.Multiset.ZeroCons
import Mathlib.Order.Defs.LinearOrder
import Wwsearch.Lib.PriorityQueue

/-!
# Windows in lists of unknown order

A window is what is left of a list when some items are dropped and no more than
some number is taken. If a list comes out of a queue in an order that nothing
is known of, its window can be any items at all, as many as fit. So it is a
window of the list in the order of a score only if that does not depend on the
items: it is empty, or it is everything, or all items have one score
(`window_any_iff`).

A queue that was made for a comparison that is never irreflexive promises
nothing, and there are queues that come out in any order (`popped_byKey`).
-/

namespace Wwsearch.Lib

variable {α : Type}

/-- `n` items from the `o`-th on. -/
def window (o n : Nat) (l : List α) : List α := (l.drop o).take n

section Score

variable {σ : Type} [LinearOrder σ] (score : α → σ)

/-- The greatest score first. -/
def Descending (l : List α) : Prop := l.Pairwise fun x y => score y ≤ score x

/-- The items are those of a window in an order by score. -/
def IsWindow (o n : Nat) (l w : List α) : Prop :=
  ∃ s, s.Perm l ∧ Descending score s ∧ ∀ x, x ∈ w ↔ x ∈ window o n s

variable {score}

theorem exists_descending (l : List α) : ∃ s, s.Perm l ∧ Descending score s := by
  have hweak : StrictWeak fun x y : α => decide (score y < score x) :=
    ⟨fun h => decide_eq_false (not_lt_of_gt (of_decide_eq_true h)),
      fun h h' => decide_eq_false (not_lt.2 ((not_lt.1
        (of_decide_eq_false h)).trans (not_lt.1 (of_decide_eq_false h'))))⟩
  obtain ⟨s, hs, hsorted⟩ := (listQueue _).exists_sorted (hweak.on l)
  exact ⟨s, hs, hsorted.imp fun h => not_lt.1 (of_decide_eq_false h)⟩

/-- Two orders by score have the same scores. -/
theorem Descending.map_eq {s s' : List α} (h : Descending score s)
    (h' : Descending score s') (hp : s.Perm s') :
    s.map score = s'.map score :=
  (hp.map score).eq_of_pairwise (fun _ _ _ _ hxy hyx => le_antisymm hyx hxy)
    (List.pairwise_map.2 h) (List.pairwise_map.2 h')

theorem length_window (o n : Nat) (l : List α) :
    (window o n l).length = min n (l.length - o) := by
  rw [window, List.length_take, List.length_drop]

theorem map_window {β : Type} (f : α → β) (o n : Nat) (l : List α) :
    (window o n l).map f = window o n (l.map f) := by
  rw [window, window, List.map_take, List.map_drop]

theorem window_sublist (o n : Nat) (l : List α) : (window o n l).Sublist l :=
  (List.take_sublist n _).trans (List.drop_sublist o l)

/-- Some order has the first items of `t ++ rest` in its window. -/
theorem window_middle {o n : Nat} {t rest : List α}
    (ht : t.length = min n (t.length + rest.length - o)) (hne : t ≠ []) :
    window o n (rest.take o ++ t ++ rest.drop o) = t := by
  have hpos := List.length_pos_iff.2 hne
  have hlen : (rest.take o).length = o := by
    rw [List.length_take]
    omega
  rw [window, List.append_assoc, List.drop_left' hlen]
  rcases Nat.lt_or_ge t.length n with hlt | hge
  · have hrest : rest.drop o = [] := List.drop_eq_nil_of_le (by omega)
    rw [hrest, List.append_nil, List.take_of_length_le (Nat.le_of_lt hlt)]
  · rw [List.take_append_of_le_length hge, List.take_of_length_le (by omega)]

theorem middle_perm (o : Nat) (t rest : List α) :
    (rest.take o ++ t ++ rest.drop o).Perm (t ++ rest) := by
  refine (List.perm_append_comm.append_right _).trans ?_
  rw [List.append_assoc, List.take_append_drop]

/-- The items of a window in an order by score have the scores of it. -/
theorem IsWindow.map_perm {o n : Nat} {l w s : List α} (hl : l.Nodup)
    (hw : w.Nodup) (h : IsWindow score o n l w) (hs : s.Perm l)
    (hdesc : Descending score s) :
    (w.map score).Perm ((window o n s).map score) := by
  obtain ⟨s', hs', hdesc', hmem⟩ := h
  have hnodup := (hs'.nodup_iff.2 hl).sublist (window_sublist o n s')
  have hperm := (List.perm_ext_iff_of_nodup hw hnodup).2 hmem
  refine (hperm.map score).trans (List.Perm.of_eq ?_)
  rw [window, window, List.map_take, List.map_take, List.map_drop,
    List.map_drop, hdesc'.map_eq hdesc (hs'.trans hs.symm)]

/-- If the windows of all orders are windows of an order by score, two items
have one score: one of them can be inside and the other outside. -/
theorem eq_of_window_any {l : List α} (hl : l.Nodup) {o n : Nat}
    (hpos : min n (l.length - o) ≠ 0)
    (hpart : min n (l.length - o) ≠ l.length)
    (hall : ∀ π : List α, π.Perm l → IsWindow score o n l (window o n π))
    {x y : α} {others : List α} (hxy : (x :: y :: others).Perm l) :
    score x = score y := by
  obtain ⟨s, hs, hdesc⟩ := @exists_descending _ _ _ score l
  have hlen := hxy.length_eq
  rw [List.length_cons, List.length_cons] at hlen
  obtain ⟨k, hk⟩ := Nat.exists_eq_succ_of_ne_zero hpos
  have hko : k ≤ others.length := by omega
  -- `x` and `y` can change places
  have hin : ∀ u v, (u :: v :: others).Perm l →
      ((u :: others.take k).map score).Perm ((window o n s).map score) := by
    intro u v huv
    have hmid := @window_middle _ o n (u :: others.take k) (v :: others.drop k)
      (by
        simp only [List.length_cons, List.length_take, List.length_drop]
        omega) (List.cons_ne_nil _ _)
    have hperm : ((v :: others.drop k).take o ++ (u :: others.take k) ++
        (v :: others.drop k).drop o).Perm l := by
      refine (middle_perm o _ _).trans (.trans ?_ huv)
      rw [List.cons_append]
      refine List.Perm.cons u (List.perm_middle.trans ?_)
      rw [List.take_append_drop]
    have hwin := hall _ hperm
    rw [hmid] at hwin
    refine hwin.map_perm hl ?_ hs hdesc
    refine (huv.nodup_iff.2 hl).sublist (List.Sublist.cons_cons u ?_)
    exact (List.take_sublist k others).trans (List.sublist_cons_self v others)
  have hsame := (hin x y hxy).trans
    (hin y x ((List.Perm.swap x y others).trans hxy)).symm
  rw [List.map_cons, List.map_cons] at hsame
  exact (Multiset.cons_inj_left (((others.take k).map score : List σ) :
    Multiset σ)).1 (Multiset.coe_eq_coe.2 hsame)

theorem exists_perm_cons {l : List α} {x : α} (hx : x ∈ l) :
    ∃ rest, (x :: rest).Perm l := by
  obtain ⟨front, back, rfl⟩ := List.append_of_mem hx
  exact ⟨front ++ back, List.perm_middle.symm⟩

/-- When every order has a window by score. -/
theorem window_any_iff {l : List α} (hl : l.Nodup) (o n : Nat) :
    (∀ π : List α, π.Perm l → IsWindow score o n l (window o n π)) ↔
      min n (l.length - o) = 0 ∨ min n (l.length - o) = l.length ∨
        ∀ x ∈ l, ∀ y ∈ l, score x = score y := by
  constructor
  · intro hall
    by_contra hno
    simp only [not_or] at hno
    obtain ⟨hpos, hpart, hne⟩ := hno
    refine hne fun x hx y hy => ?_
    by_cases hxy : x = y
    · rw [hxy]
    · obtain ⟨rest, hrest⟩ := exists_perm_cons hx
      obtain ⟨others, hothers⟩ := exists_perm_cons
        ((List.mem_cons.1 (hrest.symm.subset hy)).resolve_left (Ne.symm hxy))
      exact eq_of_window_any hl hpos hpart hall
        ((hothers.cons x).trans hrest)
  · intro h π hπ
    rcases h with hempty | hall | hsame
    · obtain ⟨s, hs, hdesc⟩ := @exists_descending _ _ _ score l
      have hnil : ∀ l', l'.Perm l → window o n l' = [] := fun l' hl' =>
        List.length_eq_zero_iff.1 (by rw [length_window, hl'.length_eq, hempty])
      refine ⟨s, hs, hdesc, fun x => ?_⟩
      rw [hnil π hπ, hnil s hs]
    · obtain ⟨s, hs, hdesc⟩ := @exists_descending _ _ _ score l
      have hfull : ∀ l', l'.Perm l → window o n l' = l' := fun l' hl' =>
        (window_sublist o n l').eq_of_length
          (by rw [length_window, hl'.length_eq, hall])
      refine ⟨s, hs, hdesc, fun x => ?_⟩
      rw [hfull π hπ, hfull s hs, hπ.mem_iff, hs.mem_iff]
    · refine ⟨π, hπ, ?_, fun x => Iff.rfl⟩
      exact List.pairwise_of_forall_mem_list fun x hx y hy =>
        (hsame y (hπ.subset hy) x (hπ.subset hx)).le

end Score

/-! ## Queues that come out in any order -/

/-- A queue for one comparison, handed to a comparison that holds of every item
and itself. There is nothing it has to promise then. -/
def PriorityQueue.unbound {less less' : α → α → Bool}
    (pq : PriorityQueue α less) (h : ∀ x, less' x x = true) :
    PriorityQueue α less' where
  Queue := pq.Queue
  empty := pq.empty
  push := pq.push
  pop := pq.pop
  items := pq.items
  items_empty := pq.items_empty
  items_push := pq.items_push
  pop_none := pq.pop_none
  items_pop := pq.items_pop
  pop_greatest {_ x _} hweak hpop := absurd (h x) (Bool.eq_false_iff.1
    (hweak.irrefl ((pq.items_pop hpop).symm.subset List.mem_cons_self)))

theorem PriorityQueue.popped_unbound {less less' : α → α → Bool}
    (pq : PriorityQueue α less) (h : ∀ x, less' x x = true) (n : Nat)
    (q : pq.Queue) : (pq.unbound h).popped n q = pq.popped n q := by
  induction n generalizing q with
  | zero => rfl
  | succ n ih =>
      rw [pq.popped_succ]
      refine ((pq.unbound h).popped_succ n q).trans ?_
      show (pq.pop q).elim [] (fun r => r.1 :: (pq.unbound h).popped n r.2) = _
      cases pq.pop q with
      | none => rfl
      | some r => exact congrArg (r.1 :: ·) (ih r.2)

/-- The least key comes out first. -/
def keyQueue (key : α → Nat) {less' : α → α → Bool}
    (h : ∀ x, less' x x = true) : PriorityQueue α less' :=
  (listQueue fun x y => decide (key y < key x)).unbound h

/-- The places in a list without repetition are keys for it. -/
theorem pairwise_idxOf [BEq α] [LawfulBEq α] {l : List α} (h : l.Nodup) :
    l.Pairwise fun x y => l.idxOf x < l.idxOf y :=
  List.pairwise_iff_getElem.2 fun i j hi hj hij => by
    rw [h.idxOf_getElem i hi, h.idxOf_getElem j hj]
    exact hij

theorem popped_keyQueue {key : α → Nat} {less' : α → α → Bool}
    {h : ∀ x, less' x x = true} {π : List α}
    (hπ : π.Pairwise fun x y => key x < key y)
    {q : (keyQueue key h).Queue} (hq : ((keyQueue key h).items q).Perm π) :
    (keyQueue key h).popped ((keyQueue key h).size q) q = π := by
  let less : α → α → Bool := fun x y => decide (key y < key x)
  have hweak : StrictWeak less :=
    ⟨fun h => decide_eq_false (not_lt_of_gt (of_decide_eq_true h)),
      fun h h' => decide_eq_false (not_lt.2 ((not_lt.1
        (of_decide_eq_false h')).trans' (not_lt.1 (of_decide_eq_false h))))⟩
  have hpopped : Sorted less ((keyQueue key h).popped
      ((keyQueue key h).size q) q).reverse := by
    have hsame : (keyQueue key h).popped ((keyQueue key h).size q) q =
        (listQueue less).popped ((keyQueue key h).size q) q :=
      (listQueue less).popped_unbound h _ q
    rw [hsame]
    exact PriorityQueue.popped_sorted (hweak.on _)
  have hsorted : Sorted less π.reverse :=
    List.pairwise_reverse.2 (hπ.imp fun hlt =>
      decide_eq_false (not_lt_of_gt hlt))
  have hties : NoTies less π.reverse :=
    List.pairwise_reverse.2 (hπ.imp fun hlt => .inl (decide_eq_true hlt))
  have hperm := ((keyQueue key h).popped_perm (Nat.le_refl _)).trans hq
  exact List.reverse_inj.1 (hsorted.eq_of_perm hpopped hties
    ((List.reverse_perm _).trans (hperm.symm.trans
      (List.reverse_perm _).symm))).symm

end Wwsearch.Lib
