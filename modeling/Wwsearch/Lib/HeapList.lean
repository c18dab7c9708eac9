import Wwsearch.Lib.Heap

/-!
# Heaps in a whole list

`std::make_heap`, `std::push_heap` and `std::pop_heap` over a list that is a
heap from end to end. What they promise is all that is used of them: none of
them adds or loses an item, the front of a heap has a greatest key
(`IsHeap.head_greatest`), a pop moves the front to the back and leaves a heap
before it (`popHeap_spec`), and a push takes the item at the back into the heap
before it (`pushHeap_isHeap`). Between a pop and a push the item at the back
can be changed at will.
-/

namespace Wwsearch.Lib.Heap

variable {α κ : Type} [Inhabited α]

def makeHeap (gt : α → α → Bool) (l : List α) : List α :=
  ((List.range l.length).foldl (fun a pos => siftUp gt pos a pos)
    l.toArray).toList

def pushHeap (gt : α → α → Bool) (l : List α) : List α :=
  (siftUp gt (l.length - 1) l.toArray (l.length - 1)).toList

def popHeap (gt : α → α → Bool) (l : List α) : List α :=
  (siftDown gt (l.length - 1) (l.length - 1)
    (l.toArray.swapIfInBounds 0 (l.length - 1)) 0).toList

omit [Inhabited α] in
theorem items_size (a : Array α) : items a a.size = a.toList :=
  List.take_length

theorem items_succ {a : Array α} {n : Nat} (hn : n < a.size) :
    items a (n + 1) = items a n ++ [a[n]!] := by
  rw [items, items, getElem!_pos a n hn, ← Array.getElem_toList hn,
    List.take_append_getElem]

theorem makeHeap_eq (gt : α → α → Bool) (l : List α) :
    makeHeap gt l = items ((List.range l.length).foldl
      (fun a pos => siftUp gt pos a pos) l.toArray) l.length := by
  have hsize : ((List.range l.length).foldl
      (fun a pos => siftUp gt pos a pos) l.toArray).size = l.length := by
    suffices h : ∀ (ps : List Nat) (a : Array α), a.size = l.length →
        (ps.foldl (fun a pos => siftUp gt pos a pos) a).size = l.length from
      h _ _ List.size_toArray
    intro ps
    induction ps with
    | nil => intro a ha; exact ha
    | cons p ps ih => intro a ha; exact ih _ ((siftUp_size gt p a p).trans ha)
  rw [makeHeap, ← items_size, hsize]

/-- What stands behind the heap is not moved. -/
theorem siftDown_getElem!_ge (gt : α → α → Bool) {size j : Nat}
    (hj : size ≤ j) : ∀ (fuel : Nat) (a : Array α) (pos : Nat),
      size ≤ a.size → pos < size → (siftDown gt size fuel a pos)[j]! = a[j]! := by
  intro fuel
  induction fuel with
  | zero => intro a pos _ _; rfl
  | succ fuel ih =>
      intro a pos hsize hpos
      have hmove : ∀ c, c < size →
          (siftDown gt size fuel (a.swapIfInBounds c pos) c)[j]! = a[j]! := by
        intro c hc
        rw [ih _ _ (by simpa using hsize) hc, getElem!_swap (by omega) (by omega),
          if_neg (by omega), if_neg (by omega)]
      simp only [siftDown]
      split
      · next hright =>
          split
          · split
            · exact hmove _ (by omega)
            · rfl
          · split
            · exact hmove _ hright
            · rfl
      · split
        · next hleft =>
            split
            · exact hmove _ hleft
            · rfl
        · rfl

/-- A pop loses nothing, whether the list is a heap or not. -/
theorem popHeap_perm (gt : α → α → Bool) (l : List α) :
    (popHeap gt l).Perm l := by
  cases l with
  | nil => exact .nil
  | cons x l =>
      have hlen : (x :: l).length - 1 = l.length := rfl
      rcases Nat.eq_zero_or_pos l.length with h0 | hpos
      · obtain rfl := List.length_eq_zero_iff.1 h0
        exact .refl _
      · generalize ha : (x :: l).toArray.swapIfInBounds 0 l.length = a
        have hsize : a.size = l.length + 1 := by
          rw [← ha, Array.size_swapIfInBounds, List.size_toArray,
            List.length_cons]
        have hbsize : (siftDown gt l.length l.length a 0).size = l.length + 1 :=
          (siftDown_size gt _ _ _).trans hsize
        have hswap : (items a (l.length + 1)).Perm (x :: l) := by
          rw [← ha]
          refine (items_swap (by simp) (by omega) (by omega)).trans ?_
          rw [items, List.take_of_length_le (by simp)]
        rw [popHeap, hlen, ha, ← items_size, hbsize, items_succ (by omega),
          siftDown_getElem!_ge gt (Nat.le_refl _) _ _ _ (by omega) hpos]
        refine List.Perm.trans ?_ hswap
        rw [items_succ (by omega)]
        exact (siftDown_perm gt _ _ _ (by omega) hpos).append_right _

section Order

variable [LinearOrder κ] (key : α → κ)

/-- No item beats its parent. -/
def IsHeap (l : List α) : Prop := Ordered key l.toArray l.length

variable {key}

theorem getElem!_toArray (l : List α) (i : Nat) : l.toArray[i]! = l[i]! := by
  rw [List.getElem!_toArray]

theorem isHeap_take {a : Array α} {n : Nat} (hn : n ≤ a.size)
    (h : Ordered key a n) : IsHeap key (items a n) := by
  have hlen : (items a n).length = n := by
    rw [items, List.length_take, Array.length_toList, Nat.min_eq_left hn]
  have hget : ∀ i, i < n → (items a n).toArray[i]! = a[i]! := by
    intro i hi
    rw [getElem!_toArray, items, getElem!_pos _ i (by simp; omega),
      List.getElem_take, getElem!_pos a i (by omega), Array.getElem_toList]
  intro i hi0 hi
  rw [hlen] at hi
  rw [hget i hi, hget ((i - 1) / 2) (by omega)]
  exact h i hi0 hi

theorem IsHeap.head_greatest {x : α} {l : List α} (h : IsHeap key (x :: l)) :
    ∀ y ∈ x :: l, key y ≤ key x := by
  intro y hy
  obtain ⟨i, hi, rfl⟩ := List.mem_iff_getElem.1 hy
  have hroot := root_greatest h i hi
  rw [getElem!_toArray, getElem!_toArray, getElem!_pos _ i hi] at hroot
  exact hroot

variable {gt : α → α → Bool} (hgt : ∀ x y, gt x y = true ↔ key y < key x)

include hgt

theorem makeHeap_isHeap (l : List α) : IsHeap key (makeHeap gt l) := by
  rw [makeHeap_eq]
  obtain ⟨hsize, hord, -⟩ := build hgt l.toArray l.length (by simp)
  exact isHeap_take (by rw [hsize, List.size_toArray]) hord

theorem makeHeap_perm (l : List α) : (makeHeap gt l).Perm l := by
  rw [makeHeap_eq]
  obtain ⟨-, -, hperm⟩ := build hgt l.toArray l.length (by simp)
  refine (hperm l.length (Nat.le_refl _) (by simp)).trans ?_
  rw [items, List.take_length]

/-- A heap and one more item behind it. -/
theorem pushHeap_isHeap {l : List α} (h : IsHeap key l) (x : α) :
    IsHeap key (pushHeap gt (l ++ [x])) := by
  have hlen : (l ++ [x]).length - 1 = l.length := by simp
  have hord : Ordered key (l ++ [x]).toArray l.length := by
    intro i hi0 hi
    have hget : ∀ j, j < l.length → (l ++ [x]).toArray[j]! = l.toArray[j]! := by
      intro j hj
      rw [getElem!_toArray, getElem!_toArray, getElem!_pos _ j (by simp; omega),
        getElem!_pos _ j hj, List.getElem_append_left hj]
    rw [hget i hi, hget _ (by omega)]
    exact h i hi0 hi
  have hsift := siftUp_ordered hgt l.length (l ++ [x]).toArray l.length
    (n := l.length + 1) (by simp) (by omega) (Nat.le_refl _) hord.upReady_last
  have hsize : (siftUp gt l.length (l ++ [x]).toArray l.length).size =
      l.length + 1 := by
    rw [siftUp_size]
    simp
  rw [pushHeap, hlen, ← items_size, hsize]
  exact isHeap_take (Nat.le_of_eq hsize.symm) hsift

omit [LinearOrder κ] hgt in
theorem pushHeap_perm (l : List α) (x : α) :
    (pushHeap gt (l ++ [x])).Perm (l ++ [x]) := by
  have hlen : (l ++ [x]).length - 1 = l.length := by simp
  have hsize : (siftUp gt l.length (l ++ [x]).toArray l.length).size =
      l.length + 1 := by
    rw [siftUp_size]
    simp
  have hperm := siftUp_perm gt (n := l.length + 1) l.length (l ++ [x]).toArray
    l.length (by simp) (by omega)
  rw [pushHeap, hlen, ← items_size, hsize]
  refine hperm.trans ?_
  rw [items, List.take_of_length_le (by simp)]

/-- The front goes to the back, behind a heap of the rest. -/
theorem popHeap_spec {x : α} {l : List α} (h : IsHeap key (x :: l)) :
    ∃ rest, popHeap gt (x :: l) = rest ++ [x] ∧ rest.Perm l ∧
      IsHeap key rest := by
  have hlen : (x :: l).length - 1 = l.length := rfl
  rcases Nat.eq_zero_or_pos l.length with h0 | hpos
  · obtain rfl := List.length_eq_zero_iff.1 h0
    exact ⟨[], rfl, .nil, fun i _ hi => absurd hi (Nat.not_lt_zero i)⟩
  · generalize ha : (x :: l).toArray.swapIfInBounds 0 l.length = a
    have hsize : a.size = l.length + 1 := by
      rw [← ha, Array.size_swapIfInBounds, List.size_toArray, List.length_cons]
    have hlast : a[l.length]! = x := by
      rw [← ha, getElem!_swap (by simp) (by simp), if_neg (by omega),
        if_pos rfl]
      rfl
    have hbsize : (siftDown gt l.length l.length a 0).size = l.length + 1 :=
      (siftDown_size gt _ _ _).trans hsize
    have hdown : DownReady key a l.length 0 := by
      have hord : Ordered key (x :: l).toArray l.length :=
        fun i hi0 hi => h i hi0 (Nat.lt_succ_of_lt hi)
      refine hord.downReady_root fun i hi0 hi => ?_
      rw [← ha, getElem!_swap (by simp) (by simp), if_neg (by omega),
        if_neg (by omega)]
    have hord : Ordered key (siftDown gt l.length l.length a 0) l.length :=
      siftDown_ordered hgt _ _ _ (by omega) hpos (by omega) hdown
    have hpop : popHeap gt (x :: l) =
        items (siftDown gt l.length l.length a 0) l.length ++ [x] := by
      rw [popHeap, hlen, ha, ← items_size, hbsize, items_succ (by omega),
        siftDown_getElem!_ge gt (Nat.le_refl _) _ _ _ (by omega) hpos, hlast]
    have hperm := popHeap_perm gt (x :: l)
    rw [hpop] at hperm
    exact ⟨_, hpop, ((List.perm_append_singleton x _).symm.trans hperm).cons_inv,
      isHeap_take (by omega) hord⟩

end Order

end Wwsearch.Lib.Heap
