import Mathlib.Order.Lattice

/-!
# Binary heaps kept in the front of an array

A heap of `n` items lives in the first `n` slots of an array that may be
longer; whatever stands behind them is never read and never moved. The two
walks, `siftUp` and `siftDown`, are the usual ones, over a strict comparison
`gt` that is only ever asked to be `key b < key a` for some key into a linear
order. Both are fueled by the number of levels they could cross, and both
leave the loop by its own exit, never by the fuel: the lemmas below need no
budget beyond the one the definitions pass.

What a caller gets: a sift keeps the items (`siftUp_perm`, `siftDown_perm`)
and restores the order from a state that is wrong at one position
(`siftUp_ordered`, `siftDown_ordered`).
The root of an ordered heap carries a greatest key (`root_greatest`).
-/

namespace Wwsearch.Lib.Heap

variable {α κ : Type} [Inhabited α]

/-- Walk the item at `pos` towards the root while it beats its parent. -/
def siftUp (gt : α → α → Bool) : Nat → Array α → Nat → Array α
  | 0, a, _ => a
  | fuel + 1, a, pos =>
      if pos = 0 then a
      else
        let parent := (pos - 1) / 2
        if gt a[pos]! a[parent]! then
          siftUp gt fuel (a.swapIfInBounds pos parent) parent
        else a

/-- Walk the item at `pos` towards the leaves while a child beats it. -/
def siftDown (gt : α → α → Bool) (size : Nat) : Nat → Array α → Nat → Array α
  | 0, a, _ => a
  | fuel + 1, a, pos =>
      let left := pos * 2 + 1
      let right := pos * 2 + 2
      if right < size then
        if gt a[left]! a[right]! then
          if gt a[left]! a[pos]! then
            siftDown gt size fuel (a.swapIfInBounds left pos) left
          else a
        else if gt a[right]! a[pos]! then
          siftDown gt size fuel (a.swapIfInBounds right pos) right
        else a
      else if left < size then
        if gt a[left]! a[pos]! then
          siftDown gt size fuel (a.swapIfInBounds left pos) left
        else a
      else a

/-- The heap's own items: the first `n` slots. -/
def items (a : Array α) (n : Nat) : List α := a.toList.take n

/-! ## What a write and a swap do -/

theorem getElem!_set_ne {a : Array α} {i j : Nat} (x : α) (h : j ≠ i) :
    (a.set! i x)[j]! = a[j]! := by
  rw [Array.set!_eq_setIfInBounds, getElem!_def, getElem!_def,
    Array.getElem?_setIfInBounds_ne (Ne.symm h)]

theorem getElem!_swap {a : Array α} {i j k : Nat} (hi : i < a.size)
    (hj : j < a.size) :
    (a.swapIfInBounds i j)[k]! =
      if k = i then a[j]! else if k = j then a[i]! else a[k]! := by
  rw [Array.swapIfInBounds_def, dif_pos hi, dif_pos hj]
  by_cases hk : k < a.size
  · rw [getElem!_pos _ k (by simpa using hk), Array.getElem_swap,
      getElem!_pos a i hi, getElem!_pos a j hj, getElem!_pos a k hk]
  · rw [getElem!_neg _ k (by simpa using hk), if_neg (by omega),
      if_neg (by omega), getElem!_neg a k hk]

theorem items_swap {a : Array α} {i j n : Nat} (hn : n ≤ a.size)
    (hi : i < n) (hj : j < n) :
    (items (a.swapIfInBounds i j) n).Perm (items a n) := by
  have htake : items (a.swapIfInBounds i j) n =
      ((items a n).toArray.swap i j (by simp [items]; omega)
        (by simp [items]; omega)).toList := by
    apply List.ext_getElem
    · simp [items]
    · intro k h₁ h₂
      simp only [items, List.length_take, Array.length_toList,
        Array.size_swapIfInBounds] at h₁
      simp only [items, List.getElem_take, Array.getElem_toList,
        Array.getElem_swap, List.getElem_toArray]
      rw [← getElem!_pos _ k (by rw [Array.size_swapIfInBounds]; omega),
        getElem!_swap (by omega) (by omega), getElem!_pos a i (by omega),
        getElem!_pos a j (by omega), getElem!_pos a k (by omega)]
  rw [htake]
  exact (Array.swap_perm _ _).toList

/-! ## The sifts keep the items and the tail -/

section Keep

variable (gt : α → α → Bool)

theorem siftUp_size : ∀ (fuel : Nat) (a : Array α) (pos : Nat),
    (siftUp gt fuel a pos).size = a.size := by
  intro fuel
  induction fuel with
  | zero => intro a pos; rfl
  | succ f ih =>
      intro a pos
      rw [siftUp]
      split
      · rfl
      · dsimp only
        split
        · rw [ih, Array.size_swapIfInBounds]
        · rfl

theorem siftDown_size {size : Nat} : ∀ (fuel : Nat) (a : Array α) (pos : Nat),
    (siftDown gt size fuel a pos).size = a.size := by
  intro fuel
  induction fuel with
  | zero => intro a pos; rfl
  | succ f ih =>
      intro a pos
      rw [siftDown]
      repeat' split
      all_goals first
        | rfl
        | rw [ih, Array.size_swapIfInBounds]

theorem siftUp_perm {n : Nat} : ∀ (fuel : Nat) (a : Array α) (pos : Nat),
    n ≤ a.size → pos < n →
    (items (siftUp gt fuel a pos) n).Perm (items a n) := by
  intro fuel
  induction fuel with
  | zero => intro a pos _ _; exact List.Perm.refl _
  | succ f ih =>
      intro a pos hn hpos
      rw [siftUp]
      split
      · exact List.Perm.refl _
      · dsimp only
        split
        · exact (ih _ _ (by rw [Array.size_swapIfInBounds]; exact hn)
            (by omega)).trans (items_swap hn hpos (by omega))
        · exact List.Perm.refl _

theorem siftDown_perm {n : Nat} : ∀ (fuel : Nat) (a : Array α) (pos : Nat),
    n ≤ a.size → pos < n →
    (items (siftDown gt n fuel a pos) n).Perm (items a n) := by
  intro fuel
  induction fuel with
  | zero => intro a pos _ _; exact List.Perm.refl _
  | succ f ih =>
      intro a pos hn hpos
      have step : ∀ c, c < n →
          (items (siftDown gt n f (a.swapIfInBounds c pos) c) n).Perm
            (items a n) := fun c hc =>
        (ih _ _ (by rw [Array.size_swapIfInBounds]; exact hn) hc).trans
          (items_swap hn hc hpos)
      rw [siftDown]
      repeat' split
      all_goals first
        | exact List.Perm.refl _
        | exact step _ (by omega)

end Keep

/-! ## The heap order

`Ordered key a n` says that no item of the heap beats its parent. The two
`Ready` predicates are the states in the middle of a sift: everything is in
order except at `pos`, and what stands around `pos` is in the order the
direction of the walk needs. -/

section Order

variable [LinearOrder κ] (key : α → κ)

/-- No item among the first `n` beats its parent. -/
def Ordered (a : Array α) (n : Nat) : Prop :=
  ∀ i, 0 < i → i < n → key a[i]! ≤ key a[(i - 1) / 2]!

/-- The only edge that may be wrong is the one above `pos`. -/
structure UpReady (a : Array α) (n pos : Nat) : Prop where
  except : ∀ i, 0 < i → i < n → i ≠ pos → key a[i]! ≤ key a[(i - 1) / 2]!
  grand : ∀ i, 0 < i → i < n → (i - 1) / 2 = pos → 0 < pos →
    key a[i]! ≤ key a[(pos - 1) / 2]!

/-- The only edges that may be wrong are the ones below `pos`. -/
structure DownReady (a : Array α) (n pos : Nat) : Prop where
  except : ∀ i, 0 < i → i < n → (i - 1) / 2 ≠ pos →
    key a[i]! ≤ key a[(i - 1) / 2]!
  grand : ∀ i, 0 < i → i < n → (i - 1) / 2 = pos → 0 < pos →
    key a[i]! ≤ key a[(pos - 1) / 2]!

variable {key}

theorem root_greatest {a : Array α} {n : Nat} (h : Ordered key a n) :
    ∀ i, i < n → key a[i]! ≤ key a[0]! := by
  intro i
  induction i using Nat.strongRecOn with
  | ind i ih =>
      intro hi
      rcases Nat.eq_zero_or_pos i with rfl | hpos
      · exact le_refl _
      · exact (h i hpos hi).trans (ih ((i - 1) / 2) (by omega) (by omega))

theorem UpReady.move {a : Array α} {n pos : Nat} (hr : UpReady key a n pos)
    (hn : n ≤ a.size) (hpos : pos < n) (h0 : 0 < pos)
    (hgt : key a[(pos - 1) / 2]! < key a[pos]!) :
    UpReady key (a.swapIfInBounds pos ((pos - 1) / 2)) n ((pos - 1) / 2) := by
  have hp : pos < a.size := by omega
  have hq : (pos - 1) / 2 < a.size := by omega
  constructor
  · intro i hi0 hi hne
    rw [getElem!_swap hp hq, getElem!_swap hp hq]
    by_cases hip : i = pos
    · subst hip
      rw [if_pos rfl, if_neg (by omega), if_pos rfl]
      exact hgt.le
    · rw [if_neg hip, if_neg hne]
      by_cases hpi : (i - 1) / 2 = pos
      · rw [if_pos hpi]
        exact hr.grand i hi0 hi hpi h0
      · rw [if_neg hpi]
        split
        · next hsame =>
            have hle := hr.except i hi0 hi hip
            rw [hsame] at hle
            exact hle.trans hgt.le
        · exact hr.except i hi0 hi hip
  · intro i hi0 hi hpar hq0
    rw [getElem!_swap hp hq, getElem!_swap hp hq]
    rw [if_neg (show (((pos - 1) / 2 - 1) / 2) ≠ pos by omega),
      if_neg (show (((pos - 1) / 2 - 1) / 2) ≠ (pos - 1) / 2 by omega)]
    have hup := hr.except ((pos - 1) / 2) hq0 (by omega) (by omega)
    by_cases hip : i = pos
    · rw [if_pos hip]
      exact hup
    · rw [if_neg hip, if_neg (by omega)]
      have hle := hr.except i hi0 hi hip
      rw [hpar] at hle
      exact hle.trans hup

theorem UpReady.finish {a : Array α} {n pos : Nat} (hr : UpReady key a n pos)
    (hstop : 0 < pos → key a[pos]! ≤ key a[(pos - 1) / 2]!) :
    Ordered key a n := by
  intro i hi0 hi
  by_cases hip : i = pos
  · subst hip
    exact hstop hi0
  · exact hr.except i hi0 hi hip

theorem siftUp_ordered {gt : α → α → Bool}
    (hgt : ∀ x y, gt x y = true ↔ key y < key x) {n : Nat} :
    ∀ (fuel : Nat) (a : Array α) (pos : Nat), n ≤ a.size → pos < n →
      pos ≤ fuel → UpReady key a n pos →
      Ordered key (siftUp gt fuel a pos) n := by
  intro fuel
  induction fuel with
  | zero =>
      intro a pos _ _ hf hr
      exact hr.finish (fun h0 => absurd h0 (by omega))
  | succ f ih =>
      intro a pos hn hpos hf hr
      rw [siftUp]
      split
      · next h0 => exact hr.finish (fun h => absurd h0 (by omega))
      · next h0 =>
          dsimp only
          split
          · next hg =>
              exact ih _ _ (by rw [Array.size_swapIfInBounds]; exact hn) (by omega)
                (by omega) (hr.move hn hpos (by omega) ((hgt _ _).1 hg))
          · next hg =>
              exact hr.finish (fun _ => not_lt.1 (fun hlt => hg ((hgt _ _).2 hlt)))

theorem DownReady.move {a : Array α} {n pos c : Nat}
    (hr : DownReady key a n pos) (hn : n ≤ a.size) (hpos : pos < n)
    (hc : c < n) (h0 : 0 < c) (hpar : (c - 1) / 2 = pos)
    (hgt : key a[pos]! < key a[c]!)
    (hbest : ∀ i, 0 < i → i < n → (i - 1) / 2 = pos → key a[i]! ≤ key a[c]!) :
    DownReady key (a.swapIfInBounds c pos) n c := by
  have hcs : c < a.size := by omega
  have hps : pos < a.size := by omega
  constructor
  · intro i hi0 hi hne
    rw [getElem!_swap hcs hps, getElem!_swap hcs hps, if_neg hne]
    by_cases hic : i = c
    · subst hic
      rw [if_pos rfl, if_pos hpar]
      exact hgt.le
    · rw [if_neg hic]
      by_cases hip : i = pos
      · subst hip
        rw [if_pos rfl, if_neg (by omega)]
        exact hr.grand c h0 hc hpar hi0
      · rw [if_neg hip]
        split
        · next hpi => exact hbest i hi0 hi hpi
        · next hpi => exact hr.except i hi0 hi hpi
  · intro i hi0 hi hci _
    rw [getElem!_swap hcs hps, getElem!_swap hcs hps,
      if_neg (show i ≠ c by omega), if_neg (show i ≠ pos by omega),
      if_neg (show (c - 1) / 2 ≠ c by omega), if_pos hpar]
    have hle := hr.except i hi0 hi (by omega)
    rw [hci] at hle
    exact hle

theorem DownReady.finish {a : Array α} {n pos : Nat}
    (hr : DownReady key a n pos)
    (hstop : ∀ i, 0 < i → i < n → (i - 1) / 2 = pos → key a[i]! ≤ key a[pos]!) :
    Ordered key a n := by
  intro i hi0 hi
  by_cases hip : (i - 1) / 2 = pos
  · rw [hip]
    exact hstop i hi0 hi hip
  · exact hr.except i hi0 hi hip

/-- A position has no children besides its left and its right one. -/
theorem child_eq {i pos : Nat} (hi : 0 < i) (h : (i - 1) / 2 = pos) :
    i = pos * 2 + 1 ∨ i = pos * 2 + 2 := by omega

theorem forall_child {P : Nat → Prop} {n pos : Nat}
    (hleft : pos * 2 + 1 < n → P (pos * 2 + 1))
    (hright : pos * 2 + 2 < n → P (pos * 2 + 2)) :
    ∀ i, 0 < i → i < n → (i - 1) / 2 = pos → P i := by
  intro i hi0 hi hpar
  rcases child_eq hi0 hpar with rfl | rfl
  · exact hleft hi
  · exact hright hi

theorem siftDown_ordered {gt : α → α → Bool}
    (hgt : ∀ x y, gt x y = true ↔ key y < key x) {n : Nat} :
    ∀ (fuel : Nat) (a : Array α) (pos : Nat), n ≤ a.size → pos < n →
      n ≤ pos + fuel → DownReady key a n pos →
      Ordered key (siftDown gt n fuel a pos) n := by
  have hng : ∀ {x y : α}, ¬ gt x y = true → key x ≤ key y :=
    fun h => not_lt.1 (fun hlt => h ((hgt _ _).2 hlt))
  intro fuel
  induction fuel with
  | zero => intro a pos _ hpos hf _; exact absurd hpos (by omega)
  | succ f ih =>
      intro a pos hn hpos hf hr
      -- the walk goes on at a child that beats `pos` and its sibling
      have go : ∀ c, c < n → 0 < c → (c - 1) / 2 = pos →
          gt a[c]! a[pos]! = true →
          (∀ i, 0 < i → i < n → (i - 1) / 2 = pos → key a[i]! ≤ key a[c]!) →
          Ordered key (siftDown gt n f (a.swapIfInBounds c pos) c) n := by
        intro c hc h0 hpar hg hbest
        exact ih _ _ (by rw [Array.size_swapIfInBounds]; exact hn) hc (by omega)
          (hr.move hn hpos hc h0 hpar ((hgt _ _).1 hg) hbest)
      rw [siftDown]
      split
      · next hright =>
          split
          · next hlr =>
              have hsib := ((hgt _ _).1 hlr).le
              split
              · next hlp =>
                  exact go _ (by omega) (by omega) (by omega) hlp
                    (forall_child (fun _ => le_refl _) fun _ => hsib)
              · next hlp =>
                  exact hr.finish
                    (forall_child (fun _ => hng hlp) fun _ => hsib.trans (hng hlp))
          · next hlr =>
              split
              · next hrp =>
                  exact go _ hright (by omega) (by omega) hrp
                    (forall_child (fun _ => hng hlr) fun _ => le_refl _)
              · next hrp =>
                  exact hr.finish (forall_child
                    (fun _ => (hng hlr).trans (hng hrp)) fun _ => hng hrp)
      · next hright =>
          split
          · next hleft =>
              split
              · next hlp =>
                  exact go _ hleft (by omega) (by omega) hlp
                    (forall_child (fun _ => le_refl _) (absurd · hright))
              · next hlp =>
                  exact hr.finish
                    (forall_child (fun _ => hng hlp) (absurd · hright))
          · next hleft =>
              exact hr.finish (forall_child (absurd · hleft) (absurd · hright))

/-- Adding one item behind an ordered heap leaves only its own edge open. -/
theorem Ordered.upReady_last {a : Array α} {n : Nat} (h : Ordered key a n) :
    UpReady key a (n + 1) n where
  except := fun i hi0 hi hne => h i hi0 (by omega)
  grand := fun i _ hi hpar _ => absurd hpar (by omega)

/-- Sifting up one position after the other builds a heap. -/
theorem build {gt : α → α → Bool}
    (hgt : ∀ x y, gt x y = true ↔ key y < key x) (a : Array α) :
    ∀ n, n ≤ a.size →
      let b := (List.range n).foldl (fun a pos => siftUp gt pos a pos) a
      b.size = a.size ∧ Ordered key b n ∧
        ∀ m, n ≤ m → m ≤ a.size → (items b m).Perm (items a m) := by
  intro n
  induction n with
  | zero =>
      intro _
      exact ⟨rfl, fun i _ hi => absurd hi (by omega),
        fun _ _ _ => List.Perm.refl _⟩
  | succ n ih =>
      intro hn
      obtain ⟨hsize, hord, hperm⟩ := ih (by omega)
      rw [List.range_succ, List.foldl_append, List.foldl_cons, List.foldl_nil]
      refine ⟨by rw [siftUp_size, hsize], ?_, ?_⟩
      · exact siftUp_ordered hgt _ _ _ (by rw [hsize]; exact hn) (by omega)
          (Nat.le_refl _) hord.upReady_last
      · intro m hm hma
        exact (siftUp_perm gt _ _ _ (by rw [hsize]; exact hma) (by omega)).trans
          (hperm m (by omega) hma)

/-- Lowering the root of an ordered heap leaves only the root's edges open. -/
theorem Ordered.downReady_root {a b : Array α} {n : Nat} (h : Ordered key a n)
    (hsame : ∀ i, 0 < i → i < n → b[i]! = a[i]!) : DownReady key b n 0 where
  except := by
    intro i hi0 hi hpar
    rw [hsame i hi0 hi, hsame ((i - 1) / 2) (by omega) (by omega)]
    exact h i hi0 hi
  grand := fun _ _ _ _ h0 => absurd h0 (by omega)

end Order

end Wwsearch.Lib.Heap
