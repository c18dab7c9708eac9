import Mathlib.Data.Prod.Lex
import Wwsearch.Ref.Merge
import Wwsearch.Spec.Merge

/-!
# The merge loop walks the merged map from its largest id down

The heap is only ever a rearrangement of the lists it was filled with: `Holds`
says that its first `n` items are, in some order, what is left of list 0, list
1, and so on, each with its own position as priority, and that they are in
heap order. Everything else is stated over those remaining lists in their
original order, where the priorities have nothing left to say.

One pop takes the head off one list (`Holds.pop`). The skip loop therefore
takes the largest id off every list that has it (`skipSameDocID_spec`), and
the merge loop hands `mergeRecord` the entries of the merged map one after the
other, largest id first (`mergeLoop_eq`). What it does with them is a fold
over a list, and no longer about heaps.
-/

namespace Wwsearch.Ref

open Wwsearch.Lib Wwsearch.Spec

/-- The order of the heap: by id, then by list position. -/
def HeapItem.key (a : HeapItem) : DocumentID ×ₗ Nat :=
  toLex (a.docID, a.priority)

theorem heapItemGreater_iff (a b : HeapItem) :
    heapItemGreater a b = true ↔ b.key < a.key := by
  rw [heapItemGreater, HeapItem.key, HeapItem.key, Prod.Lex.toLex_lt_toLex]
  simp only [Bool.or_eq_true, Bool.and_eq_true, decide_eq_true_eq, beq_iff_eq]
  exact or_congr_right (and_congr_left fun _ => eq_comm)

/-- Only a list that has not run out has a non-zero id. -/
theorem HeapItem.exists_cons {a : HeapItem} (h : a.docID ≠ 0) :
    ∃ e tl, a.ptr = e :: tl ∧ e.docId = a.docID := by
  rw [HeapItem.docID] at h ⊢
  cases hc : a.ptr with
  | nil => rw [hc] at h; exact absurd rfl h
  | cons e tl => exact ⟨e, tl, rfl, rfl⟩

/-- The items a heap is filled with. -/
def itemsOf (lists : List (List DocList)) : List HeapItem :=
  lists.mapIdx (fun i l => ⟨l, i⟩)

theorem itemsOf_length (lists : List (List DocList)) :
    (itemsOf lists).length = lists.length := List.length_mapIdx

theorem itemsOf_getElem? (lists : List (List DocList)) (i : Nat) :
    (itemsOf lists)[i]? = lists[i]?.map (⟨·, i⟩) := List.getElem?_mapIdx

/-- The heap `a` holds what is left of `lists`, in heap order. -/
structure Holds (a : Array HeapItem) (lists : List (List DocList)) : Prop where
  size : lists.length ≤ a.size
  perm : (Heap.items a lists.length).Perm (itemsOf lists)
  ordered : Heap.Ordered HeapItem.key a lists.length

theorem mem_itemsOf {lists : List (List DocList)} {x : HeapItem} :
    x ∈ itemsOf lists ↔ lists[x.priority]? = some x.ptr := by
  rw [List.mem_iff_getElem?]
  constructor
  · rintro ⟨i, hi⟩
    rw [itemsOf_getElem?] at hi
    obtain ⟨l, hl, rfl⟩ := Option.map_eq_some_iff.1 hi
    exact hl
  · intro h
    exact ⟨x.priority, by rw [itemsOf_getElem?, h]; rfl⟩

theorem mem_items {a : Array HeapItem} {n i : Nat} (hn : n ≤ a.size)
    (hi : i < n) : a[i]! ∈ Heap.items a n := by
  rw [getElem!_pos a i (by omega), Heap.items, ← Array.getElem_toList]
  exact List.mem_take_iff_getElem.2 ⟨i, by simp; omega, rfl⟩

namespace Holds

variable {a : Array HeapItem} {lists : List (List DocList)}

/-- Whatever stands on top of the heap is what is left of its own list. -/
theorem top_mem (h : Holds a lists) (hne : 0 < lists.length) :
    lists[a[0]!.priority]? = some a[0]!.ptr :=
  mem_itemsOf.1 (h.perm.mem_iff.1 (mem_items h.size hne))

/-- The item on top carries the greatest key of them all. -/
theorem le_top (h : Holds a lists) {i : Nat} {l : List DocList}
    (hi : lists[i]? = some l) : (⟨l, i⟩ : HeapItem).key ≤ a[0]!.key := by
  have hmem : (⟨l, i⟩ : HeapItem) ∈ Heap.items a lists.length :=
    h.perm.mem_iff.2 (mem_itemsOf.2 hi)
  obtain ⟨j, hj, hget⟩ := List.mem_take_iff_getElem.1 hmem
  have hja : j < a.size := by simp at hj; omega
  have hle := Heap.root_greatest h.ordered j (by omega)
  rw [getElem!_pos a j hja, ← Array.getElem_toList, hget] at hle
  exact hle

theorem docID_le_top (h : Holds a lists) {i : Nat} {l : List DocList}
    (hi : lists[i]? = some l) : (⟨l, i⟩ : HeapItem).docID ≤ a[0]!.docID := by
  rcases Prod.Lex.toLex_le_toLex.1 (h.le_top hi) with hlt | ⟨heq, -⟩
  · exact hlt.le
  · exact heq.le

/-- One round of the skip loop: the top item's list loses its head. -/
theorem pop (h : Holds a lists) (hne : 0 < lists.length) :
    Holds (heapShiftDown (a.set! 0 a[0]!.next) lists.length 0)
      (lists.set a[0]!.priority a[0]!.ptr.tail) := by
  have hsz : (a.set! 0 a[0]!.next).size = a.size := by simp
  have hlen : (lists.set a[0]!.priority a[0]!.ptr.tail).length = lists.length :=
    List.length_set
  have hsame : ∀ i, 0 < i → i < lists.length →
      (a.set! 0 a[0]!.next)[i]! = a[i]! :=
    fun i hi0 _ => Heap.getElem!_set_ne _ (by omega)
  refine ⟨?_, ?_, ?_⟩
  · rw [hlen, heapShiftDown, Heap.siftDown_size, hsz]
    exact h.size
  · rw [hlen]
    refine (Heap.siftDown_perm _ _ _ _ (by rw [hsz]; exact h.size) hne).trans ?_
    -- the front item is replaced, and so is its entry among the lists
    have htop := mem_itemsOf.2 (h.top_mem hne)
    obtain ⟨rest, hrest⟩ : ∃ rest, Heap.items a lists.length = a[0]! :: rest := by
      have h0 : (Heap.items a lists.length)[0]? = some a[0]! := by
        rw [Heap.items, List.getElem?_take_of_lt hne, Array.getElem?_toList,
          getElem!_pos a 0 (by have := h.size; omega), Array.getElem?_eq_getElem]
      cases hc : Heap.items a lists.length with
      | nil => rw [hc] at h0; cases h0
      | cons x xs =>
          rw [hc] at h0
          exact ⟨xs, by rw [Option.some.inj h0]⟩
    have hset : Heap.items (a.set! 0 a[0]!.next) lists.length =
        a[0]!.next :: rest := by
      rw [Heap.items, Array.set!_eq_setIfInBounds, Array.toList_setIfInBounds,
        List.take_set, ← Heap.items, hrest, List.set_cons_zero]
    have hlt : a[0]!.priority < (itemsOf lists).length := by
      rw [itemsOf_length]
      exact (List.getElem?_eq_some_iff.1 (h.top_mem hne)).1
    have hget : (itemsOf lists)[a[0]!.priority] = a[0]! := by
      apply Option.some.inj
      rw [← List.getElem?_eq_getElem, itemsOf_getElem?, h.top_mem hne]
      rfl
    have hitems : itemsOf (lists.set a[0]!.priority a[0]!.ptr.tail) =
        (itemsOf lists).set a[0]!.priority a[0]!.next := by
      rw [itemsOf, List.mapIdx_set]
      rfl
    rw [hset, hitems]
    refine List.Perm.trans ?_ (List.set_perm_cons_eraseIdx hlt _).symm
    refine List.Perm.cons _ ?_
    have hperm := h.perm
    rw [hrest] at hperm
    refine List.Perm.cons_inv (a := a[0]!) (hperm.trans ?_)
    have := (List.getElem_cons_eraseIdx_perm hlt).symm
    rwa [hget] at this
  · rw [hlen]
    exact Heap.siftDown_ordered heapItemGreater_iff _ _ _
      (by rw [hsz]; exact h.size) hne (by omega)
      (h.ordered.downReady_root hsame)

end Holds

/-! ## Filling the heap -/

theorem setHeap_loop (lists : List (List DocList)) : ∀ (k : Nat)
    (heap : Array HeapItem), k + lists.length ≤ heap.size →
    let a := (lists.zipIdx k).foldl (fun heap (l, i) => heap.set! i ⟨l, i⟩) heap
    a.size = heap.size ∧ Heap.items a (k + lists.length) =
      Heap.items heap k ++ lists.mapIdx (fun i l => ⟨l, k + i⟩) := by
  induction lists with
  | nil => intro k heap _; simp [Heap.items]
  | cons l rest ih =>
      intro k heap hk
      rw [List.length_cons] at hk
      rw [List.zipIdx_cons, List.foldl_cons]
      obtain ⟨hsize, hitems⟩ := ih (k + 1) (heap.set! k ⟨l, k⟩) (by simp; omega)
      refine ⟨by rw [hsize]; simp, ?_⟩
      have hfront : Heap.items (heap.set! k ⟨l, k⟩) (k + 1) =
          Heap.items heap k ++ [⟨l, k⟩] := by
        rw [Heap.items, Array.set!_eq_setIfInBounds,
          Array.toList_setIfInBounds, List.take_add_one, List.take_set_of_le
          (Nat.le_refl k), List.getElem?_set_self (by simp; omega)]
        rfl
      rw [List.length_cons, show k + (rest.length + 1) = k + 1 + rest.length by
        omega, hitems, hfront, List.mapIdx_cons, List.append_assoc]
      simp [Nat.add_assoc, Nat.add_comm 1]

theorem setHeap_items {heap : Array HeapItem} {lists : List (List DocList)}
    (h : lists.length ≤ heap.size) :
    (setHeap heap lists).size = heap.size ∧
      Heap.items (setHeap heap lists) lists.length = itemsOf lists := by
  obtain ⟨hsize, hitems⟩ := setHeap_loop lists 0 heap (by omega)
  refine ⟨hsize, ?_⟩
  rw [Nat.zero_add] at hitems
  rw [setHeap, hitems]
  simp [Heap.items, itemsOf]

/-- Filling and building: the heap holds the lists it was given. -/
theorem holds_build {heap : Array HeapItem} {lists : List (List DocList)}
    (h : lists.length ≤ heap.size) :
    Holds ((List.range lists.length).foldl heapShiftUp (setHeap heap lists))
      lists := by
  obtain ⟨hsize, hitems⟩ := setHeap_items h
  obtain ⟨hbsize, hord, hperm⟩ := Heap.build heapItemGreater_iff
    (setHeap heap lists) lists.length (by rw [hsize]; exact h)
  refine ⟨?_, ?_, hord⟩
  · exact hbsize.symm ▸ hsize.symm ▸ h
  · rw [← hitems]
    exact hperm lists.length (Nat.le_refl _) (by rw [hsize]; exact h)

/-! ## The skip loop -/

/-- The number of records left in all lists. -/
def total (lists : List (List DocList)) : Nat := (lists.map List.length).sum

theorem Holds.leftRecords {a : Array HeapItem} {lists : List (List DocList)}
    (h : Holds a lists) : leftRecords a lists.length = total lists := by
  rw [Ref.leftRecords, total, (h.perm.map _).sum_nat, itemsOf]
  congr 1
  apply List.ext_getElem <;> simp

theorem total_set {lists : List (List DocList)} {i : Nat} {e : DocList}
    {tl : List DocList} (hi : lists[i]? = some (e :: tl)) :
    total (lists.set i tl) + 1 = total lists := by
  obtain ⟨hlt, hget⟩ := List.getElem?_eq_some_iff.1 hi
  have hsplit : lists = lists.take i ++ (e :: tl) :: lists.drop (i + 1) := by
    rw [← hget, List.getElem_cons_drop, List.take_append_drop]
  have hset : lists.set i tl = lists.take i ++ tl :: lists.drop (i + 1) :=
    List.set_eq_take_append_cons_drop.trans (if_pos hlt)
  rw [hset]
  conv_rhs => rw [hsplit]
  simp only [total, List.map_append, List.map_cons, List.sum_append,
    List.sum_cons, List.length_cons]
  omega

/-- A list without the id `d` at its head. -/
def dropHead (d : DocumentID) : List DocList → List DocList
  | [] => []
  | e :: tl => if e.docId = d then tl else e :: tl

theorem dropHead_of_lt {d : DocumentID} {l : List DocList}
    (h : ∀ e ∈ l, e.docId < d) : dropHead d l = l := by
  cases l with
  | nil => rfl
  | cons e tl => rw [dropHead, if_neg (h e List.mem_cons_self).ne]

/-- Lists that the operator takes, with no id above `d`. -/
structure UpTo (d : DocumentID) (lists : List (List DocList)) : Prop where
  wf : ∀ l ∈ lists, WellFormed l
  le : ∀ l ∈ lists, ∀ e ∈ l, e.docId ≤ d

section UpTo

variable {d : DocumentID} {lists : List (List DocList)}

/-- One of the lists loses the id that it starts with. -/
theorem UpTo.set_tail (h : UpTo d lists) {i : Nat} {e : DocList}
    {tl : List DocList} (hi : lists[i]? = some (e :: tl)) (he : e.docId = d) :
    UpTo d (lists.set i tl) ∧
      (lists.set i tl).map (dropHead d) = lists.map (dropHead d) := by
  have hmem : e :: tl ∈ lists := List.mem_of_getElem? hi
  have hw := h.wf _ hmem
  have htl : ∀ x ∈ tl, x.docId < d := by
    intro x hx
    rw [← he]
    exact (List.pairwise_cons.1 hw.desc).1 x hx
  have hmem' : ∀ l ∈ lists.set i tl, l ∈ lists ∨ l = tl := fun l hl =>
    List.mem_or_eq_of_mem_set hl
  refine ⟨⟨fun l hl => ?_, fun l hl x hx => ?_⟩, ?_⟩
  · rcases hmem' l hl with hl | rfl
    · exact h.wf l hl
    · exact ⟨(List.pairwise_cons.1 hw.desc).2,
        fun x hx => hw.nonzero x (List.mem_cons_of_mem _ hx),
        fun x hx => hw.state x (List.mem_cons_of_mem _ hx)⟩
  · rcases hmem' l hl with hl | rfl
    · exact h.le l hl x hx
    · exact (htl x hx).le
  · have hget : (lists.map (dropHead d))[i]? = some tl := by
      rw [List.getElem?_map, hi, Option.map_some, dropHead, if_pos he]
    obtain ⟨hlt, hget⟩ := List.getElem?_eq_some_iff.1 hget
    rw [List.map_set, dropHead_of_lt htl, ← hget, List.set_getElem_self]

/-- With another id on the top no list starts with `d`. -/
theorem UpTo.map_dropHead (h : UpTo d lists) {a : Array HeapItem}
    (ha : Holds a lists) (hne : 0 < lists.length) (htop : a[0]!.docID ≠ d) :
    lists.map (dropHead d) = lists := by
  have hnone : ∀ l ∈ lists, dropHead d l = l := by
    intro l hl
    cases l with
    | nil => rfl
    | cons x xs =>
        rw [dropHead, if_neg]
        intro hxd
        obtain ⟨j, hj⟩ := List.mem_iff_getElem?.1 hl
        have hge : d ≤ a[0]!.docID := hxd ▸ ha.docID_le_top hj
        refine htop (le_antisymm ?_ hge)
        have hptr := ha.top_mem hne
        cases hc : a[0]!.ptr with
        | nil => rw [HeapItem.docID, hc]; exact UInt64.zero_le
        | cons y ys =>
            rw [hc] at hptr
            rw [HeapItem.docID, hc]
            exact h.le _ (List.mem_of_getElem? hptr) y List.mem_cons_self
  rw [List.map_congr_left hnone, List.map_id']

end UpTo

/-- The skip loop takes the largest id off every list that starts with it. -/
theorem skipSameDocID_spec {d : DocumentID} (hd : d ≠ 0) :
    ∀ (fuel : Nat) (a : Array HeapItem) (lists : List (List DocList)),
      Holds a lists → UpTo d lists → 0 < lists.length →
      a[0]!.docID = d → total lists ≤ fuel →
      ∃ a', skipSameDocID lists.length d fuel a = some a' ∧
        Holds a' (lists.map (dropHead d)) := by
  intro fuel
  induction fuel with
  | zero =>
      intro a lists h _ hne htop hf
      -- an empty budget means empty lists, and the top would be exhausted
      have hptr := h.top_mem hne
      obtain ⟨e, tl, hcons, -⟩ := HeapItem.exists_cons (htop.symm ▸ hd)
      rw [hcons] at hptr
      have := total_set hptr
      omega
  | succ f ih =>
      intro a lists h hupTo hne htop hf
      obtain ⟨e, tl, hcons, hed⟩ := HeapItem.exists_cons (htop.symm ▸ hd)
      rw [htop] at hed
      have hptr := h.top_mem hne
      rw [hcons] at hptr
      have hpop := h.pop hne
      rw [hcons, List.tail_cons] at hpop
      generalize hb : heapShiftDown (a.set! 0 a[0]!.next) lists.length 0 = b at hpop
      generalize a[0]!.priority = i at hptr hpop
      obtain ⟨hupTo', hmap⟩ := hupTo.set_tail hptr hed
      have hlen : (lists.set i tl).length = lists.length := List.length_set
      have htot := total_set hptr
      rw [skipSameDocID]
      simp only [hb]
      split
      · next hagain =>
          have hrest := ih b (lists.set i tl) hpop hupTo' (by omega) hagain
            (by omega)
          rw [hlen, hmap] at hrest
          exact hrest
      · next hdone =>
          refine ⟨b, rfl, ?_⟩
          rw [← hmap, hupTo'.map_dropHead hpop (by omega) hdone]
          exact hpop

end Wwsearch.Ref
