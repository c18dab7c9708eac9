import Mathlib.Data.List.Pairwise
import Wwsearch.Lib.HeapList

/-!
# Priority queues, and the best `n` of a list

`std::priority_queue` promises one thing: a pop takes out an item that no other
item beats, provided that the comparison is a strict weak order on what is in
the queue. `PriorityQueue` is that promise. Which one of several equal items
comes out is left to the queue.

A queue that is never let grow past `n` keeps a best part of what goes through
it (`Selects`), where an item is better the less it is. Taken out, a selection
comes in order, and when no two items are equal there is only one selection and
one order: the first `n` of the sorted list (`Selects.eq_take`).
-/

namespace Wwsearch.Lib

variable {α : Type} {less : α → α → Bool}

/-- Strict weak ordering of what is in the list. -/
structure StrictWeakOn (less : α → α → Bool) (l : List α) : Prop where
  asymm : ∀ x ∈ l, ∀ y ∈ l, less x y = true → less y x = false
  negTrans : ∀ x ∈ l, ∀ y ∈ l, ∀ z ∈ l, less x y = false → less y z = false →
    less x z = false

theorem StrictWeakOn.subset {l l' : List α} (h : StrictWeakOn less l)
    (hsub : l' ⊆ l) : StrictWeakOn less l' :=
  ⟨fun x hx y hy => h.asymm x (hsub hx) y (hsub hy),
    fun x hx y hy z hz => h.negTrans x (hsub hx) y (hsub hy) z (hsub hz)⟩

theorem StrictWeakOn.irrefl {l : List α} (h : StrictWeakOn less l) {x : α}
    (hx : x ∈ l) : less x x = false := by
  cases hxx : less x x with
  | false => rfl
  | true => exact hxx.symm.trans (h.asymm x hx x hx hxx)

/-- Strict weak ordering of a whole type. -/
structure StrictWeak (less : α → α → Bool) : Prop where
  asymm : ∀ {x y}, less x y = true → less y x = false
  negTrans : ∀ {x y z}, less x y = false → less y z = false →
    less x z = false

namespace StrictWeak

theorem on (h : StrictWeak less) (l : List α) : StrictWeakOn less l :=
  ⟨fun _ _ _ _ => h.asymm, fun _ _ _ _ _ _ => h.negTrans⟩

theorem comap {β : Type} (h : StrictWeak less) (f : β → α) :
    StrictWeak fun x y => less (f x) (f y) :=
  ⟨h.asymm, h.negTrans⟩

theorem swap (h : StrictWeak less) : StrictWeak fun x y => less y x :=
  ⟨h.asymm, fun hxy hyz => h.negTrans hyz hxy⟩

end StrictWeak

/-- By the first comparison, and by the second where it does not tell. -/
def lexLess (first second : α → α → Bool) (x y : α) : Bool :=
  first x y || (!first y x && second x y)

theorem lexLess_of_first {first second : α → α → Bool} (x y : α)
    (h : first x y = true) : lexLess first second x y = true := by
  rw [lexLess, h]
  rfl

theorem StrictWeak.lex {first second : α → α → Bool} (h : StrictWeak first)
    (h' : StrictWeak second) : StrictWeak (lexLess first second) := by
  refine ⟨fun {x y} hxy => ?_, fun {x y z} hxy hyz => ?_⟩
  · rcases Bool.or_eq_true_iff.1 hxy with hfirst | hrest
    · rw [lexLess, h.asymm hfirst, hfirst]
      rfl
    · obtain ⟨hyx, hsecond⟩ := Bool.and_eq_true_iff.1 hrest
      rw [lexLess, h'.asymm hsecond, Bool.and_false, Bool.or_false]
      simpa using hyx
  · obtain ⟨hxy₁, hxy₂⟩ := Bool.or_eq_false_iff.1 hxy
    obtain ⟨hyz₁, hyz₂⟩ := Bool.or_eq_false_iff.1 hyz
    have hxz := h.negTrans hxy₁ hyz₁
    refine Bool.or_eq_false_iff.2 ⟨hxz, ?_⟩
    cases hzx : first z x with
    | true => rfl
    | false =>
        -- no two of the three differ in the first comparison
        rw [h.negTrans hyz₁ hzx] at hxy₂
        rw [h.negTrans hzx hxy₁] at hyz₂
        exact (Bool.true_and _).trans
          (h'.negTrans ((Bool.true_and _).symm.trans hxy₂)
            ((Bool.true_and _).symm.trans hyz₂))

/-- `pop` is `top()` and `pop()` in one. -/
structure PriorityQueue (α : Type) (less : α → α → Bool) where
  Queue : Type
  empty : Queue
  push : α → Queue → Queue
  pop : Queue → Option (α × Queue)
  items : Queue → List α
  items_empty : items empty = []
  items_push : ∀ x q, (items (push x q)).Perm (x :: items q)
  pop_none : ∀ q, pop q = none → items q = []
  items_pop : ∀ {q x rest}, pop q = some (x, rest) →
    (items q).Perm (x :: items rest)
  pop_greatest : ∀ {q x rest}, StrictWeakOn less (items q) →
    pop q = some (x, rest) → ∀ y ∈ items rest, less x y = false

/-- Best first: nothing is less than what stands before it. -/
def Sorted (less : α → α → Bool) (l : List α) : Prop :=
  l.Pairwise fun x y => less y x = false

/-- Any two items of the list compare. -/
def NoTies (less : α → α → Bool) (l : List α) : Prop :=
  l.Pairwise fun x y => less x y = true ∨ less y x = true

theorem NoTies.perm {l l' : List α} (h : NoTies less l) (hp : l.Perm l') :
    NoTies less l' :=
  List.Pairwise.perm h hp fun hxy => hxy.symm

/-- Without ties there is only one order. -/
theorem Sorted.eq_of_perm {l l' : List α} (h : Sorted less l)
    (h' : Sorted less l') (hties : NoTies less l) (hp : l.Perm l') :
    l = l' := by
  refine hp.eq_of_pairwise (fun x y hx hy hxy hyx => ?_) h h'
  by_contra hne
  have hsymm : Std.Symm fun x y => less x y = true ∨ less y x = true :=
    ⟨fun _ _ => Or.symm⟩
  rcases List.Pairwise.forall hties hx (hp.symm.subset hy) hne with hlt | hlt
  · exact absurd hyx (by simp [hlt])
  · exact absurd hxy (by simp [hlt])

namespace PriorityQueue

variable (pq : PriorityQueue α less)

def size (q : pq.Queue) : Nat := (pq.items q).length

/-- The first `n` pops. -/
def popped : Nat → pq.Queue → List α
  | 0, _ => []
  | n + 1, q =>
      match pq.pop q with
      | none => []
      | some (x, rest) => x :: popped n rest

/-- `push`, and a pop if that makes more than `n`. -/
def pushBounded (n : Nat) (q : pq.Queue) (x : α) : pq.Queue :=
  let q := pq.push x q
  if n < pq.size q then
    match pq.pop q with
    | none => q
    | some (_, rest) => rest
  else q

theorem popped_succ (n : Nat) (q : pq.Queue) : pq.popped (n + 1) q =
    (pq.pop q).elim [] fun r => r.1 :: pq.popped n r.2 := by
  rw [popped]
  cases pq.pop q <;> rfl

variable {pq}

theorem size_pop {q rest : pq.Queue} {x : α} (h : pq.pop q = some (x, rest)) :
    pq.size q = pq.size rest + 1 :=
  (pq.items_pop h).length_eq

theorem popped_perm {n : Nat} {q : pq.Queue} (hn : pq.size q ≤ n) :
    (pq.popped n q).Perm (pq.items q) := by
  induction n generalizing q with
  | zero =>
      rw [List.length_eq_zero_iff.1 (Nat.le_zero.1 hn)]
      exact List.Perm.refl []
  | succ n ih =>
      rw [popped]
      split
      · next hnone => rw [pq.pop_none q hnone]
      · next x rest hpop =>
          have hsize := size_pop hpop
          exact ((ih (by omega)).cons x).trans (pq.items_pop hpop).symm

theorem length_popped_le (n : Nat) (q : pq.Queue) :
    (pq.popped n q).length ≤ n := by
  induction n generalizing q with
  | zero => exact Nat.le_refl 0
  | succ n ih =>
      rw [popped]
      split
      · exact Nat.zero_le _
      · exact Nat.succ_le_succ (ih _)

theorem popped_subset {n : Nat} {q : pq.Queue} :
    pq.popped n q ⊆ pq.items q := by
  induction n generalizing q with
  | zero => exact List.nil_subset _
  | succ n ih =>
      rw [popped]
      split
      · exact List.nil_subset _
      · next x rest hpop =>
          refine fun y hy => (pq.items_pop hpop).symm.subset ?_
          rcases List.mem_cons.1 hy with rfl | hy
          · exact List.mem_cons_self
          · exact List.mem_cons_of_mem _ (ih hy)

/-- Taken out and laid down from the back, the items are sorted. -/
theorem popped_sorted {n : Nat} {q : pq.Queue}
    (h : StrictWeakOn less (pq.items q)) :
    Sorted less (pq.popped n q).reverse := by
  rw [Sorted, List.pairwise_reverse]
  induction n generalizing q with
  | zero => exact .nil
  | succ n ih =>
      rw [popped]
      split
      · exact .nil
      · next x rest hpop =>
          have hrest : StrictWeakOn less (pq.items rest) :=
            h.subset fun y hy => (pq.items_pop hpop).symm.subset
              (List.mem_cons_of_mem x hy)
          exact .cons (fun y hy => pq.pop_greatest h hpop y (popped_subset hy))
            (ih hrest)

/-- Every list has an order: let it go through a queue. -/
theorem exists_sorted (pq : PriorityQueue α less) {l : List α}
    (h : StrictWeakOn less l) :
    ∃ s, s.Perm l ∧ Sorted less s := by
  have hpush : ∀ (l : List α) (q : pq.Queue),
      (pq.items (l.foldl (fun q x => pq.push x q) q)).Perm
        (l ++ pq.items q) := by
    intro l
    induction l with
    | nil => exact fun q => List.Perm.refl _
    | cons x l ih =>
        intro q
        exact (ih _).trans (((pq.items_push x q).append_left l).trans
          List.perm_middle)
  have hall := hpush l pq.empty
  rw [pq.items_empty, List.append_nil] at hall
  refine ⟨_, (List.reverse_perm _).trans ((popped_perm (Nat.le_refl _)).trans
    hall), popped_sorted (h.subset hall.subset)⟩

end PriorityQueue

/-! ## The best `n` -/

/-- `sel` is a best part of `l`, of `n` items if there are as many. -/
def Selects (less : α → α → Bool) (n : Nat) (l sel : List α) : Prop :=
  ∃ dropped, (sel ++ dropped).Perm l ∧ sel.length = min n l.length ∧
    ∀ x ∈ sel, ∀ y ∈ dropped, less y x = false

namespace Selects

variable {n : Nat} {l sel sel' : List α} {x y : α}

theorem nil : Selects less n [] [] :=
  ⟨[], List.Perm.refl _, by simp, fun _ h => absurd h List.not_mem_nil⟩

theorem perm (h : Selects less n l sel) (hp : sel.Perm sel') :
    Selects less n l sel' := by
  obtain ⟨dropped, hperm, hlen, hbest⟩ := h
  exact ⟨dropped, (hp.symm.append_right dropped).trans hperm,
    hp.length_eq ▸ hlen, fun x hx => hbest x (hp.symm.subset hx)⟩

theorem subset (h : Selects less n l sel) : sel ⊆ l := by
  obtain ⟨dropped, hperm, -, -⟩ := h
  exact fun x hx => hperm.subset (List.mem_append_left _ hx)

theorem length_le (h : Selects less n l sel) : sel.length ≤ n := by
  obtain ⟨-, -, hlen, -⟩ := h
  exact hlen ▸ Nat.min_le_left _ _

/-- A selection with room for everything is everything. -/
theorem perm_of_le (h : Selects less n l sel) (hn : l.length ≤ n) :
    sel.Perm l := by
  obtain ⟨dropped, hperm, hlen, -⟩ := h
  have hsum := hperm.length_eq
  rw [List.length_append] at hsum
  have hdropped : dropped = [] := List.length_eq_zero_iff.1 (by omega)
  rw [hdropped, List.append_nil] at hperm
  exact hperm

/-- And so is one with room left. -/
theorem perm_of_lt (h : Selects less n l sel) (hlt : sel.length < n) :
    sel.Perm l := by
  refine h.perm_of_le ?_
  obtain ⟨-, -, hlen, -⟩ := h
  omega

theorem of_perm (hn : l.length ≤ n) (hp : sel.Perm l) :
    Selects less n l sel :=
  ⟨[], by simpa using hp, by rw [hp.length_eq, Nat.min_eq_right hn],
    fun _ _ _ h => absurd h List.not_mem_nil⟩

theorem nodup_map {β : Type} {f : α → β} (h : Selects less n l sel)
    (hl : (l.map f).Nodup) : (sel.map f).Nodup := by
  obtain ⟨dropped, hperm, -, -⟩ := h
  have hall := (hperm.map f).nodup_iff.2 hl
  rw [List.map_append] at hall
  exact (List.nodup_append.1 hall).1

/-- One more item, and there is room for it. -/
theorem push (h : Selects less n l sel) (hlt : sel.length < n)
    (hp : sel'.Perm (x :: sel)) : Selects less n (l ++ [x]) sel' := by
  have hall := h.perm_of_lt hlt
  refine of_perm ?_ (hp.trans ((hall.cons x).trans
    (List.perm_append_singleton x l).symm))
  rw [List.length_append, ← hall.length_eq, List.length_singleton]
  omega

/-- One more item, and a worst one of all goes. -/
theorem replace (h : Selects less n l sel)
    (hweak : StrictWeakOn less (l ++ [x])) (hfull : sel.length = n)
    (hp : (x :: sel).Perm (y :: sel')) (hy : ∀ z ∈ sel', less y z = false) :
    Selects less n (l ++ [x]) sel' := by
  have hsub := h.subset
  obtain ⟨dropped, hperm, hlen, hbest⟩ := h
  have hlen' := hp.length_eq
  rw [List.length_cons, List.length_cons] at hlen'
  refine ⟨y :: dropped, ?_, ?_, fun z hz w hw => ?_⟩
  · have hmid : (sel' ++ y :: dropped).Perm (x :: (sel ++ dropped)) :=
      List.perm_middle.trans (hp.symm.append_right dropped)
    exact hmid.trans ((hperm.cons x).trans (List.perm_append_singleton x l).symm)
  · have hle : n ≤ l.length := by omega
    rw [List.length_append, Nat.min_eq_left (by omega)]
    omega
  · rcases List.mem_cons.1 hw with rfl | hw
    · exact hy z hz
    · rcases List.mem_cons.1 (hp.symm.subset List.mem_cons_self) with
        rfl | hysel
      · exact hbest z (hp.cons_inv.symm.subset hz) w hw
      · rcases List.mem_cons.1 (hp.symm.subset (List.mem_cons_of_mem y hz))
          with rfl | hz'
        -- the new item stayed, and an item of the old selection went for it
        · exact hweak.negTrans w (List.mem_append_left _ (hperm.subset
              (List.mem_append_right _ hw))) y (List.mem_append_left _
              (hsub hysel)) z (List.mem_append_right _ List.mem_cons_self)
            (hbest y hysel w hw) (hy z hz)
        · exact hbest z hz' w hw

/-- Without ties, a selection in order is the front of the sorted list. -/
theorem eq_take (pq : PriorityQueue α less) (h : Selects less n l sel)
    (hweak : StrictWeakOn less l) (hties : NoTies less l)
    (hsorted : Sorted less sel) {s : List α} (hs : s.Perm l)
    (hss : Sorted less s) : sel = s.take n := by
  obtain ⟨dropped, hperm, hlen, hbest⟩ := h
  obtain ⟨d, hd, hds⟩ := pq.exists_sorted (l := dropped)
    (hweak.subset fun x hx => hperm.subset (List.mem_append_right _ hx))
  have hall : (sel ++ d).Perm l := (hd.append_left sel).trans hperm
  have happ : Sorted less (sel ++ d) :=
    List.pairwise_append.2 ⟨hsorted, hds,
      fun x hx y hy => hbest x hx y (hd.subset hy)⟩
  have heq : sel ++ d = s := happ.eq_of_perm hss (hties.perm hall.symm)
    (hall.trans hs.symm)
  have hlen' := hall.length_eq
  rw [List.length_append] at hlen'
  rw [← heq]
  rcases Nat.le_total n l.length with hle | hle
  · rw [List.take_append_of_le_length (by omega), List.take_of_length_le
      (by omega)]
  · have hd0 : d = [] := List.length_eq_zero_iff.1 (by omega)
    rw [hd0, List.append_nil, List.take_of_length_le (by omega)]

/-- With ties, it is the front of one of the sorted lists. -/
theorem exists_front (pq : PriorityQueue α less) (h : Selects less n l sel)
    (hweak : StrictWeakOn less l) (hsorted : Sorted less sel) :
    ∃ s, s.Perm l ∧ Sorted less s ∧ sel = s.take n := by
  obtain ⟨dropped, hperm, hlen, hbest⟩ := h
  obtain ⟨d, hd, hds⟩ := pq.exists_sorted (l := dropped)
    (hweak.subset fun x hx => hperm.subset (List.mem_append_right _ hx))
  have hall : (sel ++ d).Perm l := (hd.append_left sel).trans hperm
  refine ⟨sel ++ d, hall, List.pairwise_append.2 ⟨hsorted, hds,
    fun x hx y hy => hbest x hx y (hd.subset hy)⟩, ?_⟩
  have hlen' := hall.length_eq
  rw [List.length_append] at hlen'
  rcases Nat.le_total n l.length with hle | hle
  · rw [List.take_append_of_le_length (by omega), List.take_of_length_le
      (by omega)]
  · have hd0 : d = [] := List.length_eq_zero_iff.1 (by omega)
    rw [hd0, List.append_nil, List.take_of_length_le (by omega)]

theorem map {β : Type} {f : α → β} {less' : β → β → Bool}
    (h : Selects less n l sel)
    (hless : ∀ x ∈ l, ∀ y ∈ l, less' (f x) (f y) = less x y) :
    Selects less' n (l.map f) (sel.map f) := by
  have hsub := h.subset
  obtain ⟨dropped, hperm, hlen, hbest⟩ := h
  refine ⟨dropped.map f, ?_, ?_, ?_⟩
  · rw [← List.map_append]
    exact hperm.map f
  · rw [List.length_map, List.length_map, hlen]
  · intro x hx y hy
    obtain ⟨x, hxsel, rfl⟩ := List.mem_map.1 hx
    obtain ⟨y, hydropped, rfl⟩ := List.mem_map.1 hy
    rw [hless y (hperm.subset (List.mem_append_right _ hydropped)) x
      (hsub hxsel)]
    exact hbest x hxsel y hydropped

/-- What a bounded push does to a selection. -/
theorem pushBounded {pq : PriorityQueue α less} {q : pq.Queue}
    (h : Selects less n l (pq.items q)) (hweak : StrictWeakOn less (l ++ [x])) :
    Selects less n (l ++ [x]) (pq.items (pq.pushBounded n q x)) := by
  have hpush := pq.items_push x q
  have hsub : pq.items (pq.push x q) ⊆ l ++ [x] := fun y hy =>
    (List.mem_cons.1 (hpush.subset hy)).elim
      (fun hyx => List.mem_append_right _ (hyx ▸ List.mem_cons_self))
      (fun hy => List.mem_append_left _ (h.subset hy))
  have hsize : pq.size (pq.push x q) = (pq.items q).length + 1 :=
    hpush.length_eq
  rw [PriorityQueue.pushBounded]
  split
  · next hlt =>
      have hfull : (pq.items q).length = n :=
        Nat.le_antisymm h.length_le (by omega)
      split
      · next hnone =>
          rw [PriorityQueue.size, pq.pop_none _ hnone] at hsize
          exact absurd hsize (by simp)
      · next y rest hpop =>
          exact h.replace hweak hfull (hpush.symm.trans (pq.items_pop hpop))
            (pq.pop_greatest (hweak.subset hsub) hpop)
  · next hle => exact h.push (by omega) hpush

/-- A list that goes through the queue. -/
theorem pushAll {pq : PriorityQueue α less} {q : pq.Queue} (xs : List α)
    (h : Selects less n l (pq.items q)) (hweak : StrictWeak less) :
    Selects less n (l ++ xs) (pq.items (xs.foldl (pq.pushBounded n) q)) := by
  induction xs generalizing l q with
  | nil => simpa using h
  | cons x xs ih =>
      have hrest := ih (h.pushBounded (x := x) (hweak.on _))
      rwa [List.append_assoc] at hrest

/-- What comes behind a full selection, in order, is dropped. -/
theorem skipAll {xs : List α} (h : Selects less n l sel)
    (hfull : sel.length = n) (hsorted : Sorted less (l ++ xs)) :
    Selects less n (l ++ xs) sel := by
  obtain ⟨dropped, hperm, hlen, hbest⟩ := h
  refine ⟨dropped ++ xs, ?_, ?_, fun z hz w hw => ?_⟩
  · rw [← List.append_assoc]
    exact hperm.append_right xs
  · rw [List.length_append, hfull, Nat.min_eq_left]
    omega
  · rcases List.mem_append.1 hw with hw | hw
    · exact hbest z hz w hw
    · exact (List.pairwise_append.1 hsorted).2.2 z
        (hperm.subset (List.mem_append_left _ hz)) w hw

/-- A list in order fills the queue, and the rest of it is dropped. -/
theorem fill {pq : PriorityQueue α less} {q : pq.Queue} {xs : List α}
    (h : Selects less n l (pq.items q)) (hsorted : Sorted less (l ++ xs)) :
    Selects less n (l ++ xs) (pq.items (xs.foldl
      (fun q x => if pq.size q < n then pq.push x q else q) q)) := by
  induction xs generalizing l q with
  | nil => simpa using h
  | cons x xs ih =>
      have hsorted' : Sorted less (l ++ [x] ++ xs) := by
        rwa [List.append_assoc]
      have hstep : Selects less n (l ++ [x]) (pq.items
          (if pq.size q < n then pq.push x q else q)) := by
        split
        · next hlt => exact h.push hlt (pq.items_push x q)
        · next hge =>
            exact h.skipAll (Nat.le_antisymm h.length_le (Nat.not_lt.1 hge))
              (List.pairwise_append.1 hsorted').1
      have hrest := ih hstep hsorted'
      rwa [List.append_assoc] at hrest

end Selects

/-! ## Queues that exist -/

/-- The last of the items that nothing before them beats, and the others. -/
def takeGreatest (less : α → α → Bool) : α → List α → α × List α
  | x, [] => (x, [])
  | x, y :: l =>
      if less x y then
        let (z, rest) := takeGreatest less y l
        (z, x :: rest)
      else
        let (z, rest) := takeGreatest less x l
        (z, y :: rest)

theorem takeGreatest_perm (x : α) (l : List α) :
    (x :: l).Perm ((takeGreatest less x l).1 :: (takeGreatest less x l).2) := by
  induction l generalizing x with
  | nil => exact List.Perm.refl _
  | cons y l ih =>
      rw [takeGreatest]
      split
      · exact ((ih y).cons x).trans (.swap _ _ _)
      · exact (List.Perm.swap _ _ _).trans (((ih x).cons y).trans
          (.swap _ _ _))

/-- The greatest is not beaten, neither by the rest nor by where it began. -/
theorem takeGreatest_greatest (x : α) (l : List α)
    (h : StrictWeakOn less (x :: l)) :
    less (takeGreatest less x l).1 x = false ∧
      ∀ y ∈ (takeGreatest less x l).2,
        less (takeGreatest less x l).1 y = false := by
  induction l generalizing x with
  | nil => exact ⟨h.irrefl List.mem_cons_self, fun _ h => absurd h
      List.not_mem_nil⟩
  | cons y l ih =>
      have hmem : ∀ x, (takeGreatest less x l).1 ∈ x :: l := fun x =>
        (takeGreatest_perm x l).symm.subset List.mem_cons_self
      rw [takeGreatest]
      split
      · next hxy =>
          obtain ⟨hzy, hrest⟩ := ih y (h.subset (List.subset_cons_self x _))
          have hzx : less (takeGreatest less y l).1 x = false :=
            h.negTrans _ (List.mem_cons_of_mem x (hmem y)) y (by simp) x
              (by simp) hzy (h.asymm x (by simp) y (by simp) hxy)
          refine ⟨hzx, fun w hw => ?_⟩
          rcases List.mem_cons.1 hw with rfl | hw
          · exact hzx
          · exact hrest w hw
      · next hxy =>
          have hsub : x :: l ⊆ x :: y :: l := List.cons_subset_cons x
            (List.subset_cons_self y l)
          obtain ⟨hzx, hrest⟩ := ih x (h.subset hsub)
          refine ⟨hzx, fun w hw => ?_⟩
          rcases List.mem_cons.1 hw with rfl | hw
          · exact h.negTrans _ (hsub (hmem x)) x (by simp) w (by simp) hzx
              (Bool.eq_false_iff.2 hxy)
          · exact hrest w hw

/-- A list that is searched from end to end. -/
def listQueue (less : α → α → Bool) : PriorityQueue α less where
  Queue := List α
  empty := []
  push x q := x :: q
  pop
    | [] => none
    | x :: l => some (takeGreatest less x l)
  items q := q
  items_empty := rfl
  items_push x q := List.Perm.refl (x :: q)
  pop_none q h := by
    cases q with
    | nil => rfl
    | cons x l => exact absurd h (by simp)
  items_pop {q x rest} h := by
    cases q with
    | nil => exact absurd h (by simp)
    | cons y l =>
        have hperm := @takeGreatest_perm _ less y l
        rw [Option.some.inj h] at hperm
        exact hperm
  pop_greatest {q x rest} hweak h := by
    cases q with
    | nil => exact absurd h (by simp)
    | cons y l =>
        have hgreatest := (takeGreatest_greatest y l hweak).2
        rw [Option.some.inj h] at hgreatest
        exact hgreatest

/-- A queue for a finer comparison is a queue for the coarser one: how it
breaks the ties is its own affair. -/
def PriorityQueue.refine {finer : α → α → Bool} (pq : PriorityQueue α finer)
    (hweak : StrictWeak finer)
    (h : ∀ x y, less x y = true → finer x y = true) : PriorityQueue α less where
  Queue := pq.Queue
  empty := pq.empty
  push := pq.push
  pop := pq.pop
  items := pq.items
  items_empty := pq.items_empty
  items_push := pq.items_push
  pop_none := pq.pop_none
  items_pop := pq.items_pop
  pop_greatest _ hpop y hy := Bool.eq_false_iff.2 fun hlt =>
    absurd (h _ _ hlt) (Bool.eq_false_iff.1
      (pq.pop_greatest (hweak.on _) hpop y hy))

theorem PriorityQueue.popped_refine {finer : α → α → Bool}
    (pq : PriorityQueue α finer) (hweak : StrictWeak finer)
    (h : ∀ x y, less x y = true → finer x y = true) (n : Nat)
    (q : pq.Queue) : (pq.refine hweak h).popped n q = pq.popped n q := by
  induction n generalizing q with
  | zero => rfl
  | succ n ih =>
      rw [pq.popped_succ]
      refine ((pq.refine hweak h).popped_succ n q).trans ?_
      show (pq.pop q).elim [] (fun r => r.1 :: (pq.refine hweak h).popped n r.2) = _
      cases pq.pop q with
      | none => rfl
      | some r => exact congrArg (r.1 :: ·) (ih r.2)

theorem PriorityQueue.refine_sorted {finer : α → α → Bool}
    (pq : PriorityQueue α finer) (hweak : StrictWeak finer)
    (h : ∀ x y, less x y = true → finer x y = true) (n : Nat)
    (q : pq.Queue) : Sorted finer ((pq.refine hweak h).popped n q).reverse := by
  rw [pq.popped_refine hweak h]
  exact popped_sorted (hweak.on _)

section Heap

variable {κ : Type} [LinearOrder κ] [Inhabited α]

theorem dropLast_popHeap {key : α → κ}
    (hless : ∀ x y, less x y = true ↔ key x < key y) {x : α} {l : List α}
    (h : Heap.IsHeap key (x :: l)) :
    (Heap.popHeap (fun a b => less b a) (x :: l)).dropLast.Perm l ∧
      Heap.IsHeap key
        (Heap.popHeap (fun a b => less b a) (x :: l)).dropLast := by
  obtain ⟨rest, hpop, hperm, hheap⟩ :=
    Heap.popHeap_spec (fun a b => hless b a) h
  rw [hpop, List.dropLast_concat]
  exact ⟨hperm, hheap⟩

/-- The binary heap, for a comparison of keys. -/
def heapQueue (key : α → κ) (hless : ∀ x y, less x y = true ↔ key x < key y) :
    PriorityQueue α less where
  Queue := { l : List α // Heap.IsHeap key l }
  empty := ⟨[], fun i _ hi => absurd hi (Nat.not_lt_zero i)⟩
  push x q := ⟨Heap.pushHeap (fun a b => less b a) (q.1 ++ [x]),
    Heap.pushHeap_isHeap (fun a b => hless b a) q.2 x⟩
  pop q :=
    match q with
    | ⟨[], _⟩ => none
    | ⟨x :: l, h⟩ => some (x,
        ⟨(Heap.popHeap (fun a b => less b a) (x :: l)).dropLast,
          (dropLast_popHeap hless h).2⟩)
  items q := q.1
  items_empty := rfl
  items_push x q := (Heap.pushHeap_perm _ x).trans
    (List.perm_append_singleton x q.1)
  pop_none q h := by
    obtain ⟨l, hl⟩ := q
    cases l with
    | nil => rfl
    | cons x l => exact absurd h (by simp)
  items_pop {q x rest} h := by
    obtain ⟨l, hl⟩ := q
    cases l with
    | nil => exact absurd h (by simp)
    | cons y l =>
        obtain ⟨rfl, rfl⟩ := Prod.mk.inj (Option.some.inj h)
        exact (dropLast_popHeap hless hl).1.symm.cons y
  pop_greatest {q x rest} _ h := by
    obtain ⟨l, hl⟩ := q
    cases l with
    | nil => exact absurd h (by simp)
    | cons y l =>
        obtain ⟨rfl, rfl⟩ := Prod.mk.inj (Option.some.inj h)
        have hperm := (dropLast_popHeap hless hl).1
        intro z hz
        have hle := hl.head_greatest z
          (List.mem_cons_of_mem y (hperm.subset hz))
        exact Bool.eq_false_iff.2 fun hlt =>
          absurd ((hless y z).1 hlt) (not_lt.2 hle)

end Heap

end Wwsearch.Lib
