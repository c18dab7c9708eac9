import Mathlib.Data.List.Sort
import Mathlib.Data.Set.Insert
import Mathlib.Order.RelClasses

/-!
# Iterators over a map in order

An iterator goes through the entries of a map in the order of their keys, in
both directions, and can be put on a key from either side. Whatever the move,
what it comes to is the first, or the last, of the entries that the move looks
for (`findFirst_best`, `findLast_best`), and that determines it.

`Best r S` is the first of a set in one of the two directions of an order.
-/

namespace Wwsearch.Lib

/-! ## The first of a set -/

section Best

variable {α : Type} (r : α → α → Prop)

/-- The element that all others come after, and none where there is none. -/
def Best (S : Set α) : Option α → Prop
  | none => ∀ a, a ∉ S
  | some a => a ∈ S ∧ ∀ b ∈ S, r a b

variable {r} {S : Set α} {o o' : Option α}

theorem Best.mem (h : Best r S o) : ∀ a ∈ o, a ∈ S := by
  rintro a rfl
  exact h.1

theorem Best.unique [Std.Antisymm r] (h : Best r S o) (h' : Best r S o') :
    o = o' := by
  cases o with
  | none =>
      cases o' with
      | none => rfl
      | some a => exact absurd h'.1 (h a)
  | some a =>
      cases o' with
      | none => exact absurd h.1 (h' a)
      | some b =>
          rw [Std.Antisymm.antisymm (r := r) a b (h.2 b h'.1) (h'.2 a h.1)]

theorem Best.congr {T : Set α} (h : Best r S o) (hST : ∀ a, a ∈ S ↔ a ∈ T) :
    Best r T o := by
  rwa [← Set.ext hST]

theorem Best.insert_none [Std.Refl r] (h : Best r S none) (a : α) :
    Best r (insert a S) (some a) := by
  refine ⟨Set.mem_insert a S, fun b hb => ?_⟩
  rcases hb with rfl | hb
  · exact Std.Refl.refl _
  · exact absurd hb (h b)

theorem Best.insert_worse {a b : α} (h : Best r S (some b)) (hab : r b a) :
    Best r (insert a S) (some b) := by
  refine ⟨Set.mem_insert_of_mem a h.1, fun c hc => ?_⟩
  rcases hc with rfl | hc
  · exact hab
  · exact h.2 c hc

theorem Best.insert_better [Std.Refl r] [IsTrans α r] {a b : α}
    (h : Best r S (some b)) (hab : r a b) : Best r (insert a S) (some a) := by
  refine ⟨Set.mem_insert a S, fun c hc => ?_⟩
  rcases hc with rfl | hc
  · exact Std.Refl.refl _
  · exact IsTrans.trans _ _ _ hab (h.2 c hc)

/-- In a list in order what is found first is the best of what there is. -/
theorem find?_best [Std.Refl r] {ν : Type} {l : List (α × ν)}
    (hl : l.Pairwise fun x y => r x.1 y.1) (p : α → Bool) :
    Best r { k | (∃ v, (k, v) ∈ l) ∧ p k = true }
      ((l.find? fun x => p x.1).map Prod.fst) := by
  cases hfind : l.find? fun x => p x.1 with
  | none =>
      rintro k ⟨⟨v, hv⟩, hp⟩
      exact List.find?_eq_none.1 hfind (k, v) hv hp
  | some x =>
      obtain ⟨hp, before, after, hsplit, hbefore⟩ :=
        List.find?_eq_some_iff_append.1 hfind
      refine ⟨⟨⟨x.2, List.mem_of_find?_eq_some hfind⟩, hp⟩, ?_⟩
      rintro k ⟨⟨v, hv⟩, hpk⟩
      rw [hsplit] at hv hl
      rcases List.mem_append.1 hv with hv | hv
      · have hno := hbefore _ hv
        rw [hpk] at hno
        exact absurd hno (by decide)
      · rcases List.mem_cons.1 hv with heq | hv
        · rw [← heq]
          exact Std.Refl.refl _
        · exact (List.pairwise_cons.1 (List.pairwise_append.1 hl).2.1).1 _ hv

end Best

/-! ## Iterators -/

/-- An iterator over a map, and where it is; new, it is nowhere. -/
structure OrderedIterator (κ ν : Type) [LinearOrder κ] where
  entries : List (κ × ν)
  sorted : entries.Pairwise fun x y => x.1 < y.1
  current : Option (κ × ν) := none
  current_mem : ∀ x ∈ current, x ∈ entries := by exact nofun

namespace OrderedIterator

variable {κ ν : Type} [LinearOrder κ] (it : OrderedIterator κ ν)

def valid : Bool := it.current.isSome

/-- Put on the first entry whose key is as looked for. -/
def findFirst (p : κ → Bool) : OrderedIterator κ ν :=
  { it with
    current := it.entries.find? fun x => p x.1
    current_mem := fun _ hx => List.mem_of_find?_eq_some hx }

/-- Put on the last one. -/
def findLast (p : κ → Bool) : OrderedIterator κ ν :=
  { it with
    current := it.entries.reverse.find? fun x => p x.1
    current_mem := fun _ hx =>
      List.mem_reverse.1 (List.mem_of_find?_eq_some hx) }

def seekToFirst : OrderedIterator κ ν := it.findFirst fun _ => true

def seekToLast : OrderedIterator κ ν := it.findLast fun _ => true

/-- The first entry at or past the target. -/
def seek (target : κ) : OrderedIterator κ ν := it.findFirst (target ≤ ·)

/-- The last entry at or before the target. -/
def seekForPrev (target : κ) : OrderedIterator κ ν := it.findLast (· ≤ target)

/-- The next entry; an iterator that is nowhere has none and must not be
asked. -/
def next : OrderedIterator κ ν :=
  match it.current with
  | none => it
  | some x => it.findFirst (x.1 < ·)

def prev : OrderedIterator κ ν :=
  match it.current with
  | none => it
  | some x => it.findLast (· < x.1)

/-- The keys of the map. -/
def keys : Set κ := { k | ∃ v, (k, v) ∈ it.entries }

/-- The key it is at. -/
def key : Option κ := it.current.map Prod.fst

@[simp] theorem entries_findFirst (p : κ → Bool) :
    (it.findFirst p).entries = it.entries := rfl

@[simp] theorem entries_findLast (p : κ → Bool) :
    (it.findLast p).entries = it.entries := rfl

theorem entries_next : it.next.entries = it.entries := by
  rw [next]
  split
  · rfl
  · rfl

theorem entries_prev : it.prev.entries = it.entries := by
  rw [prev]
  split
  · rfl
  · rfl

variable {it}

/-- There is one entry under a key. -/
theorem entry_unique {x y : κ × ν} (hx : x ∈ it.entries) (hy : y ∈ it.entries)
    (h : x.1 = y.1) : x = y :=
  List.Pairwise.forall_of_forall_of_flip (R := fun x y => x.1 = y.1 → x = y)
    (fun _ _ _ => rfl) (it.sorted.imp fun hlt heq => absurd heq hlt.ne)
    (it.sorted.imp fun hlt heq => absurd heq hlt.ne') hx hy h

/-- The entries determine the list of them. -/
theorem entries_eq {it' : OrderedIterator κ ν}
    (h : ∀ x, x ∈ it.entries ↔ x ∈ it'.entries) : it.entries = it'.entries := by
  have hasymm : Std.Antisymm fun x y : κ × ν => x.1 < y.1 :=
    ⟨fun _ _ hlt hgt => absurd hgt hlt.asymm⟩
  have hirrefl : Std.Irrefl fun x y : κ × ν => x.1 < y.1 :=
    ⟨fun x => lt_irrefl x.1⟩
  exact List.Pairwise.eq_of_mem_iff it.sorted it'.sorted h

theorem findFirst_best (p : κ → Bool) :
    Best (· ≤ ·) { k ∈ it.keys | p k = true } (it.findFirst p).key :=
  find?_best (it.sorted.imp fun h => h.le) p

theorem findLast_best (p : κ → Bool) :
    Best (· ≥ ·) { k ∈ it.keys | p k = true } (it.findLast p).key := by
  refine (find?_best (r := (· ≥ ·)) (List.pairwise_reverse.2 (it.sorted.imp
    fun h => h.le)) p).congr fun k => ?_
  simp only [List.mem_reverse]
  rfl

theorem seek_best (target : κ) :
    Best (· ≤ ·) { k ∈ it.keys | target ≤ k } (it.seek target).key :=
  (findFirst_best _).congr fun k => by simp only [decide_eq_true_eq]

theorem seekForPrev_best (target : κ) :
    Best (· ≥ ·) { k ∈ it.keys | k ≤ target } (it.seekForPrev target).key :=
  (findLast_best _).congr fun k => by simp only [decide_eq_true_eq]

theorem seekToFirst_best : Best (· ≤ ·) it.keys it.seekToFirst.key :=
  (findFirst_best _).congr fun _ => and_iff_left rfl

theorem seekToLast_best : Best (· ≥ ·) it.keys it.seekToLast.key :=
  (findLast_best _).congr fun _ => and_iff_left rfl

theorem next_best {k : κ} (h : it.key = some k) :
    Best (· ≤ ·) { k' ∈ it.keys | k < k' } it.next.key := by
  obtain ⟨x, hx, rfl⟩ := Option.map_eq_some_iff.1 h
  rw [next, hx]
  exact (findFirst_best _).congr fun k => by simp only [decide_eq_true_eq]

theorem prev_best {k : κ} (h : it.key = some k) :
    Best (· ≥ ·) { k' ∈ it.keys | k' < k } it.prev.key := by
  obtain ⟨x, hx, rfl⟩ := Option.map_eq_some_iff.1 h
  rw [prev, hx]
  exact (findLast_best _).congr fun k => by simp only [decide_eq_true_eq]

theorem valid_iff : it.valid = true ↔ ∃ k, it.key = some k := by
  rw [valid, ← Option.isSome_iff_exists, key, Option.isSome_map]

end OrderedIterator

/-! ## Calls -/

/-- A move of an iterator. -/
inductive IteratorCall (κ : Type) where
  | seekToFirst
  | seekToLast
  | seek (target : κ)
  | seekForPrev (target : κ)
  | next
  | prev

namespace OrderedIterator

variable {κ ν : Type} [LinearOrder κ]

/-- A call; an iterator that is nowhere must not be asked for what is next. -/
def call (it : OrderedIterator κ ν) :
    IteratorCall κ → Option (OrderedIterator κ ν)
  | .seekToFirst => some it.seekToFirst
  | .seekToLast => some it.seekToLast
  | .seek target => some (it.seek target)
  | .seekForPrev target => some (it.seekForPrev target)
  | .next => if it.valid then some it.next else none
  | .prev => if it.valid then some it.prev else none

def run (it : OrderedIterator κ ν) (calls : List (IteratorCall κ)) :
    Option (OrderedIterator κ ν) :=
  calls.foldlM call it

end OrderedIterator

end Wwsearch.Lib
