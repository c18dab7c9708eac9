import Mathlib.Data.Prod.Lex
import Wwsearch.Ref.MergingIterator

/-!
# The union of several maps

The entries of several maps, in the order of their keys, and those of one key in
the order of the maps. `UnionMove` says where a call takes an iterator over
them. Each call looks for some entries and comes to the first of them, or the
last. A call that goes on in the direction of the one before looks for all
behind the entry it is at. A call that turns round looks for all behind its key,
and so it passes over what other maps have under the same key.
-/

namespace Wwsearch.Spec

open Wwsearch.Lib Wwsearch.Ref

variable {κ ν : Type} [LinearOrder κ] {n : Nat}

/-- Where an entry stands: its key, and the map it is of. -/
abbrev Place (κ : Type) (n : Nat) := κ ×ₗ Fin n

/-- The places of all entries. -/
def places (children : Fin n → OrderedIterator κ ν) : Set (Place κ n) :=
  { p | (ofLex p).1 ∈ (children (ofLex p).2).keys }

/-- Towards which end an iterator goes. -/
def ahead : IteratorDirection → Place κ n → Place κ n → Prop
  | .forward => (· ≤ ·)
  | .reverse => (· ≥ ·)

/-- An iterator over a union: the place it is at, and the direction of the last
move. -/
structure UnionState (κ : Type) (n : Nat) where
  place : Option (Place κ n) := none
  direction : IteratorDirection := .forward

/-- The places behind one, for a call in the same direction, and for one that
turns round. -/
def behind (turns : Bool) (direction : IteratorDirection) (p : Place κ n) :
    Set (Place κ n) :=
  match direction with
  | .forward => { q | if turns then (ofLex p).1 < (ofLex q).1 else p < q }
  | .reverse => { q | if turns then (ofLex q).1 < (ofLex p).1 else q < p }

/-- What a call looks for, and in which direction; nothing where the iterator
is nowhere and is asked for what is next. -/
def soughtPlaces (st : UnionState κ n) :
    IteratorCall κ → Option (IteratorDirection × Set (Place κ n))
  | .seekToFirst => some (.forward, Set.univ)
  | .seekToLast => some (.reverse, Set.univ)
  | .seek target => some (.forward, { p | target ≤ (ofLex p).1 })
  | .seekForPrev target => some (.reverse, { p | (ofLex p).1 ≤ target })
  | .next => st.place.map fun p =>
      (.forward, behind (st.direction ≠ .forward) .forward p)
  | .prev => st.place.map fun p =>
      (.reverse, behind (st.direction ≠ .reverse) .reverse p)

/-- Where a call takes it. -/
def UnionMove (E : Set (Place κ n)) (st : UnionState κ n) (c : IteratorCall κ)
    (st' : UnionState κ n) : Prop :=
  ∃ sought, soughtPlaces st c = some (st'.direction, sought) ∧
    Best (ahead st'.direction) (E ∩ sought) st'.place

/-- Where a run of calls takes it. -/
inductive UnionRun (E : Set (Place κ n)) :
    UnionState κ n → List (IteratorCall κ) → UnionState κ n → Prop
  | nil (st : UnionState κ n) : UnionRun E st [] st
  | cons {st st' st'' : UnionState κ n} {c : IteratorCall κ}
      {calls : List (IteratorCall κ)} : UnionMove E st c st' →
      UnionRun E st' calls st'' → UnionRun E st (c :: calls) st''

/-- Where a child is, as a place of the union. -/
def placeOf (children : Fin n → OrderedIterator κ ν) (i : Fin n) :
    Option (Place κ n) :=
  (children i).key.map fun k => toLex (k, i)

/-- Where a merging iterator is in the union. -/
def stateOf (it : MergingIterator κ ν n) : UnionState κ n where
  place := it.current.bind (placeOf it.children)
  direction := it.direction

/-! ## One map -/

/-- The direction of two keys. -/
def aheadKey : IteratorDirection → κ → κ → Prop
  | .forward => (· ≤ ·)
  | .reverse => (· ≥ ·)

/-- What a call looks for in one map, from the key that it is at. -/
def soughtKeys (key : Option κ) :
    IteratorCall κ → Option (IteratorDirection × Set κ)
  | .seekToFirst => some (.forward, Set.univ)
  | .seekToLast => some (.reverse, Set.univ)
  | .seek target => some (.forward, { k | target ≤ k })
  | .seekForPrev target => some (.reverse, { k | k ≤ target })
  | .next => key.map fun key => (.forward, { k | key < k })
  | .prev => key.map fun key => (.reverse, { k | k < key })

end Wwsearch.Spec
