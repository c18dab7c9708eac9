import Mathlib.Data.List.FinRange
import Wwsearch.Lib.OrderedIterator

/-!
# Iterators merged into one (`merger_iterator_rocks.cpp`)

`NewMergingIterator` makes one iterator of several, each over a map of its own.
`MergingIterator` keeps every child on the entry that it would show next, and
shows the least of them, or the greatest when it goes back. Where the direction
changes the other children are put on the other side of the key first.

The comparator of RocksDB is a linear order here, and the children are what
RocksDB's documentation says of its iterators. `IteratorWrapper` caches what its
iterator answers to `Valid()` and `key()`, and asks again after each move, so it
answers as the iterator does.
-/

namespace Wwsearch.Ref

open Wwsearch.Lib

variable {κ ν : Type} [LinearOrder κ] {n : Nat}

/-- `Direction`. -/
inductive IteratorDirection where
  | forward
  | reverse
  deriving DecidableEq, Repr

structure MergingIterator (κ ν : Type) [LinearOrder κ] (n : Nat) where
  children : Fin n → OrderedIterator κ ν
  current : Option (Fin n) := none
  direction : IteratorDirection := .forward

namespace MergingIterator

/-- The loop of `FindSmallest` and of `FindLargest`, over the children that are
left; `better` is the comparison with the child found so far. -/
def findChild (better : κ → κ → Bool) (children : Fin n → OrderedIterator κ ν) :
    List (Fin n) → Option (Fin n) → Option (Fin n)
  | [], found => found
  | i :: rest, found =>
      match (children i).key with
      | none => findChild better children rest found
      | some key =>
          match found.bind fun j => (children j).key with
          | none => findChild better children rest (some i)
          | some foundKey =>
              findChild better children rest
                (if better key foundKey then some i else found)

def findSmallest (children : Fin n → OrderedIterator κ ν) : Option (Fin n) :=
  findChild (fun a b => a < b) children (List.finRange n) none

def findLargest (children : Fin n → OrderedIterator κ ν) : Option (Fin n) :=
  findChild (fun a b => b < a) children (List.finRange n).reverse none

/-- What each of the four seeks does, forward or back. -/
def seekForward (children : Fin n → OrderedIterator κ ν) :
    MergingIterator κ ν n :=
  { children, current := findSmallest children, direction := .forward }

def seekReverse (children : Fin n → OrderedIterator κ ν) :
    MergingIterator κ ν n :=
  { children, current := findLargest children, direction := .reverse }

variable (it : MergingIterator κ ν n)

def seekToFirst : MergingIterator κ ν n :=
  seekForward fun i => (it.children i).seekToFirst

def seekToLast : MergingIterator κ ν n :=
  seekReverse fun i => (it.children i).seekToLast

def seek (target : κ) : MergingIterator κ ν n :=
  seekForward fun i => (it.children i).seek target

def seekForPrev (target : κ) : MergingIterator κ ν n :=
  seekReverse fun i => (it.children i).seekForPrev target

/-- A child that is put behind the key. -/
def putAfter (child : OrderedIterator κ ν) (key : κ) : OrderedIterator κ ν :=
  let child := child.seek key
  if child.key = some key then child.next else child

/-- A child that is put before the key. -/
def putBefore (child : OrderedIterator κ ν) (key : κ) : OrderedIterator κ ν :=
  let child := child.seek key
  if child.valid then child.prev else child.seekToLast

/-- `Next`, and nothing where it stops at its assertion. -/
def next : Option (MergingIterator κ ν n) := do
  let current ← it.current
  let key ← (it.children current).key
  let children := fun i =>
    if i = current then (it.children i).next
    else
      match it.direction with
      | .forward => it.children i
      | .reverse => putAfter (it.children i) key
  some (seekForward children)

/-- `Prev`, and nothing where it stops at its assertion. -/
def prev : Option (MergingIterator κ ν n) := do
  let current ← it.current
  let key ← (it.children current).key
  let children := fun i =>
    if i = current then (it.children i).prev
    else
      match it.direction with
      | .reverse => it.children i
      | .forward => putBefore (it.children i) key
  some (seekReverse children)

def call : IteratorCall κ → Option (MergingIterator κ ν n)
  | .seekToFirst => some it.seekToFirst
  | .seekToLast => some it.seekToLast
  | .seek target => some (it.seek target)
  | .seekForPrev target => some (it.seekForPrev target)
  | .next => it.next
  | .prev => it.prev

def run (calls : List (IteratorCall κ)) : Option (MergingIterator κ ν n) :=
  calls.foldlM call it

/-- `key()` and `value()`. -/
def entry : Option (κ × ν) :=
  it.current.bind fun current => (it.children current).current

end MergingIterator

/-- What `NewMergingIterator` returns. -/
inductive UnionIterator (κ ν : Type) [LinearOrder κ] where
  | empty
  | child (it : OrderedIterator κ ν)
  | merging (n : Nat) (it : MergingIterator κ ν n)

namespace UnionIterator

/-- `NewMergingIterator`; `n` is the length of the list. -/
def new : List (OrderedIterator κ ν) → UnionIterator κ ν
  | [] => empty
  | [it] => child it
  | children => merging children.length { children := children.get }

/-- A call; an `EmptyIterator` has no entry to go on from. -/
def call : UnionIterator κ ν → IteratorCall κ → Option (UnionIterator κ ν)
  | empty, .next | empty, .prev => none
  | empty, _ => some empty
  | child it, c => (it.call c).map child
  | merging n it, c => (it.call c).map (merging n)

def run (it : UnionIterator κ ν) (calls : List (IteratorCall κ)) :
    Option (UnionIterator κ ν) :=
  calls.foldlM call it

def entry : UnionIterator κ ν → Option (κ × ν)
  | empty => none
  | child it => it.current
  | merging _ it => it.entry

end UnionIterator

end Wwsearch.Ref
