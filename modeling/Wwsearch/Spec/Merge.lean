import Mathlib.Data.Finset.Sort
import Wwsearch.Lib.Overlay
import Wwsearch.Ref.Builds

/-!
# What doc lists mean

A sequence of doc lists is a stack of updates to a map from ids to states: the
last list that mentions an id decides it. A full merge shows the live ids of
that map, at most a given number of them and the largest first; a partial
merge keeps the map itself, all of its tombstones and the same number of live
ids, so that it can stand in for the lists it was made from.

A list is kept as the bytes that a build writes for it. Two builds are the same
program on a list if they agree on the bytes they write and on the documents
they read back from their own, a process that ends early included.
-/

namespace Wwsearch.Spec

open Wwsearch.Lib Wwsearch.Ref

/-! ## Merges -/

/-- A doc list as the writers promise it: strictly descending, no id zero,
every state one of the two. -/
structure WellFormed (l : List DocList) : Prop where
  desc : l.Pairwise (fun a b => b.docId < a.docId)
  nonzero : ∀ e ∈ l, e.docId ≠ 0
  state : ∀ e ∈ l, e.docState = kDocumentStateOK ∨
    e.docState = kDocumentStateDelete

/-- The state one list gives to an id. -/
def stateIn (l : List DocList) (d : DocumentID) : Option DocumentState :=
  (l.find? (fun e => e.docId == d)).map (·.docState)

/-- The state of an id after a sequence of lists. -/
def lastState (lists : List (List DocList)) (d : DocumentID) :
    Option DocumentState :=
  Overlay.read (lists.map stateIn) d

def mentioned (lists : List (List DocList)) : Finset DocumentID :=
  (lists.flatten.map (·.docId)).toFinset

/-- The ids that end up in state `s`. -/
def idsWith (s : DocumentState) (lists : List (List DocList)) :
    Finset DocumentID :=
  (mentioned lists).filter (fun d => lastState lists d = some s)

/-- A set of ids, largest first. -/
def descending (s : Finset DocumentID) : List DocumentID := s.sort (· ≥ ·)

/-- The whole map as a list, largest id first. -/
def merged (lists : List (List DocList)) : List DocList :=
  (descending (mentioned lists)).map
    (fun d => ⟨d, (lastState lists d).getD kDocumentStateOK⟩)

/-- The `n` largest live ids. -/
def topLive (n : Nat) (lists : List (List DocList)) : List DocumentID :=
  (descending (idsWith kDocumentStateOK lists)).take n

def fullMerge (n : Nat) (lists : List (List DocList)) : List DocList :=
  (topLive n lists).map (⟨·, kDocumentStateOK⟩)

def partialMerge (n : Nat) (lists : List (List DocList)) : List DocList :=
  (descending (idsWith kDocumentStateDelete lists ∪
    (topLive n lists).toFinset)).map
      (fun d => ⟨d, (lastState lists d).getD kDocumentStateOK⟩)

/-! ## Bytes -/

/-- The documents a build finds in what it wrote. -/
def writtenDocsIn (build : Build) (docs : List DocList) :
    Except Halt (List DocList) := do
  let data ← writeDocListIn build docs
  readDocListIn build data

def SameBytes (docs : List DocList) : Prop :=
  writeDocListIn .debug docs = writeDocListIn .ndebug docs

def SameDocs (docs : List DocList) : Prop :=
  writtenDocsIn .debug docs = writtenDocsIn .ndebug docs

/-- Nothing of the list depends on the assertions. -/
def BuildsAgree (docs : List DocList) : Prop :=
  SameBytes docs ∧ SameDocs docs

end Wwsearch.Spec

namespace Wwsearch.Ref

open Wwsearch.Lib Wwsearch.Spec

/-- A value that `DecodeDocList` takes, and the well-formed list behind it. -/
structure Stores (value : Bytes) (docs : List DocList) : Prop where
  size : value.length < 2 ^ 31
  decodes : docListOf value = some docs
  wellFormed : WellFormed docs

end Wwsearch.Ref
