import Mathlib.Order.Bounds.Basic
import Wwsearch.Ref.DocIterator

/-!
# What an iterator stands for

An iterator stands for a set of ids, and moving it does not change the set.
Where it stands in the set is the id it shows: a call to `NextDoc` takes it to
the next smaller id of the set and `Advance` to the greatest one up to the
target, and both to zero where there is none.
-/

namespace Wwsearch.Spec

open Wwsearch.Lib Wwsearch.Ref

/-- The greatest id of the set up to the bound, or zero. -/
def AtMost (ids : Set DocumentID) (bound d : DocumentID) : Prop :=
  IsGreatest (insert 0 (ids ∩ Set.Iic bound)) d

/-- The greatest id of the set below the bound, or zero. -/
def Below (ids : Set DocumentID) (bound d : DocumentID) : Prop :=
  IsGreatest (insert 0 (ids ∩ Set.Iio bound)) d

/-- The ids an iterator goes through from its start to its end. -/
def idsOf : DocIdSetIterator → Set DocumentID
  | .reader r => { d | ∃ doc ∈ r.slice, doc.docId = d }
  | .merge sub _ _ => { d | sub ≠ [] ∧ ∀ s ∈ sub, d ∈ idsOf s }
  | .or sub => { d | ∃ s, ∃ _ : s ∈ sub, d ∈ idsOf s }

/-- The records of a list that can be read: descending, and no id is zero. -/
structure ReadableList (docs : List DocList) : Prop where
  desc : docs.Pairwise (fun a b => b.docId < a.docId)
  nonzero : ∀ e ∈ docs, e.docId ≠ 0

/-- Two readers that no call can tell apart: each shows the same, and a move
takes it to the same place. -/
structure SameResults (r r' : DocListReaderCodecImpl) : Prop where
  docID : r.docID = r'.docID
  state : r.state = r'.state
  nextDoc : r.nextDoc.docID = r'.nextDoc.docID ∧ r.nextDoc.pos = r'.nextDoc.pos
  advance : ∀ target, (r.advance target).docID = (r'.advance target).docID ∧
    (r.advance target).pos = (r'.advance target).pos

/-- The place of the first entry up to the target, or behind the last one. -/
def firstUpTo (docs : List DocList) (target : DocumentID) : Nat :=
  docs.findIdx fun doc => doc.docId ≤ target

/-- What `Advance` promises of where it leaves a reader. -/
structure AdvancesTo (r r' : DocListReaderCodecImpl) (target : DocumentID) :
    Prop where
  slice : r'.slice = r.slice
  fieldId : r'.fieldId = r.fieldId
  found : (∃ doc ∈ r.slice, doc.docId ≤ target) →
    r'.pos = firstUpTo r.slice target
  ended : (∀ doc ∈ r.slice, target < doc.docId) →
    r.slice.length ≤ r'.pos ∧ r'.docID = noMoreDocs

end Wwsearch.Spec
