import Mathlib.Data.Set.Lattice
import Mathlib.Order.ConditionallyCompleteLattice.Basic
import Mathlib.Order.SymmDiff
import Wwsearch.Spec.Index

/-!
# The difference that index maintenance writes

The terms of a document are two sets for each field id, one before the write
and one after it. A term that is in one of the sets only is a change, and a
change is one merge: the id of the document, with state OK where the term is
new and Delete where it is gone.
-/

namespace Wwsearch.Spec

open Wwsearch.Lib Wwsearch.Ref

section Terms

variable (config : IndexConfig) (du : DocumentUpdater) (f : FieldID)

/-- What the new document is indexed under; a delete leaves nothing. -/
def newTerms : Set Bytes :=
  {t | du.delete = false ∧ Indexed config du.newDocument.fields f t}

def oldTerms : Set Bytes := {t | Indexed config du.oldDocument.fields f t}

end Terms

/-- The change of a document in the list of one term. -/
structure TermChange where
  fieldId : FieldID
  term : Bytes
  state : DocumentState
  deriving DecidableEq, Repr

/-- The merge of a change: a list with one record, in either layout. -/
def TermChange.IsMerge (config : IndexConfig) (table : TableID)
    (d : DocumentID) (c : TermChange) (m : Mutation) : Prop :=
  ∃ value, m = .merge .invertedIndexColumn
      (encodeInvertedKey table c.fieldId c.term) value ∧
    writeDocList config.compressionType [⟨d, c.state⟩] = some (true, value) ∧
    docListOf value = some [⟨d, c.state⟩]

/-- The merges are the difference of the two sides, one for every change. -/
structure Difference (config : IndexConfig) (table : TableID)
    (du : DocumentUpdater) (ms : List Mutation) (changes : List TermChange) :
    Prop where
  once : (changes.map fun c => (c.fieldId, c.term)).Nodup
  terms : ∀ f t, (∃ s, ⟨f, t, s⟩ ∈ changes) ↔
    t ∈ symmDiff (newTerms config du f) (oldTerms config du f)
  added : ∀ c ∈ changes, c.term ∈ newTerms config du c.fieldId →
    c.state = kDocumentStateOK
  removed : ∀ c ∈ changes, c.term ∈ oldTerms config du c.fieldId →
    c.state = kDocumentStateDelete
  merges : List.Forall₂
    (TermChange.IsMerge config table du.newDocument.documentId) changes ms

/-- The merges go into the buffer one after the other, all of them or up to
one that the buffer refuses. -/
def Appended (faults : Faults) (buffer : WriteBuffer) (ms : List Mutation)
    (r : WriteBuffer × SearchStatus) : Prop :=
  r.1.mutations = buffer.mutations ++ ms ∧ r.2.ok = true ∨
    ∃ written m rest, ms = written ++ m :: rest ∧
      r.1.mutations = buffer.mutations ++ written ∧
      r.2 = (r.1.append faults m).2 ∧ r.2.ok = false

/-- The changes of two updaters do not contradict each other. -/
def Agree (changes₁ changes₂ : List TermChange) : Prop :=
  ∀ c₁ ∈ changes₁, ∀ c₂ ∈ changes₂, c₁.fieldId = c₂.fieldId →
    c₁.term = c₂.term → c₁.state = c₂.state

end Wwsearch.Spec
