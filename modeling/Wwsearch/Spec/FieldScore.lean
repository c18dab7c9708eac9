import Wwsearch.Ref.PostScorer
import Wwsearch.Spec.Batch
import Wwsearch.Spec.Operations
import Wwsearch.Spec.Scoring
import Wwsearch.Spec.Tables

/-!
# Scores by field

A hit is found through the inverted index, and it is scored with the fields of
its stored record. The strategy takes it that a document that was found in a
field has the field. `AlwaysFinds` is what that means for a query, and
`KeepsFields` is what it asks of whoever writes: an ingest call posts stored
documents in fields that they have, and a batch leaves no posting of a document
in a field that the document does not have when the batch is done.

What a batch leaves is told updater by updater, because it may have several for
one document, and because an updater brings its own old document along where
none is read. Terms are taken by their keys: the length of a term goes into a
key in 32 bits, so longer terms share the key of a short one.
-/

namespace Wwsearch.Spec

open Wwsearch.Lib Wwsearch.Ref Wwsearch.Ref.DocumentWriter

/-! ## Queries -/

section Query

variable (σ : Type) [LT σ] [DecidableLT σ] [Zero σ] [Add σ] [Mul σ] [Div σ]
  [NatCast σ]

/-- No query comes to the null pointer of a missing field: the outcome is the
same, whatever following it would give. -/
def AlwaysFinds (context : SearchContext) : Prop :=
  ∀ (fuel : Nat) (a : Searcher.QueryArgs σ)
    (strategies : List StringScoreStrategy)
    (queues : CollectorQueues σ a.sorter) (offset limit : UInt64)
    (docs : List DocumentID) (null : Document → Int → σ),
    Searcher.doQuery fuel context
        { a with scoreStrategyList := strategies.map (·.score) } queues offset
        limit docs =
      Searcher.doQuery fuel context
        { a with scoreStrategyList := strategies.map (·.scoreOr null) } queues
        offset limit docs

end Query

/-! ## Postings -/

section Postings

variable (config : IndexConfig) (op : DocListMergeOperator) (table : TableID)
  (db : VirtualDB)

/-- The last list of the term that mentions the document says that it has the
term. -/
def Posted (f : FieldID) (t : Bytes) (d : DocumentID) : Prop :=
  lastState (cellLists
    (db .invertedIndexColumn)[encodeInvertedKey table f t]?) d =
      some kDocumentStateOK

/-- The stored record of the document has the field. -/
def HasField (d : DocumentID) (f : FieldID) : Prop :=
  ∃ doc, storedDocument config op table db d = some doc ∧
    (doc.findField f).isSome

/-- The updater posts its document under the key of the term. -/
def PostsTerm (du : DocumentUpdater) (f : FieldID) (t : Bytes) : Prop :=
  ∃ t', encodeInvertedKey table f t' = encodeInvertedKey table f t ∧
    NewTerm config du f t' ∧ ¬ OldTerm config du f t'

/-- The updater takes back what its document was posted under the key. -/
def TakesBack (du : DocumentUpdater) (f : FieldID) (t : Bytes) : Prop :=
  ∃ t', encodeInvertedKey table f t' = encodeInvertedKey table f t ∧
    OldTerm config du f t' ∧ ¬ NewTerm config du f t'

/-- If the document is posted under the term after the updaters, then its last
record has the field. -/
def LeavesField (f : FieldID) (t : Bytes) (d : DocumentID) :
    List DocumentUpdater → Prop → Prop → Prop
  | [], posted, hasField => posted → hasField
  | du :: rest, posted, hasField =>
      if du.newDocument.documentId = d ∧ du.status.ok then
        LeavesField f t d rest
          (PostsTerm config table du f t ∨
            posted ∧ ¬ TakesBack config table du f t)
          (du.delete = false ∧ (du.newDocument.findField f).isSome)
      else LeavesField f t d rest posted hasField

end Postings

/-! ## Steps -/

section Steps

variable (config : IndexConfig) (op : DocListMergeOperator)

/-- A batch that is written leaves no posting in a field that its document does
not have. The updaters are as the reading half leaves them, with the old fields
copied. -/
def BatchCall.KeepsFields (table : TableID) (db : VirtualDB) (c : BatchCall) :
    Prop :=
  c.storeBuffer = none → (c.perform config op table db).ok = true →
    ∀ f t d, LeavesField config table f t d
      ((c.read config op table db).1.map (ready config))
      (Posted table db f t d) (HasField config op table db d f)

namespace TableOperation

/-- The operation is a batch that keeps fields, or an ingest call that posts
stored documents in fields they have. -/
def KeepsFields (db : VirtualDB) (o : TableOperation) : Prop :=
  match o.operation with
  | .writeDocuments c => c.KeepsFields config op o.table db
  | .ingestInvertIndex faults storeBuffer indices =>
      storeBuffer = none →
      (ingestInvertIndex config faults o.table db storeBuffer
        indices).status.ok = true →
      ∀ item ∈ indices, ∀ d ∈ item.docList,
        HasField config op o.table db d item.fieldId
  | .acquireCurrentSequence _ _ _ | .acquireNewSequence _ | .dropTable _ _
  | .deleteTableData _ _ _ _ => False

/-- Every step of the run does, in the state it comes to. -/
def KeepsFieldsAll : VirtualDB → List TableOperation → Prop
  | _, [] => True
  | db, o :: run =>
      o.KeepsFields config op db ∧
        KeepsFieldsAll (o.perform config op db) run

end TableOperation

end Steps

end Wwsearch.Spec
