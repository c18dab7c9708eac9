import Wwsearch.Lib.Settles
import Wwsearch.Ref.Collector
import Wwsearch.Spec.Query

/-!
# Pages of a query

A page is a window in one order of the documents that match. What matches is
said here without batches and queues: of the ids that the scorer shows, those
the collector looks at, with their doc values, as far as the filters let them
through. `PagesPartition` is the law of pages: two pages that meet are one
page, and all pages together are all documents. Every page is answered by
queues of its own, since nothing is known of a queue but that it pops a
greatest item.

What the loop of `DoQuery` sees of a query is a stream of hits: the ids that the
root iterator shows, each with the field that the iterator names for it. The
collector looks at the stream up to its total limit.
-/

namespace Wwsearch.Spec

open Wwsearch.Lib Wwsearch.Ref

/-! ## The stream -/

/-- The ids that the scorer of a query shows. -/
def Enumerates (context : SearchContext) (q : Query)
    (ids : List DocumentID) : Prop :=
  ∃ scorer st it,
    Settles (fun fuel => getScorer fuel context q {}) (some scorer, st) ∧
    Settles (fun fuel => scorer.iterator fuel) it ∧
    Settles (fun fuel => DocIdSetIterator.enumerate fuel it) ids

/-- A document of the stream and the field it was found in. -/
abbrev Hit := DocumentID × Int

/-- The hits that calls of `NextDoc` go through, from the one that is shown. -/
inductive ShowsHits : DocIdSetIterator → List Hit → Prop
  | done {it : DocIdSetIterator} (hzero : it.docID = noMoreDocs) :
      ShowsHits it []
  | next {it it' : DocIdSetIterator} {hits : List Hit}
      (hne : it.docID ≠ noMoreDocs)
      (hnext : Settles (fun fuel => DocIdSetIterator.call fuel .nextDoc it) it')
      (hrest : ShowsHits it' hits) : ShowsHits it ((it.docID, it.fieldId) :: hits)

/-- The hits as they are read off, with fuel. -/
def readHits : Nat → DocIdSetIterator → Option (List Hit)
  | 0, _ => none
  | fuel + 1, it =>
      if it.docID = noMoreDocs then some []
      else do
        let next ← DocIdSetIterator.call fuel .nextDoc it
        let rest ← readHits fuel next
        some ((it.docID, it.fieldId) :: rest)

/-- The query has a scorer, which shows the hits. -/
def Streams (context : SearchContext) (q : Query) (hits : List Hit) : Prop :=
  ∃ scorer st it,
    Settles (fun fuel => getScorer fuel context q {}) (some scorer, st) ∧
    Settles (fun fuel => scorer.iterator fuel) it ∧ ShowsHits it hits

/-- The hits up to the total limit. -/
def hitsLookedAt (context : SearchContext) (hits : List Hit) : List Hit :=
  let limit := context.config.maxInnerPurgeDocsTotalLimit
  if limit = 0xFFFFFFFF then hits else hits.take (limit.toNat + 1)

/-! ## Documents -/

section Documents

variable (context : SearchContext)

/-- The ids up to the total limit. The count is compared before an id is
taken, and in 32 bits, where the greatest limit is never passed. -/
def lookedAt (ids : List DocumentID) : List DocumentID :=
  let limit := context.config.maxInnerPurgeDocsTotalLimit
  if limit = 0xFFFFFFFF then ids else ids.take (limit.toNat + 1)

/-- The read of the doc values of an id, in the snapshot. -/
def docValueRow (d : DocumentID) : SearchStatus × Document :=
  Searcher.innerGetField context.config context.faults context.op context.table
    context.snapshot .docValue { documentId := d }

def docValues (d : DocumentID) : Document := (docValueRow context d).2

/-- No read of doc values fails, and a record carries the id it is kept for. -/
def ReadableDocValues : Prop :=
  ∀ d, ((docValueRow context d).1.ok ∨
      (docValueRow context d).1.documentNotExist) ∧
    (docValues context d).documentId = d

/-- The same of one entry of the column, as a test. -/
def readableDocValue (config : IndexConfig) (op : DocListMergeOperator)
    (table : TableID) (x : Bytes × Cell) : Bool :=
  match VirtualDB.cellValue op x.2 with
  | none => true
  | some value =>
      match Document.deSerializeFromByte config.pb {} value with
      | none => false
      | some doc => encodeStoredFieldKey table doc.documentId == x.1

end Documents

/-! ## Pages -/

section Pages

variable {σ : Type} [LT σ] [DecidableLT σ] [Zero σ] [Add σ]

/-- The parameters of the collector for a page. -/
def pageParams (context : SearchContext) (a : Searcher.QueryArgs σ)
    (offset limit : UInt64) : CollectorParams σ :=
  CollectorParams.new context offset limit a.filter a.sorter
    a.scoreStrategyList a.maxScoreDocNum a.minMatchFilterNum

/-- The matching documents, as the collector meets them. -/
def matching (context : SearchContext) (a : Searcher.QueryArgs σ)
    (ids : List DocumentID) : List DocumentID :=
  (lookedAt context ids).filter fun d => matchFilter a.filter
    (pageParams context a 0 0).minMatchFilterNum (docValues context d)

/-- The order of the result, on ids. -/
def sortsBefore (context : SearchContext) (a : Searcher.QueryArgs σ)
    (d₁ d₂ : DocumentID) : Bool :=
  sorter a.sorter (docValues context d₁) (docValues context d₂)

/-- The ids that `DoQuery` returns for a page. -/
def Page (context : SearchContext) (a : Searcher.QueryArgs σ)
    (queues : CollectorQueues σ a.sorter) (offset limit : UInt64)
    (ids : List DocumentID) : Prop :=
  ∃ status total, Settles
    (fun fuel => Searcher.doQuery fuel context a queues offset limit [])
    ⟨status, ids, total⟩

/-- The law of pages for the documents that match. -/
structure PagesPartition (context : SearchContext) (a : Searcher.QueryArgs σ)
    (docs : List DocumentID) : Prop where
  append : ∀ (queues₁ queues₂ queues₃ : CollectorQueues σ a.sorter)
    (o n m : UInt64), o.toNat + n.toNat + m.toNat < 2 ^ 64 →
    ∃ ids₁ ids₂ ids₃, Page context a queues₁ o n ids₁ ∧
      Page context a queues₂ (o + n) m ids₂ ∧
      Page context a queues₃ o (n + m) ids₃ ∧ ids₁ ++ ids₂ = ids₃
  walk : ∀ (queues : Nat → CollectorQueues σ a.sorter) (n k : Nat),
    k * n < 2 ^ 64 → docs.length ≤ k * n →
    ∃ pages : Nat → List DocumentID,
      (∀ i < k, Page context a (queues i) (UInt64.ofNat (i * n))
        (UInt64.ofNat n) (pages i)) ∧
      ((List.range k).flatMap pages).Perm docs ∧
      ((List.range k).flatMap pages).Nodup

end Pages

end Wwsearch.Spec
