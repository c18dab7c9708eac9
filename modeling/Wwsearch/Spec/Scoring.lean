import Wwsearch.Lib.Window
import Wwsearch.Spec.Paging

/-!
# Pages by score

With score strategies the hits of the stream are scored batch by batch, until
enough of them are, and the page is a window in the hits in the order of their
scores. `scoredHits` are the hits that get a score: those of the batches that
are purged before enough were scored in earlier ones.
-/

namespace Wwsearch.Spec

open Wwsearch.Lib Wwsearch.Ref

/-! ## What is read -/

/-- The read of the stored record of an id, in the snapshot. -/
def storedRow (context : SearchContext) (d : DocumentID) :
    SearchStatus × Document :=
  Searcher.innerGetField context.config context.faults context.op context.table
    context.snapshot .storedField { documentId := d }

def storedValues (context : SearchContext) (d : DocumentID) : Document :=
  (storedRow context d).2

/-- No read of a stored record fails, and a record carries the id it is kept
for. -/
def ReadableStored (context : SearchContext) : Prop :=
  ∀ d, ((storedRow context d).1.ok ∨
      (storedRow context d).1.documentNotExist) ∧
    (storedValues context d).documentId = d

/-! ## What is scored -/

/-- The batches of the rest of a stream, behind a batch that is not closed
yet: it is closed as soon as it has `n` hits. -/
def batchesFrom (n : Nat) (batch : List Hit) : List Hit → List (List Hit)
  | [] => if batch.isEmpty then [] else [batch]
  | x :: rest =>
      if n ≤ (batch ++ [x]).length then
        (batch ++ [x]) :: batchesFrom n [] rest
      else batchesFrom n (batch ++ [x]) rest

/-- The hits of the batches, up to the batch that has enough before it. -/
def gather (needed : Nat) (isHit : Hit → Bool) :
    List Hit → List (List Hit) → List Hit
  | scored, [] => scored
  | scored, batch :: rest =>
      if scored.length < needed then
        gather needed isHit (scored ++ batch.filter isHit) rest
      else scored

section Query

variable {σ : Type} (context : SearchContext) (a : Searcher.QueryArgs σ)

/-- The document of the hit passes the filters. -/
def isHit (x : Hit) : Bool :=
  matchFilter a.filter (pageParams context a 0 0).minMatchFilterNum
    (docValues context x.1)

/-- The hit with its stored fields and its score. -/
def scoredDocument [Zero σ] [Add σ] (x : Hit) : Option (CollectedDocument σ) :=
  TopNCollector.addScores (pageParams context a 0 0)
    ⟨storedValues context x.1, x.2, 0⟩

def scoreOf [Zero σ] [Add σ] (x : Hit) : σ :=
  (scoredDocument context a x).elim 0 (·.documentScore)

variable (offset limit : UInt64)

/-- The loop of `DoQuery` asks whether there is enough before the first hit.
With no room in the page, and no one who sorts or counts, there is. -/
def walked (hits : List Hit) : List Hit :=
  if offset + limit = 0 ∧ a.sorter = none ∧ a.getMatchTotalCnt = none then []
  else hits

/-- The hits that get a score. -/
def scoredHits (hits : List Hit) : List Hit :=
  gather (max (offset + limit) a.maxScoreDocNum).toNat (isHit context a) []
    (batchesFrom context.config.maxInnerPurgeBatchDocsCount.toNat []
      (hitsLookedAt context (walked a offset limit hits)))

variable [LinearOrder σ] [Zero σ] [Add σ]

/-- Whatever the queues are, the ids of the page are those of a window in an
order of the hits by score. -/
def SelectsByScore (docs : List Hit) : Prop :=
  ∀ queues : CollectorQueues σ a.sorter, ∃ status ids total,
    Settles
      (fun fuel => Searcher.doQuery fuel context a queues offset limit [])
      ⟨status, ids, total⟩ ∧
    ∃ page, IsWindow (scoreOf context a) offset.toNat limit.toNat docs page ∧
      ∀ d, d ∈ ids ↔ d ∈ page.map Prod.fst

/-- No queue can go wrong: the page is empty, or it fits and has all of the
hits, or it fits and all of them have one score. -/
def AnyOrderDoes (docs : List Hit) : Prop :=
  let size := min limit.toNat (docs.length - offset.toNat)
  size = 0 ∨ size ≤ (offset + limit).toNat ∧
    (size = docs.length ∨
      ∀ x ∈ docs, ∀ y ∈ docs, scoreOf context a x = scoreOf context a y)

end Query

end Wwsearch.Spec
