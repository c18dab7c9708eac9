import Wwsearch.Spec.Paging

/-!
# The page that a query asks for

Sort, filter and slice, without batches, queues or a loop that ends early: of
the first ids of the stream, as many as the total limit lets through, the ones
that pass enough filters, in the order of the sorter, from `offset` on, `limit`
of them. The filters are counted as numbers here, and in 32 bits by the
collector; `CountsFit` says that this makes no difference.
-/

namespace Wwsearch.Spec

open Wwsearch.Lib Wwsearch.Ref

/-- How many filters have to pass: all, unless some other number of them is
asked for. -/
def neededFilters {α : Type} (rules : List α) (minMatchFilterNum : UInt32) :
    Nat :=
  if minMatchFilterNum = 0 ∨ rules.length < minMatchFilterNum.toNat then
    rules.length
  else minMatchFilterNum.toNat

def passes (filter : Option (List Filter)) (minMatchFilterNum : UInt32)
    (document : Document) : Bool :=
  match filter with
  | none => true
  | some rules =>
      decide (neededFilters rules minMatchFilterNum ≤ rules.countP fun rule =>
        rule.matchField (document.findField rule.fieldId))

section Query

variable {σ : Type} (context : SearchContext) (a : Searcher.QueryArgs σ)

/-- The documents of the result, for a stream of ids. -/
def specified (ids : List DocumentID) : List DocumentID :=
  (ids.take (context.config.maxInnerPurgeDocsTotalLimit.toNat + 1)).filter
    fun d => passes a.filter a.minMatchFilterNum (docValues context d)

variable [LT σ] [DecidableLT σ] [Zero σ] [Add σ]

/-- Counting in 32 bits gives every document the verdict of counting. -/
def CountsFit (ids : List DocumentID) : Prop :=
  ∀ d ∈ lookedAt context ids,
    matchFilter a.filter (pageParams context a 0 0).minMatchFilterNum
        (docValues context d) =
      passes a.filter a.minMatchFilterNum (docValues context d)

/-- Every page of the documents is a window in one sorted list of them, and
the total grows by their number. -/
def AnswersPages (docs : List DocumentID) : Prop :=
  ∃ s : List DocumentID, s.Perm docs ∧ Sorted (sortsBefore context a) s ∧
    ∀ (queues : CollectorQueues σ a.sorter) (offset limit : UInt64),
      offset.toNat + limit.toNat < 2 ^ 64 →
      ∃ status, Settles
        (fun fuel => Searcher.doQuery fuel context a queues offset limit [])
        ⟨status, (s.drop offset.toNat).take limit.toNat,
          a.getMatchTotalCnt.map (· + docs.length.toUInt32)⟩

end Query

end Wwsearch.Spec
