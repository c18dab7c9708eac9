import Wwsearch.Lib.PriorityQueue
import Wwsearch.Ref.Query
import Wwsearch.Ref.Sorter

/-!
# The collector and `DoQuery` (`collector_top.cpp`, `post_scorer.h`,
`searcher.cpp`)

`InnerGetFields` reads one record for every document of a list and adds its
fields to the document: the stored record or the doc-value record. A document
without a record keeps what it has, and says so in its status.

The ids that an iterator shows go into a buffer, and `InnerPurge` empties the
buffer whenever it is full: it reads the doc values of all that is in it, drops
what the filters refuse, and pushes the rest into a priority queue that is not
let grow past `offset + limit`. What comes first in the result is least in the
queue, so the page is popped from its end. Ids past the total limit are not
looked at.

With score strategies the hits of a batch are scored with their stored fields
and go into a second queue, which is poured into the first when enough have
been scored, or at the end.

Which of several equal items a `std::priority_queue` pops is not said, so the
two queues are parameters. A score is a `double` in the source; here it is what
can be added and compared. A strategy that follows the null pointer of a
missing field has no answer.
-/

namespace Wwsearch.Ref

open Wwsearch.Lib

/-! ## What a searcher reads of a document -/

namespace Searcher

/-- The column that `mode` stands for. -/
def fieldsColumn : EncodeTarget → StorageColumnType
  | .storedField => .storedFieldColumn
  | .docValue => .docValueColumn

/-- `InnerGetFields` for one of the documents. The database is the snapshot of
the context, or the one of now. -/
def innerGetField (config : IndexConfig) (faults : Faults)
    (op : DocListMergeOperator) (table : TableID) (db : VirtualDB)
    (mode : EncodeTarget) (document : Document) : SearchStatus × Document :=
  let key := encodeStoredFieldKey table document.documentId
  let (status, value) := db.getStatus faults op (fieldsColumn mode) key
  if status.ok then
    match document.deSerializeFromByte config.pb value with
    | some document => (status, document)
    | none => (⟨kSerializeErrorStatus, "Deserizlize bytes error"⟩, document)
  else (status, document)

variable (config : IndexConfig) (faults : Faults) (op : DocListMergeOperator)
  (table : TableID) (db : VirtualDB) (documents : List Document)

def getStoredFields : List (SearchStatus × Document) :=
  documents.map (innerGetField config faults op table db .storedField)

def getDocValue : List (SearchStatus × Document) :=
  documents.map (innerGetField config faults op table db .docValue)

end Searcher

/-! ## The collector -/

/-- The members of `Document` that only the collector uses, with their
document. -/
structure CollectedDocument (σ : Type) where
  document : Document
  matchFieldId : Int
  documentScore : σ

/-- `ScoreStrategy::Score`. -/
abbrev ScoreStrategy (σ : Type) := Document → Int → Option σ

variable {σ : Type}

/-- `Sorter` on the documents of a collector. -/
def collectedLess (sortCondictions : Option (List SortCondition))
    (lhs rhs : CollectedDocument σ) : Bool :=
  sorter sortCondictions lhs.document rhs.document

/-- `PostScorer::operator()`. -/
def postScorer [LT σ] [DecidableLT σ] (lhs rhs : CollectedDocument σ) : Bool :=
  if rhs.documentScore < lhs.documentScore then false else true

/-- What a collector is made with. -/
structure CollectorParams (σ : Type) where
  context : SearchContext
  limit : UInt64
  filter : Option (List Filter)
  sorter : Option (List SortCondition)
  scoreStrategyList : List (ScoreStrategy σ)
  maxScoreDocNum : UInt64
  minMatchFilterNum : UInt32

namespace CollectorParams

/-- The constructor's initialisers. -/
def new (context : SearchContext) (offset limit : UInt64)
    (filter : Option (List Filter)) (sorter : Option (List SortCondition))
    (scoreStrategyList : List (ScoreStrategy σ)) (maxScoreDocNum : UInt64)
    (minMatchFilterNum : UInt32) : CollectorParams σ where
  context := context
  limit := limit
  filter := filter
  sorter := sorter
  scoreStrategyList := scoreStrategyList
  maxScoreDocNum := max (offset + limit) maxScoreDocNum
  minMatchFilterNum :=
    match filter with
    | none => minMatchFilterNum
    | some rules =>
        if minMatchFilterNum = 0 ∨ rules.length < minMatchFilterNum.toNat then
          rules.length.toUInt32
        else minMatchFilterNum

def useScoreStrategy (p : CollectorParams σ) : Bool :=
  !p.scoreStrategyList.isEmpty

def quickTopN (p : CollectorParams σ) : Bool := p.sorter.isNone

end CollectorParams

/-- The two queues, as their library makes them. -/
structure CollectorQueues (σ : Type) [LT σ] [DecidableLT σ]
    (sortCondictions : Option (List SortCondition)) where
  docs : PriorityQueue (CollectedDocument σ) (collectedLess sortCondictions)
  scores : PriorityQueue (CollectedDocument σ) postScorer

variable [LT σ] [DecidableLT σ] [Zero σ] [Add σ]

/-- What changes in a collector. -/
structure TopNCollector {sortCondictions : Option (List SortCondition)}
    (queues : CollectorQueues σ sortCondictions) where
  topNDocs : queues.docs.Queue := queues.docs.empty
  scorePriorityQueue : queues.scores.Queue := queues.scores.empty
  scoreDocCount : UInt64 := 0
  bufferDocs : List (CollectedDocument σ) := []
  topN : UInt64
  offset : UInt64
  innerPurgeTotalDocsCount : UInt32 := 0
  status : SearchStatus := {}
  getMatchTotalCnt : Option UInt32

namespace TopNCollector

variable (p : CollectorParams σ) {queues : CollectorQueues σ p.sorter}

/-- `(*get_match_total_cnt_) += count`, where it is given. -/
def addMatchTotal (c : TopNCollector queues) (count : Nat) :
    TopNCollector queues :=
  { c with getMatchTotalCnt := c.getMatchTotalCnt.map (· + count.toUInt32) }

/-- The loop of `HandleScorePriorityQueue`, for one document that is popped. -/
def handleScored (c : TopNCollector queues) (doc : CollectedDocument σ) :
    TopNCollector queues :=
  if queues.docs.size c.topNDocs < p.limit.toNat ∧ c.offset = 0 then
    { c with topNDocs := queues.docs.push doc c.topNDocs }
  else if 0 < c.offset then { c with offset := c.offset - 1 }
  else c

/-- `HandleScorePriorityQueue`: the queue is popped until it is empty. -/
def handleScorePriorityQueue (c : TopNCollector queues) :
    TopNCollector queues :=
  let popped := queues.scores.popped
    (queues.scores.size c.scorePriorityQueue) c.scorePriorityQueue
  popped.foldl (handleScored p)
    { c with scorePriorityQueue := queues.scores.empty }

/-- The buffered documents with the records that are read for them. -/
def readRows (read : List Document → List (SearchStatus × Document))
    (docs : List (CollectedDocument σ)) :
    List (SearchStatus × CollectedDocument σ) :=
  List.zipWith (fun row doc => (row.1, { doc with document := row.2 }))
    (read (docs.map (·.document))) docs

/-- The loop over a batch: its hits, and the status it broke with. -/
def filterDocs : List (SearchStatus × CollectedDocument σ) →
    List (CollectedDocument σ) × Option SearchStatus
  | [] => ([], none)
  | (status, doc) :: rest =>
      if status.ok ∨ status.documentNotExist then
        let (hits, error) := filterDocs rest
        if matchFilter p.filter p.minMatchFilterNum doc.document then
          (doc :: hits, error)
        else (hits, error)
      else ([], some status)

/-- `AddScore` for every strategy. -/
def addScores (doc : CollectedDocument σ) : Option (CollectedDocument σ) :=
  p.scoreStrategyList.foldlM (fun doc strategy => do
    let score ← strategy doc.document doc.matchFieldId
    some { doc with documentScore := doc.documentScore + score }) doc

/-- The hits of a batch, with score strategies. -/
def scoreHits (c : TopNCollector queues) (hits : List (CollectedDocument σ)) :
    Option (TopNCollector queues) :=
  let x := p.context
  if c.scoreDocCount < p.maxScoreDocNum then do
    let c := { c with scoreDocCount := c.scoreDocCount + hits.length.toUInt64 }
    let cleared := hits.map fun doc =>
      { doc with document := { doc.document with fields := [] } }
    let rows := readRows (Searcher.getStoredFields x.config x.faults x.op
      x.table x.snapshot) cleared
    let scored ← (rows.filter fun row =>
      row.1.ok || row.1.documentNotExist).mapM fun row => addScores p row.2
    let scorePriorityQueue := scored.foldl
      (fun queue doc => queues.scores.push doc queue) c.scorePriorityQueue
    some { c with scorePriorityQueue }
  else some (handleScorePriorityQueue p c)

/-- `InnerPurge`. -/
def innerPurge (c : TopNCollector queues) : Option (TopNCollector queues) :=
  let x := p.context
  if c.bufferDocs.isEmpty then some c
  else if p.sorter.isNone && p.filter.isNone && !p.useScoreStrategy then
    let topNDocs := c.bufferDocs.foldl (fun queue doc =>
      if queues.docs.size queue < c.topN.toNat then queues.docs.push doc queue
      else queue) c.topNDocs
    some { addMatchTotal p c c.bufferDocs.length with
      topNDocs, bufferDocs := [] }
  else
    let rows := readRows (Searcher.getDocValue x.config x.faults x.op x.table
      x.snapshot) c.bufferDocs
    let (hits, error) := filterDocs p rows
    let c := addMatchTotal p
      { c with status := error.getD c.status, bufferDocs := [] } hits.length
    if hits.isEmpty then some c
    else if p.useScoreStrategy then scoreHits p c hits
    else
      let topNDocs :=
        hits.foldl (queues.docs.pushBounded c.topN.toNat) c.topNDocs
      some { c with topNDocs }

/-- `Collect`. -/
def collect (c : TopNCollector queues) (docId : DocumentID) (fieldId : Int) :
    Option (TopNCollector queues) :=
  let config := p.context.config
  if config.maxInnerPurgeDocsTotalLimit < c.innerPurgeTotalDocsCount then
    innerPurge p c
  else
    let document : CollectedDocument σ := ⟨{ documentId := docId }, fieldId, 0⟩
    let c := { c with
      bufferDocs := c.bufferDocs ++ [document]
      innerPurgeTotalDocsCount := c.innerPurgeTotalDocsCount + 1 }
    if config.maxInnerPurgeBatchDocsCount.toNat ≤ c.bufferDocs.length then
      innerPurge p c
    else some c

/-- `Enough`. -/
def enough (c : TopNCollector queues) : Bool :=
  if !c.status.ok then true
  else if !p.quickTopN then false
  else decide (c.topN.toNat ≤ queues.docs.size c.topNDocs) &&
    c.getMatchTotalCnt.isNone

/-- `Finish`. -/
def finish (c : TopNCollector queues) : Option (TopNCollector queues) := do
  let c ← innerPurge p c
  some (if p.useScoreStrategy then handleScorePriorityQueue p c else c)

/-- The loop that drops `offset` documents: `remove` takes out every document
equal to the front. -/
def dropByOffset : Nat → List DocumentID → List DocumentID
  | 0, docs => docs
  | _ + 1, [] => []
  | offset + 1, front :: docs =>
      dropByOffset offset (docs.filter (· != front))

/-- `GetAndClearMatchDocs`. -/
def getAndClearMatchDocs (c : TopNCollector queues) (docs : List DocumentID) :
    List DocumentID :=
  let popped := queues.docs.popped c.topN.toNat c.topNDocs
  dropByOffset c.offset.toNat (popped.foldl (fun docs doc =>
    doc.document.documentId :: docs) docs)

end TopNCollector

namespace Searcher

/-- The loop of `DoQuery`. -/
def collectLoop (p : CollectorParams σ) {queues : CollectorQueues σ p.sorter} :
    Nat → DocIdSetIterator → TopNCollector queues →
      Option (TopNCollector queues)
  | 0, _, _ => none
  | fuel + 1, docLists, collector =>
      if docLists.docID ≠ noMoreDocs ∧ collector.enough p = false then do
        let collector ← collector.collect p docLists.docID docLists.fieldId
        let docLists ← DocIdSetIterator.call fuel .nextDoc docLists
        collectLoop p fuel docLists collector
      else some collector

/-- The arguments of `DoQuery` without the page. -/
structure QueryArgs (σ : Type) where
  query : Query
  filter : Option (List Filter) := none
  sorter : Option (List SortCondition) := none
  scoreStrategyList : List (ScoreStrategy σ) := []
  maxScoreDocNum : UInt64 := 0xFFFFFFFFFFFFFFFF
  minMatchFilterNum : UInt32 := 0
  getMatchTotalCnt : Option UInt32 := none

/-- What `DoQuery` returns and leaves in its arguments. -/
structure QueryResult where
  status : SearchStatus
  docs : List DocumentID
  getMatchTotalCnt : Option UInt32
  deriving DecidableEq, Repr

/-- The end of `DoQuery`: the status of the collector, or its documents and
the status of the context. -/
def queryResult (p : CollectorParams σ) {queues : CollectorQueues σ p.sorter}
    (contextStatus : SearchStatus) (docs : List DocumentID)
    (collector : TopNCollector queues) : QueryResult :=
  let getMatchTotalCnt := collector.getMatchTotalCnt
  if !collector.status.ok then
    { status := collector.status, docs, getMatchTotalCnt }
  else
    { status := if !contextStatus.ok then contextStatus else {}
      docs := collector.getAndClearMatchDocs p docs
      getMatchTotalCnt }

/-- `DoQuery`. -/
def doQuery (fuel : Nat) (context : SearchContext) (a : QueryArgs σ)
    (queues : CollectorQueues σ a.sorter) (offset limit : UInt64)
    (docs : List DocumentID) : Option QueryResult := do
  let p := CollectorParams.new context offset limit a.filter a.sorter
    a.scoreStrategyList a.maxScoreDocNum a.minMatchFilterNum
  let (scorer, st) ← getScorer fuel context a.query {}
  match scorer with
  | none =>
      some
        { status := if st.status.ok then
            ⟨kScorerErrorStatus, "can not get scorer"⟩ else st.status
          docs := docs
          getMatchTotalCnt := a.getMatchTotalCnt }
  | some scorer => do
      let docLists ← scorer.iterator fuel
      let collector : @TopNCollector σ _ _ p.sorter queues :=
        { topN := offset + limit, offset,
          getMatchTotalCnt := a.getMatchTotalCnt }
      let collector ← collectLoop p fuel docLists collector
      let collector ← collector.finish p
      some (queryResult p st.status docs collector)

end Searcher

end Wwsearch.Ref
