import Wwsearch.Proofs.Paging
import Wwsearch.Spec.Scoring

/-!
# How far pages go by score

`PostScorer` says yes to a document and itself, so it is no strict weak
ordering of any queue that is not empty, and nothing is known of the order in
which the score queue is popped. What is known is that it is popped once, as a
whole, and that the page is the window of what comes out. So the page is right
for every queue only where any order does (`selectsByScore_iff`).
-/

namespace Wwsearch.Spec

open Wwsearch.Lib Wwsearch.Ref Wwsearch.Ref.TopNCollector

/-! ## Batches -/

theorem gather_enough {needed : Nat} {hit : Hit → Bool} {scored : List Hit}
    (h : needed ≤ scored.length) (bs : List (List Hit)) :
    gather needed hit scored bs = scored := by
  cases bs with
  | nil => rfl
  | cons b bs => rw [gather, if_neg (Nat.not_lt.2 h)]

theorem gather_append (needed : Nat) (hit : Hit → Bool) (scored : List Hit)
    (bs bs' : List (List Hit)) : gather needed hit scored (bs ++ bs') =
      gather needed hit (gather needed hit scored bs) bs' := by
  induction bs generalizing scored with
  | nil => rfl
  | cons b bs ih =>
      rw [List.cons_append, gather, gather]
      split
      · exact ih _
      · next hge => rw [gather_enough (Nat.not_lt.1 hge)]

theorem gather_sublist (needed : Nat) (hit : Hit → Bool) (scored : List Hit)
    (bs : List (List Hit)) :
    (gather needed hit scored bs).Sublist (scored ++ bs.flatten) := by
  induction bs generalizing scored with
  | nil => rw [List.flatten_nil, List.append_nil]; exact List.Sublist.refl _
  | cons b bs ih =>
      rw [gather, List.flatten_cons]
      split
      · refine (ih _).trans ?_
        rw [List.append_assoc]
        exact (List.Sublist.append_right List.filter_sublist _).append_left _
      · exact List.sublist_append_left _ _

theorem flatten_batchesFrom (n : Nat) (batch hits : List Hit) :
    (batchesFrom n batch hits).flatten = batch ++ hits := by
  induction hits generalizing batch with
  | nil =>
      rw [batchesFrom, List.append_nil]
      split
      · next hempty => rw [List.isEmpty_iff.1 hempty]; rfl
      · exact List.append_nil batch
  | cons x hits ih =>
      rw [batchesFrom]
      split
      · rw [List.flatten_cons, ih, List.nil_append, List.append_assoc]
        rfl
      · rw [ih, List.append_assoc]
        rfl

/-! ## The score queue is poured out -/

variable {σ : Type} [LinearOrder σ] {p : CollectorParams σ}
  {queues : CollectorQueues σ p.sorter}

theorem postScorer_self (x : CollectedDocument σ) : postScorer x x = true :=
  if_neg (lt_irrefl _)

/-- What pouring out does not touch. -/
structure SameBut (c c' : TopNCollector queues) : Prop where
  scorePriorityQueue : c'.scorePriorityQueue = c.scorePriorityQueue
  scoreDocCount : c'.scoreDocCount = c.scoreDocCount
  bufferDocs : c'.bufferDocs = c.bufferDocs
  topN : c'.topN = c.topN
  status : c'.status = c.status
  total : c'.getMatchTotalCnt = c.getMatchTotalCnt

theorem handleScored_same (c : TopNCollector queues)
    (doc : CollectedDocument σ) : SameBut c (handleScored p c doc) := by
  rw [handleScored]
  split_ifs <;> exact ⟨rfl, rfl, rfl, rfl, rfl, rfl⟩

theorem foldl_handleScored_same (docs : List (CollectedDocument σ))
    (c : TopNCollector queues) : SameBut c (docs.foldl (handleScored p) c) := by
  induction docs generalizing c with
  | nil => exact ⟨rfl, rfl, rfl, rfl, rfl, rfl⟩
  | cons doc docs ih =>
      have hstep := handleScored_same c doc
      have hrest := ih (handleScored p c doc)
      exact ⟨hrest.1.trans hstep.1, hrest.2.trans hstep.2, hrest.3.trans hstep.3,
        hrest.4.trans hstep.4, hrest.5.trans hstep.5, hrest.6.trans hstep.6⟩

/-- What is popped is dropped up to the offset, and pushed up to the limit. -/
theorem foldl_handleScored (docs : List (CollectedDocument σ))
    (c : TopNCollector queues)
    (hlimit : queues.docs.size c.topNDocs ≤ p.limit.toNat)
    (hempty : c.offset ≠ 0 → queues.docs.items c.topNDocs = []) :
    (queues.docs.items (docs.foldl (handleScored p) c).topNDocs).Perm
      (queues.docs.items c.topNDocs ++ window c.offset.toNat
        (p.limit.toNat - queues.docs.size c.topNDocs) docs) ∧
    ((docs.foldl (handleScored p) c).offset ≠ 0 →
      queues.docs.items (docs.foldl (handleScored p) c).topNDocs = []) := by
  induction docs generalizing c with
  | nil =>
      refine ⟨?_, hempty⟩
      rw [window, List.drop_nil, List.take_nil, List.append_nil]
      exact List.Perm.refl _
  | cons doc docs ih =>
      rw [List.foldl_cons, handleScored]
      by_cases hzero : c.offset = 0
      · have hwindow : ∀ n l, window c.offset.toNat n l = l.take n :=
          fun n (l : List (CollectedDocument σ)) => by
            rw [hzero]
            rfl
        by_cases hroom : queues.docs.size c.topNDocs < p.limit.toNat
        · -- there is room in the page
          rw [if_pos ⟨hroom, hzero⟩]
          have hpush := queues.docs.items_push doc c.topNDocs
          have hsize : queues.docs.size (queues.docs.push doc c.topNDocs) =
              queues.docs.size c.topNDocs + 1 := hpush.length_eq
          obtain ⟨hperm, hoffset⟩ := ih { c with
            topNDocs := queues.docs.push doc c.topNDocs }
            (by rw [hsize]; exact hroom) (fun hne => absurd hzero hne)
          refine ⟨hperm.trans ?_, hoffset⟩
          have hsub : p.limit.toNat - queues.docs.size c.topNDocs =
              p.limit.toNat - (queues.docs.size c.topNDocs + 1) + 1 := by
            omega
          rw [hwindow, hwindow, hsize, hsub, List.take_succ_cons]
          exact (hpush.append_right _).trans List.perm_middle.symm
        · rw [if_neg fun h => hroom h.1, if_neg (by rw [hzero]; decide)]
          obtain ⟨hperm, hoffset⟩ := ih c hlimit hempty
          refine ⟨hperm.trans ?_, hoffset⟩
          have hfull : p.limit.toNat - queues.docs.size c.topNDocs = 0 := by
            omega
          rw [hfull, hwindow, hwindow, List.take_zero, List.take_zero]
      · -- dropped by the offset
        have hpos : 0 < c.offset := UInt64.pos_iff_ne_zero.2 hzero
        rw [if_neg fun h => hzero h.2, if_pos hpos]
        have hnil := hempty hzero
        have hprev : c.offset.toNat = (c.offset - 1).toNat + 1 := by
          have hlt : 1 ≤ c.offset.toNat := UInt64.lt_iff_toNat_lt.1 hpos
          have hone : (1 : UInt64) ≤ c.offset := UInt64.le_iff_toNat_le.2 hlt
          rw [UInt64.toNat_sub_of_le _ _ hone]
          exact (Nat.sub_add_cancel hlt).symm
        obtain ⟨hperm, hoffset⟩ := ih { c with offset := c.offset - 1 } hlimit
          fun _ => hnil
        refine ⟨hperm.trans ?_, hoffset⟩
        rw [hprev]
        exact List.Perm.refl _

/-! ## One batch -/

variable [Zero σ] [Add σ] {offset : UInt64}

/-- A hit as it goes into the buffer. -/
def freshDoc (x : Hit) : CollectedDocument σ :=
  ⟨{ documentId := x.1 }, x.2, 0⟩

/-- The strategies have an answer for the hit. -/
def Answered (p : CollectorParams σ) (x : Hit) : Prop :=
  (addScores p ⟨storedValues p.context x.1, x.2, 0⟩).isSome = true

/-- A hit as it goes into the score queue. -/
def scoredOf (p : CollectorParams σ) (x : Hit) : CollectedDocument σ :=
  (addScores p ⟨storedValues p.context x.1, x.2, 0⟩).getD (freshDoc x)

def passesOf (p : CollectorParams σ) (x : Hit) : Bool :=
  matchFilter p.filter p.minMatchFilterNum (docValues p.context x.1)

/-- The page has the window of what came out of a queue of the hits. -/
def Poured (offset : UInt64) (c : TopNCollector queues) (docs : List Hit) :
    Prop :=
  ∃ q, (queues.scores.items q).Perm (docs.map (scoredOf p)) ∧
    (queues.docs.items c.topNDocs).Perm (window offset.toNat p.limit.toNat
      (queues.scores.popped (queues.scores.size q) q)) ∧
    (c.offset ≠ 0 → queues.docs.items c.topNDocs = [])

/-- The hits are in the score queue, and nothing is in the page. -/
structure Waiting (offset : UInt64) (c : TopNCollector queues)
    (docs : List Hit) : Prop where
  queue : (queues.scores.items c.scorePriorityQueue).Perm
    (docs.map (scoredOf p))
  page : queues.docs.items c.topNDocs = []
  offset : c.offset = offset

/-- Enough hits were scored, and the score queue was poured out. -/
structure Drained (offset : UInt64) (c : TopNCollector queues)
    (docs : List Hit) : Prop where
  enough : p.maxScoreDocNum.toNat ≤ docs.length
  queue : queues.scores.items c.scorePriorityQueue = []
  poured : Poured offset c docs

/-- The collector after some batches, and the hits that were scored. -/
structure Scored (offset : UInt64) (c : TopNCollector queues)
    (docs : List Hit) : Prop where
  count : c.scoreDocCount = docs.length.toUInt64
  phase : Waiting offset c docs ∨ Drained offset c docs

theorem Waiting.pour {c : TopNCollector queues} {docs : List Hit}
    (h : Waiting offset c docs) :
    Poured offset (handleScorePriorityQueue p c) docs := by
  have hsize : queues.docs.size c.topNDocs = 0 := by
    rw [PriorityQueue.size, h.page]
    rfl
  obtain ⟨hperm, hoffset⟩ := foldl_handleScored (queues.scores.popped
      (queues.scores.size c.scorePriorityQueue) c.scorePriorityQueue)
    { c with scorePriorityQueue := queues.scores.empty }
    (by rw [hsize]; exact Nat.zero_le _) (fun _ => h.page)
  refine ⟨c.scorePriorityQueue, h.queue, hperm.trans ?_, hoffset⟩
  rw [h.page, hsize, h.offset]
  exact List.Perm.refl _

/-- A drained queue pours nothing. -/
theorem Drained.pour {c : TopNCollector queues} {docs : List Hit}
    (h : Drained offset c docs) : handleScorePriorityQueue p c =
      { c with scorePriorityQueue := queues.scores.empty } := by
  have hsize : queues.scores.size c.scorePriorityQueue = 0 := by
    rw [PriorityQueue.size, h.queue]
    rfl
  simp only [handleScorePriorityQueue, hsize]
  rfl

/-- Poured out, once more or for the first time. -/
theorem Scored.pour {c : TopNCollector queues} {docs : List Hit}
    (h : Scored offset c docs) :
    Poured offset (handleScorePriorityQueue p c) docs := by
  rcases h.phase with h | h
  · exact h.pour
  · rw [h.pour]
    exact h.poured

omit [Zero σ] [Add σ] in
theorem handleScorePriorityQueue_same (c : TopNCollector queues) :
    SameBut { c with scorePriorityQueue := queues.scores.empty }
      (handleScorePriorityQueue p c) :=
  foldl_handleScored_same _ _

/-- Nothing but the queues, the offset and the count matters. -/
theorem Scored.congr {c c' : TopNCollector queues} {docs : List Hit}
    (h : Scored offset c docs)
    (hqueue : c'.scorePriorityQueue = c.scorePriorityQueue)
    (hpage : c'.topNDocs = c.topNDocs) (hoffset : c'.offset = c.offset)
    (hcount : c'.scoreDocCount = c.scoreDocCount) : Scored offset c' docs := by
  refine ⟨hcount.trans h.count, h.phase.imp (fun hw => ⟨?_, ?_, ?_⟩)
    fun hd => ⟨hd.enough, ?_, ?_⟩⟩
  · rw [hqueue]
    exact hw.queue
  · rw [hpage]
    exact hw.page
  · exact hoffset.trans hw.offset
  · rw [hqueue]
    exact hd.queue
  · rw [Poured, hpage, hoffset]
    exact hd.poured

theorem Scored.drain {c : TopNCollector queues} {docs : List Hit}
    (h : Scored offset c docs) (henough : p.maxScoreDocNum.toNat ≤ docs.length) :
    Scored offset (handleScorePriorityQueue p c) docs := by
  have hsame := handleScorePriorityQueue_same (p := p) c
  refine ⟨hsame.scoreDocCount.trans h.count, .inr ⟨henough, ?_, h.pour⟩⟩
  rw [hsame.scorePriorityQueue]
  exact queues.scores.items_empty

theorem items_foldl_push {α : Type} {less : α → α → Bool}
    (pq : PriorityQueue α less) (docs : List α) (q : pq.Queue) :
    (pq.items (docs.foldl (fun queue doc => pq.push doc queue) q)).Perm
      (pq.items q ++ docs) := by
  induction docs generalizing q with
  | nil => rw [List.append_nil]; exact List.Perm.refl _
  | cons doc docs ih =>
      exact (ih _).trans (((pq.items_push doc q).append_right docs).trans
        List.perm_middle.symm)

theorem mapM_eq_map {α β : Type} {f : α → Option β} {g : α → β} {l : List α}
    (h : ∀ x ∈ l, f x = some (g x)) : l.mapM f = some (l.map g) := by
  induction l with
  | nil => rfl
  | cons x l ih =>
      rw [List.mapM_cons, h x List.mem_cons_self,
        ih fun y hy => h y (List.mem_cons_of_mem x hy)]
      rfl

omit [LinearOrder σ] in
/-- The hits of a batch with their stored fields, and their scores. -/
theorem scoreRows (hread : ReadableDocValues p.context)
    (hstored : ReadableStored p.context) {hits : List Hit}
    (hanswer : ∀ x ∈ hits, Answered p x) :
    ((readRows (Searcher.getStoredFields p.context.config p.context.faults
        p.context.op p.context.table p.context.snapshot)
        ((hits.map fun x => load p (freshDoc x)).map fun doc =>
          { doc with document := { doc.document with fields := [] } })).filter
        fun row => row.1.ok || row.1.documentNotExist).mapM
          (fun row => addScores p row.2) = some (hits.map (scoredOf p)) := by
  have hrows : readRows (Searcher.getStoredFields p.context.config
      p.context.faults p.context.op p.context.table p.context.snapshot)
      ((hits.map fun x => load p (freshDoc (σ := σ) x)).map fun doc =>
        { doc with document := { doc.document with fields := [] } }) =
      hits.map fun x => ((storedRow p.context x.1).1,
        (⟨storedValues p.context x.1, x.2, 0⟩ : CollectedDocument σ)) := by
    unfold Searcher.getStoredFields
    rw [readRows_map, List.map_map, List.map_map]
    refine List.map_congr_left fun x _ => ?_
    have hid : (load p (freshDoc (σ := σ) x)).document.documentId = x.1 :=
      (hread x.1).2
    simp only [Function.comp_apply, hid]
    rfl
  rw [hrows, List.filter_eq_self.2]
  · rw [List.mapM_map]
    refine mapM_eq_map fun x hx => ?_
    obtain ⟨doc, hdoc⟩ := Option.isSome_iff_exists.1 (hanswer x hx)
    show addScores p ⟨storedValues p.context x.1, x.2, 0⟩ = _
    rw [scoredOf, hdoc]
    rfl
  · intro row hrow
    obtain ⟨x, -, rfl⟩ := List.mem_map.1 hrow
    simpa using (hstored x.1).1

omit [LinearOrder σ] [Add σ] in
/-- The hits of a batch, with their doc values. -/
theorem filter_load (p : CollectorParams σ) (batch : List Hit) :
    (((batch.map freshDoc).map (load p)).filter fun doc =>
        matchFilter p.filter p.minMatchFilterNum doc.document) =
      (batch.filter (passesOf p)).map fun x => load p (freshDoc x) := by
  rw [List.map_map, List.filter_map]
  rfl

/-- What `InnerPurge` leaves as it is. -/
structure Stays (c c' : TopNCollector queues) : Prop where
  topN : c'.topN = c.topN
  status : c'.status = c.status
  total : c'.getMatchTotalCnt.isNone = c.getMatchTotalCnt.isNone

/-- The hits of a batch are scored, or the scored ones are poured out. -/
theorem scoreHits_scored (hread : ReadableDocValues p.context)
    (hstored : ReadableStored p.context) {c : TopNCollector queues}
    {docs hits : List Hit} (h : Scored offset c docs)
    (hanswer : ∀ x ∈ hits, Answered p x)
    (hlen : docs.length + hits.length < 2 ^ 64) :
    ∃ c', scoreHits p c (hits.map fun x => load p (freshDoc x)) = some c' ∧
      c'.bufferDocs = c.bufferDocs ∧ Stays c c' ∧
      Scored offset c' (if docs.length < p.maxScoreDocNum.toNat then
        docs ++ hits else docs) := by
  have hcount : c.scoreDocCount.toNat = docs.length := by
    rw [h.count]
    exact UInt64.toNat_ofNat_of_lt' (show _ < 2 ^ 64 by omega)
  simp only [scoreHits, UInt64.lt_iff_toNat_lt, hcount]
  split
  · next hlt =>
      rw [scoreRows hread hstored hanswer]
      refine ⟨_, rfl, rfl, ⟨rfl, rfl, rfl⟩, ?_, .inl ⟨?_, ?_, ?_⟩⟩
      · show c.scoreDocCount + _ = _
        rw [h.count, List.length_map, List.length_append]
        exact (UInt64.ofNat_add _ _).symm
      all_goals
        have hw := h.phase.resolve_right fun hd =>
          absurd hd.enough (Nat.not_le.2 hlt)
      · rw [List.map_append]
        exact (items_foldl_push queues.scores _ _).trans
          (hw.queue.append_right _)
      · exact hw.page
      · exact hw.offset
  · next hge =>
      have hsame := handleScorePriorityQueue_same (p := p) c
      exact ⟨_, rfl, hsame.bufferDocs, ⟨hsame.topN, hsame.status,
        congrArg Option.isNone hsame.total⟩, h.drain (Nat.not_lt.1 hge)⟩

theorem gather_one (needed : Nat) (hit : Hit → Bool) (docs batch : List Hit) :
    gather needed hit docs [batch] =
      if docs.length < needed then docs ++ batch.filter hit else docs := rfl

/-- A batch in the buffer goes through `InnerPurge`. -/
theorem innerPurge_scored (huse : p.useScoreStrategy = true)
    (hread : ReadableDocValues p.context) (hstored : ReadableStored p.context)
    {c : TopNCollector queues} {docs batch : List Hit}
    (h : Scored offset c docs) (hbuffer : c.bufferDocs = batch.map freshDoc)
    (hanswer : ∀ x ∈ batch, passesOf p x = true → Answered p x)
    (hlen : docs.length + batch.length < 2 ^ 64) :
    ∃ c', innerPurge p c = some c' ∧ c'.bufferDocs = [] ∧ Stays c c' ∧
      Scored offset c' (gather p.maxScoreDocNum.toNat (passesOf p) docs
        [batch]) := by
  rw [gather_one]
  have hnone : batch.filter (passesOf p) = [] → (if docs.length <
      p.maxScoreDocNum.toNat then docs ++ batch.filter (passesOf p)
        else docs) = docs := by
    intro hnil
    rw [hnil, List.append_nil]
    exact ite_self docs
  rw [innerPurge]
  split
  · next hempty =>
      have hnil := List.isEmpty_iff.1 hempty
      have hbatch : batch = [] := List.map_eq_nil_iff.1 (hbuffer.symm.trans hnil)
      rw [hnone (by rw [hbatch]; rfl)]
      exact ⟨c, rfl, hnil, ⟨rfl, rfl, rfl⟩, h⟩
  · rw [huse, Bool.not_true, Bool.and_false, if_neg Bool.false_ne_true]
    have hfresh : ∀ doc ∈ c.bufferDocs, Fresh doc := by
      rw [hbuffer]
      intro doc hdoc
      obtain ⟨x, -, rfl⟩ := List.mem_map.1 hdoc
      rfl
    have hhits := filterDocs_fresh hread hfresh
    rw [hbuffer, filter_load, ← hbuffer] at hhits
    simp only [hhits]
    split
    · next hempty =>
        rw [hnone (List.map_eq_nil_iff.1 (List.isEmpty_iff.1 hempty))]
        exact ⟨_, rfl, rfl, ⟨rfl, rfl, Option.isNone_map⟩,
          h.congr rfl rfl rfl rfl⟩
    · obtain ⟨c', hc', hnil, hstays, hscored⟩ := scoreHits_scored hread hstored
        (c := addMatchTotal p { c with status := c.status, bufferDocs := [] }
          (batch.filter (passesOf p)).length) (h.congr rfl rfl rfl rfl)
        (fun x hx => hanswer x (List.mem_of_mem_filter hx)
          (List.of_mem_filter hx))
        (Nat.lt_of_le_of_lt (Nat.add_le_add_left
          List.filter_sublist.length_le _) hlen)
      rw [← List.length_map (f := fun x => load p (freshDoc (σ := σ) x))] at hc'
      exact ⟨c', hc', hnil, ⟨hstays.topN, hstays.status,
        hstays.total.trans Option.isNone_map⟩, hscored⟩

/-! ## All batches -/

/-- The batches of the collector. -/
def batchesOf (p : CollectorParams σ) : List Hit → List (List Hit) :=
  batchesFrom p.context.config.maxInnerPurgeBatchDocsCount.toNat []

/-- The hits that are scored in the batches. -/
def gathered (p : CollectorParams σ) : List (List Hit) → List Hit :=
  gather p.maxScoreDocNum.toNat (passesOf p) []

/-- The collector after some hits: the closed batches were scored, and the
batch that is not closed is in the buffer. The last one may be closed early. -/
structure Gathers (all : List Hit) (c₀ c : TopNCollector queues)
    (taken : List Hit) : Prop where
  batches : ∃ closed, Scored c₀.offset c (gathered p closed) ∧
    ((∃ batch, c.bufferDocs = batch.map freshDoc ∧ ∀ more,
        batchesOf p (taken ++ more) = closed ++ batchesFrom
          p.context.config.maxInnerPurgeBatchDocsCount.toNat batch more) ∨
      (taken = hitsLookedAt p.context all ∧ c.bufferDocs = [] ∧
        closed = batchesOf p taken))
  stays : Stays c₀ c

omit [LinearOrder σ] [Zero σ] [Add σ] in
theorem gathered_concat (p : CollectorParams σ) (closed : List (List Hit))
    (batch : List Hit) : gathered p (closed ++ [batch]) =
      gather p.maxScoreDocNum.toNat (passesOf p) (gathered p closed) [batch] :=
  gather_append _ _ _ closed [batch]

/-- An empty batch scores nothing. -/
theorem gather_last (needed n : Nat) (hit : Hit → Bool) (docs batch : List Hit) :
    gather needed hit docs (batchesFrom n batch []) =
      gather needed hit docs [batch] := by
  cases batch with
  | nil => rw [gather_one, List.filter_nil, List.append_nil, ite_self]; rfl
  | cons x batch => rfl

namespace Gathers

variable {all taken : List Hit} {c₀ c : TopNCollector queues}

omit [LinearOrder σ] [Zero σ] [Add σ] in
/-- The batch that is not closed is the end of what was taken. -/
theorem flatten_closed {closed : List (List Hit)} {batch : List Hit}
    (h : ∀ more, batchesOf p (taken ++ more) = closed ++ batchesFrom
      p.context.config.maxInnerPurgeBatchDocsCount.toNat batch more) :
    closed.flatten ++ batch = taken := by
  have hflat := congrArg List.flatten (h [])
  rw [batchesOf, List.flatten_append, flatten_batchesFrom, flatten_batchesFrom,
    List.append_nil, List.append_nil] at hflat
  exact hflat.symm

/-- The batch goes through `InnerPurge`. -/
theorem purge (huse : p.useScoreStrategy = true)
    (hread : ReadableDocValues p.context) (hstored : ReadableStored p.context)
    (hanswer : ∀ x ∈ all, passesOf p x = true → Answered p x)
    (hlen : all.length < 2 ^ 64) {closed : List (List Hit)} {batch : List Hit}
    (h : Scored c₀.offset c (gathered p closed)) (hstays : Stays c₀ c)
    (hbuffer : c.bufferDocs = batch.map freshDoc)
    (hall : closed.flatten ++ batch <+: all) :
    ∃ c', innerPurge p c = some c' ∧ c'.bufferDocs = [] ∧ Stays c₀ c' ∧
      Scored c₀.offset c' (gathered p (closed ++ [batch])) := by
  have hsub := (gather_sublist p.maxScoreDocNum.toNat (passesOf p) []
    closed).length_le
  have hle := hall.length_le
  rw [List.length_append] at hle
  obtain ⟨c', hc', hnil, hkept, hscored⟩ := innerPurge_scored huse hread hstored
    h hbuffer (fun x hx => hanswer x (hall.subset (List.mem_append_right _ hx)))
    (Nat.lt_of_le_of_lt ((Nat.add_le_add_right hsub _).trans hle) hlen)
  rw [← gathered_concat] at hscored
  exact ⟨c', hc', hnil, ⟨hkept.topN.trans hstays.topN,
    hkept.status.trans hstays.status, hkept.total.trans hstays.total⟩, hscored⟩

/-- What is in the buffer is purged as the last batch. -/
theorem last (huse : p.useScoreStrategy = true)
    (hread : ReadableDocValues p.context) (hstored : ReadableStored p.context)
    (hanswer : ∀ x ∈ all, passesOf p x = true → Answered p x)
    (hlen : all.length < 2 ^ 64) (htaken : taken <+: all)
    (h : Gathers all c₀ c taken) :
    ∃ c', innerPurge p c = some c' ∧ c'.bufferDocs = [] ∧ Stays c₀ c' ∧
      Scored c₀.offset c' (gathered p (batchesOf p taken)) := by
  obtain ⟨closed, hscored, hbatch⟩ := h.batches
  rcases hbatch with ⟨batch, hbuffer, hopen⟩ | ⟨-, hnil, hclosed⟩
  · have hall := flatten_closed hopen
    obtain ⟨c', hc', hnil, hstays, hscored'⟩ := purge huse hread hstored hanswer
      hlen hscored h.stays hbuffer (hall.symm ▸ htaken)
    refine ⟨c', hc', hnil, hstays, ?_⟩
    have hend := hopen []
    rw [List.append_nil] at hend
    rw [gathered, hend, gather_append, gather_last, ← gather_append]
    exact hscored'
  · rw [← hclosed]
    refine ⟨c, ?_, hnil, h.stays, hscored⟩
    rw [innerPurge, hnil]
    rfl

/-- The collector goes on, whatever `Collect` does. -/
theorem keeps (huse : p.useScoreStrategy = true)
    (hread : ReadableDocValues p.context) (hstored : ReadableStored p.context)
    (hanswer : ∀ x ∈ all, passesOf p x = true → Answered p x)
    (hlen : all.length < 2 ^ 64) :
    CollectKeeps all fun (c : TopNCollector queues) taken =>
      Gathers all c₀ c taken := by
  have hlooked := hitsLookedAt_isPrefix p.context all
  -- one more hit is looked at, so the batch that is not closed is in the buffer
  have hopen : ∀ {c : TopNCollector queues} {taken x},
      taken ++ [x] <+: hitsLookedAt p.context all → Gathers all c₀ c taken →
      ∃ closed batch, Scored c₀.offset c (gathered p closed) ∧
        (buffered c x).bufferDocs = (batch ++ [x]).map freshDoc ∧
        ∀ more, batchesOf p (taken ++ [x] ++ more) = closed ++ batchesFrom
          p.context.config.maxInnerPurgeBatchDocsCount.toNat batch
          (x :: more) := by
    intro c taken x hpre h
    obtain ⟨closed, hscored, ⟨batch, hbuffer, hopen⟩ | ⟨hend, -⟩⟩ := h.batches
    · refine ⟨closed, batch, hscored, ?_, fun more => ?_⟩
      · rw [List.map_append, ← hbuffer]
        rfl
      · rw [List.append_assoc]
        exact hopen (x :: more)
    · have hle := hpre.length_le
      rw [← hend, List.length_append] at hle
      exact absurd hle (by simp)
  constructor
  · intro c taken x hpre h hfull
    obtain ⟨closed, batch, hscored, hbuffer, hbatches⟩ := hopen hpre h
    rw [Full, hbuffer, List.length_map] at hfull
    refine ⟨⟨closed, hscored.congr rfl rfl rfl rfl, .inl ⟨_, hbuffer,
      fun more => ?_⟩⟩, ⟨h.stays.topN, h.stays.status, h.stays.total⟩⟩
    rw [hbatches, batchesFrom, if_neg hfull]
  · intro c taken x hpre h hfull
    obtain ⟨closed, batch, hscored, hbuffer, hbatches⟩ := hopen hpre h
    rw [Full, hbuffer, List.length_map] at hfull
    have hnext : ∀ more, batchesOf p (taken ++ [x] ++ more) =
        closed ++ [batch ++ [x]] ++ batchesFrom
          p.context.config.maxInnerPurgeBatchDocsCount.toNat [] more := by
      intro more
      rw [hbatches, batchesFrom, if_pos hfull, List.append_assoc]
      rfl
    have hall := flatten_closed hnext
    rw [List.append_nil, List.flatten_append, List.flatten_singleton] at hall
    obtain ⟨c', hc', hnil, hstays, hscored'⟩ := purge huse hread hstored hanswer
      hlen (c := buffered c x) (hscored.congr rfl rfl rfl rfl)
      ⟨h.stays.topN, h.stays.status, h.stays.total⟩ hbuffer
      (hall.symm ▸ hpre.trans hlooked)
    exact ⟨c', hc', ⟨_, hscored', .inl ⟨[], hnil, hnext⟩⟩, hstays⟩
  · intro c h
    obtain ⟨c', hc', hnil, hstays, hscored⟩ :=
      h.last huse hread hstored hanswer hlen hlooked
    exact ⟨c', hc', ⟨_, hscored, .inr ⟨rfl, hnil, rfl⟩⟩, hstays⟩

/-- The collector at the end of the query, wherever the loop ended. -/
theorem finish (huse : p.useScoreStrategy = true)
    (hread : ReadableDocValues p.context) (hstored : ReadableStored p.context)
    (hanswer : ∀ x ∈ all, passesOf p x = true → Answered p x)
    (hlen : all.length < 2 ^ 64) (hok : c₀.status.ok = true)
    (hroom : ¬ (c₀.topN = 0 ∧ p.sorter = none ∧ c₀.getMatchTotalCnt = none))
    {seen : List Hit} (hseen : seen <+: all)
    (h : Gathers all c₀ c (hitsLookedAt p.context seen))
    (hend : seen = all ∨ enough p c = true) :
    ∃ c', TopNCollector.finish p c = some c' ∧ Stays c₀ c' ∧
      Poured c₀.offset c'
        (gathered p (batchesOf p (hitsLookedAt p.context all))) := by
  obtain ⟨c', hc', -, hstays, hscored⟩ := h.last huse hread hstored hanswer hlen
    ((hitsLookedAt_isPrefix _ _).trans hseen)
  have hsame := handleScorePriorityQueue_same (p := p) c'
  refine ⟨handleScorePriorityQueue p c', ?_, ⟨hsame.topN.trans hstays.topN,
    hsame.status.trans hstays.status, (congrArg _ hsame.total).trans
      hstays.total⟩, ?_⟩
  · rw [TopNCollector.finish, hc', huse]
    rfl
  rcases hend with rfl | henough
  · exact hscored.pour
  -- the page was full, so enough hits were scored before the loop ended
  obtain ⟨hsorter, hsize, htotal⟩ := enough_ok henough (by
    rw [h.stays.status, hok])
  have htotal₀ : c₀.getMatchTotalCnt = none := by
    rw [← Option.isNone_iff_eq_none, ← h.stays.total, htotal]
    rfl
  have hpos : 0 < c.topN.toNat := by
    rw [h.stays.topN]
    exact UInt64.pos_iff_ne_zero.2 fun hzero =>
      hroom ⟨hzero, hsorter, htotal₀⟩
  obtain ⟨closed, hclosed, hbatch⟩ := h.batches
  have hdrained := hclosed.phase.resolve_left fun hw => by
    rw [PriorityQueue.size, hw.page] at hsize
    exact absurd hsize (Nat.not_le.2 hpos)
  have hrest : ∀ rest, gathered p (closed ++ rest) = gathered p closed :=
    fun rest => (gather_append _ _ [] closed rest).trans
      (gather_enough hdrained.enough rest)
  obtain ⟨more, hmore⟩ := hitsLookedAt_mono p.context hseen
  rcases hbatch with ⟨batch, -, hopen⟩ | ⟨hall, -⟩
  · have hnil := hopen []
    rw [List.append_nil] at hnil
    rw [← hmore, hopen, hrest, ← hrest, ← hnil]
    exact hscored.pour
  · rw [← hall]
    exact hscored.pour

end Gathers

end Wwsearch.Spec
