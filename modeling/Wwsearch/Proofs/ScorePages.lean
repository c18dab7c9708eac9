import Mathlib.Data.Finset.Card
import Mathlib.Data.Finset.Range
import Wwsearch.Proofs.Scoring
import Wwsearch.Proofs.TopN

/-!
# When pages by score are right

Two sides. If the page is empty, or has all hits, or all hits have one score,
no order of them is wrong. If not, there is a queue that brings a wrong one:
since nothing is asked of a queue for `PostScorer`, any order can be what it
pops (`popped_keyQueue`), and the windows of all orders are by score only then.
-/

namespace Wwsearch.Spec

open Wwsearch.Lib Wwsearch.Ref Wwsearch.Ref.TopNCollector

variable {σ : Type}

/-! ## Documents and hits -/

/-- The hit that a document was made of. -/
def hitOf (doc : CollectedDocument σ) : Hit := (idOf doc, doc.matchFieldId)

/-- A score does not change what it is for. -/
theorem addScores_same [Add σ] {p : CollectorParams σ}
    {doc doc' : CollectedDocument σ} (h : addScores p doc = some doc') :
    doc'.document = doc.document ∧ doc'.matchFieldId = doc.matchFieldId := by
  rw [addScores] at h
  generalize p.scoreStrategyList = strategies at h
  induction strategies generalizing doc with
  | nil =>
      rw [Option.some.inj h]
      exact ⟨rfl, rfl⟩
  | cons strategy rest ih =>
      rw [List.foldlM_cons] at h
      obtain ⟨next, hnext, h⟩ := Option.bind_eq_some_iff.1 h
      obtain ⟨score, -, hnext⟩ := Option.bind_eq_some_iff.1 hnext
      obtain ⟨hdocument, hfield⟩ := ih h
      rw [← Option.some.inj hnext] at hdocument hfield
      exact ⟨hdocument, hfield⟩

theorem hitOf_scoredOf [Zero σ] [Add σ] {p : CollectorParams σ}
    (hstored : ReadableStored p.context) (x : Hit) :
    hitOf (scoredOf p x) = x := by
  rw [scoredOf]
  cases hdoc : addScores p ⟨storedValues p.context x.1, x.2, 0⟩ with
  | none => rfl
  | some doc =>
      obtain ⟨hdocument, hfield⟩ := addScores_same hdoc
      rw [Option.getD_some, hitOf, idOf, hdocument, hfield]
      exact Prod.ext (hstored x.1).2 rfl

/-- Ids without repetition, none of which is zero, can be counted. -/
theorem length_lt_of_nodup {ids : List DocumentID} (h : ids.Nodup)
    (hne : ∀ d ∈ ids, d ≠ 0) : ids.length < 2 ^ 64 := by
  have hnodup := List.Nodup.map (f := UInt64.toNat)
    (fun d e hde => UInt64.toNat_inj.1 hde) h
  have hsub : (ids.map UInt64.toNat).toFinset ⊆
      (Finset.range (2 ^ 64)).erase 0 := by
    intro n hn
    obtain ⟨d, hd, rfl⟩ := List.mem_map.1 (List.mem_toFinset.1 hn)
    exact Finset.mem_erase.2 ⟨fun hzero => hne d hd (UInt64.toNat_inj.1 hzero),
      Finset.mem_range.2 d.toNat_lt⟩
  have hcard := Finset.card_le_card hsub
  rw [List.toFinset_card_of_nodup hnodup, List.length_map,
    Finset.card_erase_of_mem (Finset.mem_range.2 (by decide)),
    Finset.card_range] at hcard
  omega

/-- Among hits that have their own ids, the ids tell which hits there are. -/
theorem mem_iff_of_ids {docs w w' : List Hit} (h : (docs.map Prod.fst).Nodup)
    (hw : w ⊆ docs) (hw' : w' ⊆ docs)
    (hids : ∀ d, d ∈ w.map Prod.fst ↔ d ∈ w'.map Prod.fst) (x : Hit) :
    x ∈ w ↔ x ∈ w' := by
  have hinj := List.inj_on_of_nodup_map h
  constructor
  · intro hx
    obtain ⟨y, hy, hyx⟩ :=
      List.mem_map.1 ((hids x.1).1 (List.mem_map_of_mem hx))
    exact hinj (hw' hy) (hw hx) hyx ▸ hy
  · intro hx
    obtain ⟨y, hy, hyx⟩ :=
      List.mem_map.1 ((hids x.1).2 (List.mem_map_of_mem hx))
    exact hinj (hw hy) (hw' hx) hyx ▸ hy

variable {context : SearchContext} {a : Searcher.QueryArgs σ}
  {offset limit : UInt64} {hits : List Hit}

theorem walked_isPrefix (a : Searcher.QueryArgs σ) (offset limit : UInt64)
    (hits : List Hit) : walked a offset limit hits <+: hits := by
  rw [walked]
  split
  · exact List.nil_prefix
  · exact List.prefix_rfl

theorem scoredHits_sublist (context : SearchContext)
    (a : Searcher.QueryArgs σ) (offset limit : UInt64) (hits : List Hit) :
    (scoredHits context a offset limit hits).Sublist hits := by
  refine (gather_sublist _ _ _ _).trans ?_
  rw [flatten_batchesFrom]
  exact ((hitsLookedAt_isPrefix context _).trans
    (walked_isPrefix a offset limit hits)).sublist

/-! ## The page -/

variable [LinearOrder σ] [Zero σ] [Add σ]

section Query

variable (hscore : a.scoreStrategyList ≠ [])
  (hread : ReadableDocValues context) (hstored : ReadableStored context)
  (hstream : Streams context a.query hits)
  (hnodup : (hits.map Prod.fst).Nodup)
  (hanswer : ∀ x ∈ hits, isHit context a x = true →
    (scoredDocument context a x).isSome = true)

section Run

variable {queues : CollectorQueues σ a.sorter} {it : DocIdSetIterator}

include hscore

omit [LinearOrder σ] [Zero σ] [Add σ] in
theorem useScoreStrategy_eq :
    (pageParams context a offset limit).useScoreStrategy = true := by
  show (!a.scoreStrategyList.isEmpty) = true
  rw [List.isEmpty_eq_false_iff.2 hscore]
  rfl

/-- What the loop and the end of the collector come to, if there is enough
before the first hit. -/
theorem run_noRoom (hroom : offset + limit = 0 ∧ a.sorter = none ∧
      a.getMatchTotalCnt = none) :
    ∃ c c', Settles (fun fuel => Searcher.collectLoop
        (pageParams context a offset limit) fuel it
          (pageCollector context a queues offset limit)) c ∧
      finish (pageParams context a offset limit) c = some c' ∧
      Stays (p := pageParams context a offset limit)
        (pageCollector context a queues offset limit) c' ∧
      Poured (p := pageParams context a offset limit) offset c'
        (scoredHits context a offset limit hits) := by
  let p := pageParams context a offset limit
  let c₀ := pageCollector context a queues offset limit
  have henough : enough p c₀ = true := by
    show (if true = false then true else if (!a.sorter.isNone) = true then
      false else decide ((offset + limit).toNat ≤ _) &&
        a.getMatchTotalCnt.isNone) = true
    rw [hroom.1, hroom.2.1, hroom.2.2]
    rfl
  have hsame := handleScorePriorityQueue_same (p := p) c₀
  have hfinish : finish p c₀ = some (if p.useScoreStrategy then
      handleScorePriorityQueue p c₀ else c₀) := rfl
  have hempty : Waiting (p := p) offset c₀ [] :=
    ⟨List.Perm.of_eq queues.scores.items_empty, queues.docs.items_empty, rfl⟩
  have hnone : scoredHits context a offset limit hits = [] := by
    rw [scoredHits, walked, if_pos hroom, List.prefix_nil.1
      (hitsLookedAt_isPrefix context [])]
    rfl
  refine ⟨c₀, handleScorePriorityQueue p c₀, collectLoop_ends (.inr henough),
    ?_, ⟨hsame.topN, hsame.status, congrArg _ hsame.total⟩, ?_⟩
  · rw [hfinish, useScoreStrategy_eq hscore]
    rfl
  · rw [hnone]
    exact hempty.pour

include hread hstored hnodup hanswer

theorem run_scored (hshows : ShowsHits it hits) :
    ∃ c c', Settles (fun fuel => Searcher.collectLoop
        (pageParams context a offset limit) fuel it
          (pageCollector context a queues offset limit)) c ∧
      finish (pageParams context a offset limit) c = some c' ∧
      Stays (p := pageParams context a offset limit)
        (pageCollector context a queues offset limit) c' ∧
      Poured (p := pageParams context a offset limit) offset c'
        (scoredHits context a offset limit hits) := by
  by_cases hroom : offset + limit = 0 ∧ a.sorter = none ∧
      a.getMatchTotalCnt = none
  · exact run_noRoom hscore hroom
  · let p := pageParams context a offset limit
    let c₀ := pageCollector context a queues offset limit
    have huse : p.useScoreStrategy = true := useScoreStrategy_eq hscore
    have hlen : hits.length < 2 ^ 64 := by
      rw [← List.length_map (f := Prod.fst)]
      exact length_lt_of_nodup hnodup hshows.shows.ne_zero
    have hempty : Waiting (p := p) offset c₀ [] :=
      ⟨List.Perm.of_eq queues.scores.items_empty, queues.docs.items_empty, rfl⟩
    have hkeeps : CollectKeeps (p := p) hits fun c taken =>
        Gathers hits c₀ c taken :=
      Gathers.keeps huse hread hstored hanswer hlen
    obtain ⟨c, seen, hloop, hgathers, hseen, hend⟩ :=
      hkeeps.run hshows (c := c₀)
        ⟨⟨[], ⟨rfl, .inl hempty⟩, .inl ⟨[], rfl, fun more => rfl⟩⟩,
          rfl, rfl, rfl⟩ rfl
    obtain ⟨c', hc', hstays, hpoured⟩ := hgathers.finish huse hread hstored
      hanswer hlen rfl hroom hseen hend
    have hall : scoredHits context a offset limit hits =
        gathered p (batchesOf p (hitsLookedAt context hits)) := by
      rw [scoredHits, walked, if_neg hroom]
      rfl
    exact ⟨c, c', hloop, hc', hstays, hall ▸ hpoured⟩

end Run

omit [Zero σ] [Add σ] in
/-- No id is dropped a second time. -/
theorem getAndClearMatchDocs_poured {p : CollectorParams σ}
    {queues : CollectorQueues σ p.sorter} {c : TopNCollector queues}
    (h : c.offset ≠ 0 → queues.docs.items c.topNDocs = []) :
    getAndClearMatchDocs p c [] =
      (queues.docs.popped c.topN.toNat c.topNDocs).reverse.map idOf := by
  refine (congrArg (dropByOffset c.offset.toNat) (foldl_push_front
    (queues.docs.popped c.topN.toNat c.topNDocs) [])).trans ?_
  rw [List.append_nil]
  by_cases hzero : c.offset = 0
  · rw [hzero]
    rfl
  · have hnil := queues.docs.popped_subset (n := c.topN.toNat)
      (q := c.topNDocs)
    rw [h hzero] at hnil
    rw [List.subset_nil.1 hnil, List.reverse_nil, List.map_nil]
    cases c.offset.toNat <;> rfl

include hscore hread hstored hstream hnodup hanswer

/-- The page has the window of what came out of a queue of the hits, as far as
`offset + limit` reaches. -/
theorem doQuery_scored (queues : CollectorQueues σ a.sorter)
    (offset limit : UInt64) : ∃ status total q t,
      (queues.scores.items q).Perm ((scoredHits context a offset limit
        hits).map (scoredOf (pageParams context a offset limit))) ∧
      (queues.docs.items t).Perm (window offset.toNat limit.toNat
        (queues.scores.popped (queues.scores.size q) q)) ∧
      Settles (fun fuel => Searcher.doQuery fuel context a queues offset limit
        []) ⟨status, (queues.docs.popped (offset + limit).toNat
          t).reverse.map idOf, total⟩ := by
  obtain ⟨scorer, st, it, hscorer, hit, hshows⟩ := hstream
  obtain ⟨c, c', hloop, hc', hstays, q, hqueue, hpage, hoffset⟩ :=
    @run_scored σ context a offset limit hits _ _ _ hscore hread hstored
      hnodup hanswer queues it hshows
  have htop : c'.topN = offset + limit := hstays.topN
  have hdocs := @getAndClearMatchDocs_poured σ _
    (pageParams context a offset limit) queues c' hoffset
  rw [htop] at hdocs
  have hok : (!c'.status.ok) = false := by
    rw [hstays.status]
    rfl
  have hresult : Searcher.queryResult (pageParams context a offset limit)
      st.status [] c' =
      ⟨if !st.status.ok then st.status else {}, (queues.docs.popped
        (offset + limit).toNat c'.topNDocs).reverse.map idOf,
        c'.getMatchTotalCnt⟩ := by
    refine (if_neg (Bool.eq_false_iff.1 hok)).trans ?_
    rw [hdocs]
    rfl
  refine ⟨if !st.status.ok then st.status else {}, c'.getMatchTotalCnt, q,
    c'.topNDocs, hqueue, hpage, ?_⟩
  rw [← hresult]
  exact doQuery_of_run hscorer hit hloop hc' []

theorem selectsByScore_of_anyOrderDoes (h : AnyOrderDoes context a offset limit
      (scoredHits context a offset limit hits)) :
    SelectsByScore context a offset limit
      (scoredHits context a offset limit hits) := by
  intro queues
  obtain ⟨status, total, q, t, hq, ht, hquery⟩ := doQuery_scored hscore hread
    hstored hstream hnodup hanswer queues offset limit
  have hsub := scoredHits_sublist context a offset limit hits
  generalize scoredHits context a offset limit hits = docs at h hq hsub ⊢
  have hdocs := List.Nodup.of_map Prod.fst (hnodup.sublist (hsub.map _))
  -- what came out of the first queue, as hits
  have hπ : ((queues.scores.popped (queues.scores.size q) q).map
      hitOf).Perm docs := by
    refine (((queues.scores.popped_perm (Nat.le_refl _)).trans hq).map
      hitOf).trans (List.Perm.of_eq ?_)
    rw [List.map_map]
    exact (List.map_congr_left fun x _ => hitOf_scoredOf hstored x).trans
      (List.map_id docs)
  generalize queues.scores.popped (queues.scores.size q) q = out at ht hπ
  have hsize : queues.docs.size t =
      min limit.toNat (docs.length - offset.toNat) := by
    rw [PriorityQueue.size, ht.length_eq, length_window, ← hπ.length_eq,
      List.length_map]
  have hfits : queues.docs.size t ≤ (offset + limit).toNat := by
    rw [hsize]
    exact h.elim (fun hzero => hzero ▸ Nat.zero_le _) And.left
  refine ⟨status, _, total, hquery, _, (window_any_iff hdocs offset.toNat
    limit.toNat).2 (h.imp_right And.right) _ hπ, fun d => ?_⟩
  have hids := ((queues.docs.popped_perm hfits).trans ht).map idOf
  rw [← map_window, List.map_map, List.map_reverse, List.mem_reverse]
  exact hids.mem_iff

/-- The queue that pops the hits in some order gives the window of it. -/
theorem window_of_selectsByScore (h : SelectsByScore context a offset limit
      (scoredHits context a offset limit hits))
    {π : List Hit} (hπ : π.Perm (scoredHits context a offset limit hits)) :
    (window offset.toNat limit.toNat π).length ≤ (offset + limit).toNat ∧
    IsWindow (scoreOf context a) offset.toNat limit.toNat
      (scoredHits context a offset limit hits)
      (window offset.toNat limit.toNat π) := by
  let key : CollectedDocument σ → Nat := fun doc =>
    (π.map Prod.fst).idxOf (idOf doc)
  let queues : CollectorQueues σ a.sorter :=
    ⟨listQueue _, keyQueue key postScorer_self⟩
  obtain ⟨status, total, q, t, hq, ht, hquery⟩ := doQuery_scored hscore hread
    hstored hstream hnodup hanswer queues offset limit
  obtain ⟨status', ids, total', hquery', page, hpage, hmem⟩ := h queues
  have hids := congrArg Searcher.QueryResult.docs (hquery'.unique hquery)
  dsimp only at hids
  have hsub := scoredHits_sublist context a offset limit hits
  generalize scoredHits context a offset limit hits = docs at hπ hq hpage hsub ⊢
  have hdocs := hnodup.sublist (hsub.map Prod.fst)
  have hidOf : ∀ x, idOf (scoredOf (pageParams context a offset limit) x) =
      x.1 := fun x => congrArg Prod.fst (hitOf_scoredOf hstored x)
  have hpopped : queues.scores.popped (queues.scores.size q) q =
      π.map (scoredOf (pageParams context a offset limit)) := by
    refine popped_keyQueue (h := postScorer_self) (List.pairwise_map.2 ?_)
      (hq.trans (hπ.map _).symm)
    refine (List.pairwise_map.1 (pairwise_idxOf
      ((hπ.map Prod.fst).nodup_iff.2 hdocs))).imp fun {x y} hxy => ?_
    show (π.map Prod.fst).idxOf (idOf _) < (π.map Prod.fst).idxOf (idOf _)
    rw [hidOf, hidOf]
    exact hxy
  rw [hpopped, ← map_window] at ht
  obtain ⟨s, hs, hdesc, hpage⟩ := hpage
  have hlen : (window offset.toNat limit.toNat π).length =
      (window offset.toNat limit.toNat s).length := by
    rw [length_window, length_window, hπ.length_eq, hs.length_eq]
  have hshort : (window offset.toNat limit.toNat π).length ≤
      (offset + limit).toNat := by
    have hall : (window offset.toNat limit.toNat s).map Prod.fst ⊆ ids := by
      intro d hd
      obtain ⟨x, hx, rfl⟩ := List.mem_map.1 hd
      exact (hmem x.1).2 (List.mem_map_of_mem ((hpage x).2 hx))
    have hle := (List.subperm_of_subset (((hs.map Prod.fst).nodup_iff.2
      hdocs).sublist ((window_sublist _ _ _).map _)) hall).length_le
    rw [List.length_map, ← hlen, hids, List.length_map,
      List.length_reverse] at hle
    exact hle.trans (PriorityQueue.length_popped_le _ _)
  have hfits : queues.docs.size t ≤ (offset + limit).toNat := by
    rw [PriorityQueue.size, ht.length_eq, List.length_map]
    exact hshort
  have hpops := ((queues.docs.popped_perm hfits).trans ht).map idOf
  have hfst : idOf ∘ scoredOf (pageParams context a offset limit) = Prod.fst :=
    funext hidOf
  rw [List.map_map, hfst] at hpops
  refine ⟨hshort, s, hs, hdesc, fun x => ?_⟩
  refine mem_iff_of_ids hdocs
    (fun x hx => hπ.subset ((window_sublist _ _ _).subset hx))
    (fun x hx => hs.subset ((window_sublist _ _ _).subset hx)) (fun d => ?_) x
  rw [← hpops.mem_iff, ← List.mem_reverse, ← List.map_reverse, ← hids, hmem,
    List.mem_map, List.mem_map]
  exact exists_congr fun x => and_congr_left' (hpage x)

theorem anyOrderDoes_of_selectsByScore (h : SelectsByScore context a offset
      limit (scoredHits context a offset limit hits)) :
    AnyOrderDoes context a offset limit
      (scoredHits context a offset limit hits) := by
  have hany := fun π hπ => window_of_selectsByScore hscore hread hstored hstream
    hnodup hanswer h (π := π) hπ
  have hdocs := List.Nodup.of_map Prod.fst (hnodup.sublist
    ((scoredHits_sublist context a offset limit hits).map _))
  have hfits := (hany _ (List.Perm.refl _)).1
  rw [length_window] at hfits
  rcases (window_any_iff hdocs _ _).1 fun π hπ => (hany π hπ).2 with
    hzero | hrest
  · exact .inl hzero
  · exact .inr ⟨hfits, hrest⟩

end Query

/-- **Pages by score are right exactly where no order is wrong**: for any
stream, batch size, filters, sort conditions, page and number of documents to
score. -/
theorem selectsByScore_iff (hscore : a.scoreStrategyList ≠ [])
    (hread : ReadableDocValues context) (hstored : ReadableStored context)
    (hstream : Streams context a.query hits)
    (hnodup : (hits.map Prod.fst).Nodup)
    (hanswer : ∀ x ∈ hits, isHit context a x = true →
      (scoredDocument context a x).isSome = true) :
    SelectsByScore context a offset limit
        (scoredHits context a offset limit hits) ↔
      AnyOrderDoes context a offset limit
        (scoredHits context a offset limit hits) :=
  ⟨anyOrderDoes_of_selectsByScore hscore hread hstored hstream hnodup hanswer,
    selectsByScore_of_anyOrderDoes hscore hread hstored hstream hnodup hanswer⟩

/-! ## Five documents and a strategy -/

theorem showsHits_of_readHits {fuel : Nat} {it : DocIdSetIterator}
    {hits : List Hit} (h : readHits fuel it = some hits) : ShowsHits it hits := by
  induction fuel generalizing it hits with
  | zero => exact absurd h (by simp [readHits])
  | succ fuel ih =>
      rw [readHits] at h
      split at h
      · next hzero =>
          rw [← Option.some.inj h]
          exact .done hzero
      · next hne =>
          obtain ⟨next, hnext, h⟩ := Option.bind_eq_some_iff.1 h
          obtain ⟨rest, hrest, h⟩ := Option.bind_eq_some_iff.1 h
          rw [← Option.some.inj h]
          exact .next hne (Settles.of_extends (fun fuel =>
            DocIdSetIterator.call_extends fuel _) hnext) (ih hrest)

/-- What one amount of fuel reads off is the stream. -/
theorem streams_of_eval {context : SearchContext} {q : Query}
    {hits : List Hit} (fuel : Nat)
    (h : ((getScorer fuel context q {}).bind fun r => r.1.bind fun scorer =>
      (scorer.iterator fuel).bind (readHits fuel)) = some hits) :
    Streams context q hits := by
  obtain ⟨scorer, st, it, hscorer, hit, h⟩ := settles_of_eval fuel h
  exact ⟨scorer, st, it, hscorer, hit, showsHits_of_readHits h⟩

/-- The query for the term, with the id as the score. -/
def idScoreArgs : Searcher.QueryArgs Nat where
  query := .booleanQuery 3 (.term [97])
  scoreStrategyList := [fun document _ => some document.documentId.toNat]

/-- The five documents, each found in the field of the query. -/
def tiedHits : List Hit := [(5, 3), (4, 3), (3, 3), (2, 3), (1, 3)]

theorem tiedDocs_streams :
    Streams (quietContext spaceConfig millionOperator ⟨1, 2⟩ tiedDocs)
      idScoreArgs.query tiedHits :=
  streams_of_eval 30 (by decide +kernel)

theorem tiedDocs_readableStored :
    ReadableStored (quietContext spaceConfig millionOperator ⟨1, 2⟩ tiedDocs) :=
  @innerGetField_of_entries spaceConfig millionOperator ⟨1, 2⟩ tiedDocs
    .storedField (by decide +kernel)

theorem selectsByScore_iff_tiedDocs :
    SelectsByScore (quietContext spaceConfig millionOperator ⟨1, 2⟩ tiedDocs)
        idScoreArgs 0 5 (scoredHits (quietContext spaceConfig millionOperator
          ⟨1, 2⟩ tiedDocs) idScoreArgs 0 5 tiedHits) ↔
      AnyOrderDoes (quietContext spaceConfig millionOperator ⟨1, 2⟩ tiedDocs)
        idScoreArgs 0 5 (scoredHits (quietContext spaceConfig millionOperator
          ⟨1, 2⟩ tiedDocs) idScoreArgs 0 5 tiedHits) :=
  selectsByScore_iff (List.cons_ne_nil _ _) tiedDocs_readable
    tiedDocs_readableStored tiedDocs_streams (by decide) fun _ _ _ => rfl

/-- Some queue answers with another document than the one with the highest
score. -/
theorem best_of_tiedDocs_missed :
    Streams (quietContext spaceConfig millionOperator ⟨1, 2⟩ tiedDocs)
      idScoreArgs.query tiedHits ∧
    ¬ SelectsByScore (quietContext spaceConfig millionOperator ⟨1, 2⟩ tiedDocs)
        idScoreArgs 0 1 (scoredHits (quietContext spaceConfig millionOperator
          ⟨1, 2⟩ tiedDocs) idScoreArgs 0 1 tiedHits) := by
  refine ⟨tiedDocs_streams, fun h => ?_⟩
  have hdocs : scoredHits (quietContext spaceConfig millionOperator ⟨1, 2⟩
      tiedDocs) idScoreArgs 0 1 tiedHits = tiedHits := by decide +kernel
  have hscores : scoreOf (quietContext spaceConfig millionOperator ⟨1, 2⟩
      tiedDocs) idScoreArgs (5, 3) ≠ scoreOf (quietContext spaceConfig
        millionOperator ⟨1, 2⟩ tiedDocs) idScoreArgs (4, 3) := by decide +kernel
  have hany := anyOrderDoes_of_selectsByScore (List.cons_ne_nil _ _)
    tiedDocs_readable tiedDocs_readableStored tiedDocs_streams (by decide)
    (fun _ _ _ => rfl) h
  rw [hdocs] at hany
  rcases hany with hzero | ⟨-, hfull | hsame⟩
  · exact absurd hzero (by decide)
  · exact absurd hfull (by decide)
  · exact hscores (hsame (5, 3) (by decide) (4, 3) (by decide))

end Wwsearch.Spec
