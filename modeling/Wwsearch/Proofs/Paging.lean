import Mathlib.Data.Prod.Lex
import Wwsearch.Proofs.Collecting
import Wwsearch.Proofs.Fuel
import Wwsearch.Proofs.QueryTree

/-!
# When pages partition the result

A page is the end of a queue popped from the back, without the first `offset`
ids of it. Where no two matching documents tie, the queue of every page holds
the front of one and the same list, so the pages are windows in it
(`pages_of_noTies`). Where two of them tie, a queue may pop them in either
order, and it takes no more than two queues that differ in this for the law to
fail (`noTies_of_append`).

An ascending condition hands its ties on, at last to the ids, and there are no
ties among ids. So it takes a descending condition for two documents to tie,
and two documents with the same value in its field.
-/

namespace Wwsearch.Spec

open Wwsearch.Lib Wwsearch.Ref Wwsearch.Ref.TopNCollector

variable {σ : Type}

theorem strictWeak_sortsBefore (context : SearchContext)
    (a : Searcher.QueryArgs σ) : StrictWeak (sortsBefore context a) :=
  (strictWeak_sorter a.sorter).comap _

variable {context : SearchContext} {a : Searcher.QueryArgs σ}

theorem matching_desc {ids : List DocumentID}
    (hdesc : ids.Pairwise fun a b => b < a) :
    (matching context a ids).Pairwise fun a b => b < a :=
  hdesc.sublist (List.filter_sublist.trans (lookedAt_sublist context ids))

theorem nodup_of_desc {ids : List DocumentID}
    (hdesc : ids.Pairwise fun a b => b < a) : ids.Nodup :=
  hdesc.imp fun {x y} hxy (heq : x = y) =>
    absurd hxy (heq ▸ UInt64.lt_irrefl x)

theorem collectedLess_loaded (hread : ReadableDocValues context)
    {offset limit : UInt64} {x y : CollectedDocument σ}
    (hx : Loaded (pageParams context a offset limit) x)
    (hy : Loaded (pageParams context a offset limit) y) :
    sortsBefore context a (idOf x) (idOf y) = collectedLess a.sorter x y := by
  have hsorted : ∀ {z}, Loaded (pageParams context a offset limit) z →
      a.sorter = none ∨ z.document = docValues context (idOf z) := fun h => h
  rw [sortsBefore, collectedLess]
  by_cases hnone : a.sorter = none
  · rw [hnone, sorter, sorter, (hread _).2, (hread _).2]
    rfl
  · rw [(hsorted hx).resolve_left hnone, (hsorted hy).resolve_left hnone]

/-! ## One page -/

theorem dropByOffset_eq {ids : List DocumentID} (h : ids.Nodup) (offset : Nat) :
    dropByOffset offset ids = ids.drop offset := by
  induction offset generalizing ids with
  | zero => rw [dropByOffset, List.drop_zero]
  | succ offset ih =>
      cases ids with
      | nil => rw [dropByOffset, List.drop_nil]
      | cons d ids =>
          obtain ⟨hd, hids⟩ := List.nodup_cons.1 h
          have hfilter : ids.filter (· != d) = ids :=
            List.filter_eq_self.2 fun x hx => bne_iff_ne.2 fun hxd =>
              hd (hxd ▸ hx)
          rw [dropByOffset, hfilter, ih hids, List.drop_succ_cons]

theorem foldl_push_front (docs : List (CollectedDocument σ))
    (ids : List DocumentID) :
    docs.foldl (fun ids doc => doc.document.documentId :: ids) ids =
      docs.reverse.map idOf ++ ids := by
  induction docs generalizing ids with
  | nil => rfl
  | cons doc docs ih =>
      rw [List.foldl_cons, ih, List.reverse_cons, List.map_append,
        List.append_assoc]
      rfl

variable [LT σ] [DecidableLT σ]

theorem enough_ok {p : CollectorParams σ} {queues : CollectorQueues σ p.sorter}
    {c : TopNCollector queues} (h : enough p c = true)
    (hok : c.status.ok = true) :
    p.sorter = none ∧ c.topN.toNat ≤ queues.docs.size c.topNDocs ∧
      c.getMatchTotalCnt = none := by
  rw [enough, hok] at h
  cases hquick : p.quickTopN with
  | false =>
      rw [hquick] at h
      exact absurd h Bool.false_ne_true
  | true =>
      rw [hquick] at h
      obtain ⟨hsize, hnone⟩ := Bool.and_eq_true_iff.1 h
      exact ⟨Option.isNone_iff_eq_none.1 hquick, of_decide_eq_true hsize,
        Option.isNone_iff_eq_none.1 hnone⟩

variable [Zero σ] [Add σ]

/-- The collector at the end of a run over all ids, wherever the loop ended. -/
theorem finish_purged {p : CollectorParams σ}
    {queues : CollectorQueues σ p.sorter} {c₀ c : TopNCollector queues}
    {ids seen : List DocumentID} (hscore : p.useScoreStrategy = false)
    (hread : ReadableDocValues p.context)
    (hdesc : ids.Pairwise fun a b => b < a) (h : Collecting c₀ c seen)
    (hcounted : Counted c₀ c seen) (hok : c₀.status.ok = true)
    (hseen : seen <+: ids) (hend : seen = ids ∨ enough p c = true) :
    ∃ c', finish p c = some c' ∧ Purged p c' (lookedAt p.context ids) ∧
      c'.topN = c₀.topN ∧ c'.offset = c₀.offset ∧ c'.status = c₀.status ∧
      c'.getMatchTotalCnt =
        addHits p c₀.getMatchTotalCnt (lookedAt p.context ids) := by
  obtain ⟨c', hc', hcollecting, ⟨before, hbefore, htotal⟩, hempty, hpurged⟩ :=
    h.innerPurge hcounted hscore hread (hdesc.sublist hseen.sublist)
  rw [hempty, List.map_nil, List.append_nil] at hbefore
  rw [← hbefore] at htotal
  refine ⟨c', ?_, ?_, hcollecting.topN, hcollecting.offset,
    hcollecting.status, ?_⟩
  · rw [finish, hc', hscore]
    rfl
  · rcases hend with rfl | henough
    · exact hpurged
    -- the queue was full of ids that are greater than all that is to come
    obtain ⟨hsorter, hsize, -⟩ := enough_ok henough (by rw [h.status, hok])
    obtain ⟨before, ⟨hits₁, hids₁, -, hsel₁⟩, hbefore⟩ := h.purged
    obtain ⟨hits, hids, -, hsel⟩ := hpurged
    obtain ⟨more, hmore⟩ := lookedAt_prefix p.context hseen
    have hfull : (queues.docs.items c'.topNDocs).length = c'.topN.toNat := by
      obtain ⟨-, -, hlen₁, -⟩ := hsel₁
      obtain ⟨-, -, hlen, -⟩ := hsel
      have hgrow := congrArg List.length hids
      rw [hbefore, hitIds_append, ← hids₁, List.length_append, List.length_map,
        List.length_map] at hgrow
      rw [PriorityQueue.size, hlen₁] at hsize
      rw [hlen, hcollecting.topN, ← h.topN]
      omega
    have hextra : ((hitIds p more).map fun d =>
        (⟨docValues p.context d, 0, 0⟩ : CollectedDocument σ)).map idOf =
          hitIds p more := by
      rw [List.map_map]
      refine (List.map_congr_left fun d _ => ?_).trans (List.map_id _)
      exact (hread d).2
    have hall : (hits ++ (hitIds p more).map fun d =>
        (⟨docValues p.context d, 0, 0⟩ : CollectedDocument σ)).map idOf =
          hitIds p (lookedAt p.context ids) := by
      rw [List.map_append, hids, hextra, ← hitIds_append, hmore]
    refine ⟨_, hall, fun _ _ => .inl hsorter, hsel.skipAll hfull
      (sorted_of_descending hsorter ?_)⟩
    rw [hall]
    exact hdesc.sublist (List.filter_sublist.trans
      (lookedAt_sublist p.context ids))
  · rcases hend with rfl | henough
    · exact htotal
    -- there is no early end for a caller who counts
    obtain ⟨-, -, hnone⟩ := enough_ok henough (by rw [h.status, hok])
    have hnone₀ : c₀.getMatchTotalCnt = none := by
      rw [← Option.isNone_iff_eq_none, ← h.total, hnone]
      rfl
    rw [htotal, hnone₀]
    rfl

/-! ## What a query answers -/

variable {scorer : Scorer} {st : ContextState} {it : DocIdSetIterator}
  {ids : List DocumentID} (hscore : a.scoreStrategyList = [])
  (hread : ReadableDocValues context)
  (hscorer : Settles (fun fuel => getScorer fuel context a.query {})
    (some scorer, st))
  (hit : Settles (fun fuel => scorer.iterator fuel) it) (hshows : Shows it ids)
  (hdesc : ids.Pairwise fun a b => b < a)

/-- The collector that the call begins with. -/
def pageCollector (context : SearchContext) (a : Searcher.QueryArgs σ)
    (queues : CollectorQueues σ a.sorter) (offset limit : UInt64) :
    @TopNCollector σ _ _ (pageParams context a offset limit).sorter queues :=
  { topN := offset + limit, offset, getMatchTotalCnt := a.getMatchTotalCnt }

section Answers

variable {queues : CollectorQueues σ a.sorter} {offset limit : UInt64}

include hscorer hit

/-- The collector that a run of the loop and the end of it lead to. -/
theorem doQuery_of_run
    {c c' : @TopNCollector σ _ _ (pageParams context a offset limit).sorter
      queues}
    (hloop : Settles (fun fuel => Searcher.collectLoop
      (pageParams context a offset limit) fuel it
        (pageCollector context a queues offset limit)) c)
    (hfinish : finish (pageParams context a offset limit) c = some c')
    (docs : List DocumentID) :
    Settles (fun fuel => Searcher.doQuery fuel context a queues offset limit
      docs) (Searcher.queryResult (pageParams context a offset limit) st.status
        docs c') := by
  simp only [Searcher.doQuery]
  refine hscorer.bind (hit.bind (hloop.bind ?_))
  show Settles (fun _ => (finish (pageParams context a offset limit) c).bind
    fun c => some (Searcher.queryResult (pageParams context a offset limit)
      st.status docs c)) _
  rw [hfinish]
  exact Settles.pure _

end Answers

section Shown

include hscore hread hscorer hit hshows hdesc

/-- Every query is answered, with what the queue held at the end, and with the
status that the scorers left. -/
theorem doQuery_answers (queues : CollectorQueues σ a.sorter)
    (offset limit : UInt64) :
    ∃ q hits, hits.map idOf = matching context a ids ∧
      (∀ doc ∈ hits, Loaded (pageParams context a offset limit) doc) ∧
      Selects (collectedLess a.sorter) (offset + limit).toNat hits
        (queues.docs.items q) ∧
      Settles (fun fuel => Searcher.doQuery fuel context a queues offset limit
        []) ⟨if !st.status.ok then st.status else {},
          ((queues.docs.popped (offset + limit).toNat q).reverse.map
            idOf).drop offset.toNat, a.getMatchTotalCnt.map
              (· + (matching context a ids).length.toUInt32)⟩ := by
  let p := pageParams context a offset limit
  let c₀ := pageCollector context a queues offset limit
  have hstrategies : p.useScoreStrategy = false := by
    show (!a.scoreStrategyList.isEmpty) = false
    rw [hscore]
    rfl
  have hstart : Collecting (p := p) c₀ c₀ [] :=
    ⟨⟨[], ⟨[], rfl, fun _ h => absurd h List.not_mem_nil, by
        show Selects _ _ [] (queues.docs.items queues.docs.empty)
        rw [queues.docs.items_empty]
        exact Selects.nil⟩, by simp [lookedAt, c₀, pageCollector]⟩,
      fun _ h => absurd h List.not_mem_nil, rfl, rfl, rfl, rfl,
      by simp [lookedAt, c₀, pageCollector]⟩
  obtain ⟨c, seen, hloop, hcollecting, hcounted, hseen, hend⟩ :=
    Collecting.collectLoop (p := p) hshows hstart hstrategies hread hdesc
  obtain ⟨c', hc', ⟨hits, hids, hloaded, hsel⟩, htopN, hoffset, hstatus,
      htotal⟩ :=
    finish_purged (p := p) hstrategies hread hdesc hcollecting hcounted rfl
      hseen hend
  have htop : c'.topN = offset + limit := htopN
  rw [htop] at hsel
  have hnodup : ((queues.docs.popped (offset + limit).toNat
      c'.topNDocs).reverse.map idOf).Nodup := by
    have hperm := queues.docs.popped_perm hsel.length_le
    exact ((hsel.perm (hperm.symm.trans (List.reverse_perm _).symm)).nodup_map
      (hids ▸ nodup_of_desc (matching_desc hdesc)))
  have hresult : Searcher.queryResult p st.status [] c' =
      ⟨if !st.status.ok then st.status else {},
        ((queues.docs.popped (offset + limit).toNat
          c'.topNDocs).reverse.map idOf).drop offset.toNat,
        a.getMatchTotalCnt.map
          (· + (matching context a ids).length.toUInt32)⟩ := by
    have htotal' : c'.getMatchTotalCnt = a.getMatchTotalCnt.map
        (· + (matching context a ids).length.toUInt32) := htotal
    have hoffset' : c'.offset = offset := hoffset
    have hdocs : getAndClearMatchDocs p c' [] = _ :=
      congrArg (dropByOffset c'.offset.toNat) (foldl_push_front
        (queues.docs.popped c'.topN.toNat c'.topNDocs) [])
    have hok : (!c'.status.ok) = false := by
      rw [hstatus]
      rfl
    refine (if_neg (Bool.eq_false_iff.1 hok)).trans ?_
    rw [hdocs, List.append_nil, htop, hoffset', dropByOffset_eq hnodup, htotal']
  refine ⟨c'.topNDocs, hits, hids, hloaded, hsel, ?_⟩
  rw [← hresult]
  exact doQuery_of_run hscorer hit hloop hc' []

/-- The same without the status. -/
theorem doQuery_of_shows (queues : CollectorQueues σ a.sorter)
    (offset limit : UInt64) :
    ∃ status q hits, hits.map idOf = matching context a ids ∧
      (∀ doc ∈ hits, Loaded (pageParams context a offset limit) doc) ∧
      Selects (collectedLess a.sorter) (offset + limit).toNat hits
        (queues.docs.items q) ∧
      Settles (fun fuel => Searcher.doQuery fuel context a queues offset limit
        []) ⟨status, ((queues.docs.popped (offset + limit).toNat
          q).reverse.map idOf).drop offset.toNat, a.getMatchTotalCnt.map
            (· + (matching context a ids).length.toUInt32)⟩ := by
  obtain ⟨q, hits, hids, hloaded, hsel, h⟩ := doQuery_answers hscore hread
    hscorer hit hshows hdesc queues offset limit
  exact ⟨_, q, hits, hids, hloaded, hsel, h⟩

/-- Every page is what the queue held at the end. -/
theorem page_of_shows (queues : CollectorQueues σ a.sorter)
    (offset limit : UInt64) :
    ∃ q hits, hits.map idOf = matching context a ids ∧
      (∀ doc ∈ hits, Loaded (pageParams context a offset limit) doc) ∧
      Selects (collectedLess a.sorter) (offset + limit).toNat hits
        (queues.docs.items q) ∧
      Page context a queues offset limit (((queues.docs.popped
        (offset + limit).toNat q).reverse.map idOf).drop offset.toNat) := by
  obtain ⟨status, q, hits, hids, hloaded, hsel, h⟩ := doQuery_of_shows hscore
    hread hscorer hit hshows hdesc queues offset limit
  exact ⟨q, hits, hids, hloaded, hsel, status, _, h⟩

end Shown

theorem Page.unique {queues : CollectorQueues σ a.sorter}
    {offset limit : UInt64} {ids ids' : List DocumentID}
    (h : Page context a queues offset limit ids)
    (h' : Page context a queues offset limit ids') : ids = ids' := by
  obtain ⟨_, _, h⟩ := h
  obtain ⟨_, _, h'⟩ := h'
  exact congrArg Searcher.QueryResult.docs (h.unique h')

/-! ## Without ties: windows in one list -/

section Windows

include hscore hread hscorer hit hshows hdesc

/-- The answer is a window in the sorted list. -/
theorem doQuery_window (hties : NoTies (sortsBefore context a)
      (matching context a ids)) {s : List DocumentID}
    (hs : s.Perm (matching context a ids))
    (hsorted : Sorted (sortsBefore context a) s)
    (queues : CollectorQueues σ a.sorter) {o n : UInt64}
    (hfit : o.toNat + n.toNat < 2 ^ 64) :
    ∃ status, Settles
      (fun fuel => Searcher.doQuery fuel context a queues o n [])
      ⟨status, (s.drop o.toNat).take n.toNat, a.getMatchTotalCnt.map
        (· + (matching context a ids).length.toUInt32)⟩ := by
  obtain ⟨status, q, hits, hids, hloaded, hsel, hpage⟩ :=
    doQuery_of_shows hscore hread hscorer hit hshows hdesc queues o n
  have hweak : StrictWeakOn (collectedLess a.sorter) (queues.docs.items q) :=
    ((strictWeak_sorter a.sorter).comap _).on _
  have hperm := queues.docs.popped_perm hsel.length_le
  have hpopped := hsel.perm (hperm.symm.trans (List.reverse_perm _).symm)
  have hless : ∀ x ∈ hits, ∀ y ∈ hits, sortsBefore context a (idOf x)
      (idOf y) = collectedLess a.sorter x y := fun x hx y hy =>
    collectedLess_loaded hread (hloaded x hx) (hloaded y hy)
  have horder : Sorted (sortsBefore context a) ((queues.docs.popped
      (o + n).toNat q).reverse.map idOf) := by
    refine List.pairwise_map.2 ((queues.docs.popped_sorted
      hweak).imp_of_mem fun {x y} hx hy hxy => ?_)
    rw [hless y (hpopped.subset hy) x (hpopped.subset hx)]
    exact hxy
  have hsel' := @Selects.map _ _ _ _ _ _ idOf (sortsBefore context a) hpopped
    hless
  rw [hids] at hsel'
  rw [hsel'.eq_take (listQueue _) ((strictWeak_sortsBefore context a).on _)
    hties horder hs hsorted, UInt64.toNat_add, Nat.mod_eq_of_lt hfit,
    List.drop_take, Nat.add_sub_cancel_left] at hpage
  exact ⟨status, hpage⟩

/-- A page is a window in the sorted list. -/
theorem page_window (hties : NoTies (sortsBefore context a)
      (matching context a ids)) {s : List DocumentID}
    (hs : s.Perm (matching context a ids))
    (hsorted : Sorted (sortsBefore context a) s)
    (queues : CollectorQueues σ a.sorter) {o n : UInt64}
    (hfit : o.toNat + n.toNat < 2 ^ 64) :
    Page context a queues o n ((s.drop o.toNat).take n.toNat) := by
  obtain ⟨status, h⟩ := doQuery_window hscore hread hscorer hit hshows hdesc
    hties hs hsorted queues hfit
  exact ⟨status, _, h⟩

/-- Windows that meet are a window, and all of them are the list. -/
theorem pages_of_noTies (hties : NoTies (sortsBefore context a)
    (matching context a ids)) :
    PagesPartition context a (matching context a ids) := by
  obtain ⟨s, hs, hsorted⟩ := (listQueue _).exists_sorted
    ((strictWeak_sortsBefore context a).on (matching context a ids))
  have hpage := fun queues {o n} => page_window hscore hread hscorer hit hshows
    hdesc hties hs hsorted queues (o := o) (n := n)
  constructor
  · intro queues₁ queues₂ queues₃ o n m hfit
    have hon : (o + n).toNat = o.toNat + n.toNat := by
      rw [UInt64.toNat_add]
      omega
    have hnm : (n + m).toNat = n.toNat + m.toNat := by
      rw [UInt64.toNat_add]
      omega
    refine ⟨_, _, _, hpage queues₁ (by omega), hpage queues₂ (by omega),
      hpage queues₃ (by omega), ?_⟩
    rw [hon, hnm, List.take_add, List.drop_drop]
  · intro queues n k hfit hall
    have hwalk : ∀ k, (List.range k).flatMap (fun i =>
        (s.drop (i * n)).take n) = s.take (k * n) := by
      intro k
      induction k with
      | zero => simp
      | succ k ih =>
          rw [List.range_succ, List.flatMap_append, ih, Nat.succ_mul,
            List.take_add]
          simp
    refine ⟨fun i => (s.drop (i * n)).take n, fun i hi => ?_, ?_⟩
    · have hin : i * n + n ≤ k * n := by
        rw [← Nat.succ_mul]
        exact Nat.mul_le_mul_right n hi
      have hto : (UInt64.ofNat (i * n)).toNat = i * n :=
        UInt64.toNat_ofNat_of_lt' (show _ < 2 ^ 64 by omega)
      have hton : (UInt64.ofNat n).toNat = n :=
        UInt64.toNat_ofNat_of_lt' (show _ < 2 ^ 64 by omega)
      have h := hpage (queues i) (o := UInt64.ofNat (i * n))
        (n := UInt64.ofNat n) (by omega)
      rw [hto, hton] at h
      exact h
    · rw [hwalk, List.take_of_length_le (hs.length_eq ▸ hall)]
      exact ⟨hs, hs.nodup_iff.2 (nodup_of_desc (matching_desc hdesc))⟩

end Windows

/-! ## With ties: two queues -/

/-- A queue that breaks the ties by `tie`. -/
def tieQueues (sortCondictions : Option (List SortCondition))
    {tie : DocumentID → DocumentID → Bool} (htie : StrictWeak tie) :
    CollectorQueues σ sortCondictions where
  docs := (listQueue (lexLess (collectedLess sortCondictions) fun x y =>
    tie (idOf x) (idOf y))).refine
      (((strictWeak_sorter sortCondictions).comap _).lex (htie.comap idOf))
      lexLess_of_first
  scores := listQueue postScorer

theorem Shows.ne_zero {it : DocIdSetIterator} {ids : List DocumentID}
    (h : Shows it ids) : ∀ d ∈ ids, d ≠ 0 := by
  induction h with
  | done => exact fun d hd => absurd hd List.not_mem_nil
  | next hne _ _ ih =>
      intro d hd
      rcases List.mem_cons.1 hd with rfl | hd
      · exact hne
      · exact ih d hd

theorem length_le_of_desc {ids : List DocumentID}
    (hdesc : ids.Pairwise fun a b => b < a) (hne : ∀ d ∈ ids, d ≠ 0) {b : Nat}
    (hb : ∀ d ∈ ids, d.toNat ≤ b) : ids.length ≤ b := by
  induction ids generalizing b with
  | nil => exact Nat.zero_le b
  | cons d ids ih =>
      obtain ⟨hd, hids⟩ := List.pairwise_cons.1 hdesc
      have hpos : d.toNat ≠ 0 := fun h =>
        hne d List.mem_cons_self (UInt64.toNat_inj.1 h)
      have hrest := ih hids (fun x hx => hne x (List.mem_cons_of_mem d hx))
        (b := d.toNat - 1) fun x hx => Nat.le_sub_one_of_lt
          (UInt64.lt_iff_toNat_lt.1 (hd x hx))
      have hdb := hb d List.mem_cons_self
      rw [List.length_cons]
      omega

section Ties

include hscore hread hscorer hit hshows hdesc

/-- The page of everything, with the ties broken. -/
theorem page_all {tie : DocumentID → DocumentID → Bool} (htie : StrictWeak tie)
    {n : UInt64} (hn : (matching context a ids).length ≤ n.toNat) :
    ∃ l, l.Perm (matching context a ids) ∧
      Sorted (lexLess (sortsBefore context a) tie) l ∧
      Page context a (tieQueues a.sorter htie) 0 n l := by
  obtain ⟨q, hits, hids, hloaded, hsel, hpage⟩ :=
    page_of_shows hscore hread hscorer hit hshows hdesc
      (tieQueues a.sorter htie) 0 n
  have hzero : (0 : UInt64) + n = n := UInt64.zero_add n
  rw [hzero] at hsel hpage
  have hall : ((tieQueues a.sorter htie).docs.popped n.toNat q).reverse.Perm
      hits := by
    have hlen : hits.length ≤ n.toNat := by
      rw [← List.length_map (f := idOf), hids]
      exact hn
    exact (List.reverse_perm _).trans (((tieQueues a.sorter
      htie).docs.popped_perm hsel.length_le).trans (hsel.perm_of_le hlen))
  refine ⟨_, hids ▸ hall.map idOf, ?_, hpage⟩
  have hsorted : Sorted (lexLess (collectedLess a.sorter) fun x y =>
      tie (idOf x) (idOf y))
      ((tieQueues a.sorter htie).docs.popped n.toNat q).reverse :=
    PriorityQueue.refine_sorted (listQueue _) (((strictWeak_sorter
      a.sorter).comap _).lex (htie.comap idOf)) lexLess_of_first n.toNat q
  refine List.pairwise_map.2 (hsorted.imp_of_mem fun {x y} hx hy hxy => ?_)
  have hx := hloaded x (hall.subset hx)
  have hy := hloaded y (hall.subset hy)
  rw [lexLess, collectedLess_loaded hread hy hx,
    collectedLess_loaded hread hx hy]
  exact hxy

/-- If the pages meet whatever the queues are, nothing ties. -/
theorem noTies_of_append
    (h : PagesPartition context a (matching context a ids)) :
    NoTies (sortsBefore context a) (matching context a ids) := by
  have hmatch := @matching_desc σ context a _ hdesc
  have hlen : (matching context a ids).length ≤ 2 ^ 64 - 1 :=
    length_le_of_desc hmatch (fun d hd => hshows.ne_zero d
      ((List.filter_sublist.trans (lookedAt_sublist context ids)).subset hd))
      fun d _ => Nat.le_sub_one_of_lt d.toNat_lt
  obtain ⟨n, hnlen⟩ : ∃ n : UInt64,
      n.toNat = (matching context a ids).length := by
    refine ⟨UInt64.ofNat (matching context a ids).length, ?_⟩
    exact UInt64.toNat_ofNat_of_lt' (show _ < 2 ^ 64 by omega)
  have hup : StrictWeak fun d₁ d₂ : DocumentID => decide (d₁ < d₂) :=
    strictWeak_gt.swap
  obtain ⟨l₁, hperm₁, hsorted₁, hpage₁⟩ := page_all hscore hread hscorer hit
    hshows hdesc hup (Nat.le_of_eq hnlen.symm)
  obtain ⟨l₃, hperm₃, hsorted₃, hpage₃⟩ := page_all hscore hread hscorer hit
    hshows hdesc strictWeak_gt (Nat.le_of_eq hnlen.symm)
  -- the empty page and the page of everything, answered by the one queue,
  -- against the page of everything from the other
  obtain ⟨ids₁, ids₂, ids₃, hids₁, hids₂, hids₃, happ⟩ :=
    h.append (tieQueues a.sorter hup) (tieQueues a.sorter hup)
      (tieQueues a.sorter strictWeak_gt) 0 0 n (by
        have h0 : (0 : UInt64).toNat = 0 := rfl
        omega)
  rw [UInt64.zero_add] at hids₂ hids₃
  obtain ⟨q, -, -, -, -, hnil⟩ := page_of_shows hscore hread hscorer hit hshows
    hdesc (tieQueues a.sorter hup) 0 0
  have hsame : l₁ = l₃ := by
    rw [hpage₁.unique hids₂, hpage₃.unique hids₃, ← happ, hids₁.unique hnil]
    rfl
  rw [← hsame] at hsorted₃
  refine NoTies.perm ?_ hperm₁
  have hnodup := hperm₁.nodup_iff.2 (nodup_of_desc hmatch)
  refine (hsorted₁.and (hsorted₃.and hnodup)).imp fun {x y} hxy => ?_
  obtain ⟨h₁, h₃, hne⟩ := hxy
  obtain ⟨hyx, h₁⟩ := Bool.or_eq_false_iff.1 h₁
  obtain ⟨-, h₃⟩ := Bool.or_eq_false_iff.1 h₃
  refine .inl ?_
  cases hbefore : sortsBefore context a x y with
  | true => rfl
  | false =>
      rw [hbefore] at h₁ h₃
      exact absurd (UInt64.le_antisymm
        (UInt64.not_lt.1 (of_decide_eq_false h₁))
        (UInt64.not_lt.1 (of_decide_eq_false h₃))) hne

end Ties

/-! ## The law of pages -/

/-- On a database that can be read, for any query, filters and sort conditions
and without score strategies: the pages partition the matching documents
exactly when no two of them tie. -/
theorem pages_partition_iff (config : IndexConfig) (op : DocListMergeOperator)
    (table : TableID) (db : VirtualDB) (hdb : ReadableIndex op db)
    (hread : ReadableDocValues (quietContext config op table db))
    (a : Searcher.QueryArgs σ) (hscore : a.scoreStrategyList = []) :
    ∃ ids, Enumerates (quietContext config op table db) a.query ids ∧
      (PagesPartition (quietContext config op table db) a
          (matching (quietContext config op table db) a ids) ↔
        NoTies (sortsBefore (quietContext config op table db) a)
          (matching (quietContext config op table db) a ids)) := by
  obtain ⟨set, hscores⟩ := @getScorer_scores_some config op table db hdb
    a.query
  obtain ⟨scorer, st, it, start, hscorer, hit, hstart, -⟩ := hscores {}
  obtain ⟨n, hstand⟩ := hstart.standing
  obtain ⟨ids, hshows, hdesc, -⟩ := hstand.shows
  refine ⟨ids, ⟨scorer, st, it, hscorer, hit, hshows.enumerate⟩,
    fun h => noTies_of_append hscore hread hscorer hit hshows hdesc h,
    fun h => pages_of_noTies hscore hread hscorer hit hshows hdesc h⟩

/-- Where every record of the column can be read, so can every document. -/
theorem innerGetField_of_entries {config : IndexConfig}
    {op : DocListMergeOperator} {table : TableID} {db : VirtualDB}
    {mode : EncodeTarget} (h : (db (Searcher.fieldsColumn mode)).toList.all
      (readableDocValue config op table) = true) (d : DocumentID) :
    ((Searcher.innerGetField config {} op table db mode
        { documentId := d }).1.ok ∨
      (Searcher.innerGetField config {} op table db mode
        { documentId := d }).1.documentNotExist) ∧
    (Searcher.innerGetField config {} op table db mode
      { documentId := d }).2.documentId = d := by
  rw [Searcher.innerGetField]
  cases hget : db.get op (Searcher.fieldsColumn mode)
      (encodeStoredFieldKey table d) with
  | none =>
      simp only [VirtualDB.getStatus, hget]
      exact ⟨.inr rfl, rfl⟩
  | some value =>
      obtain ⟨cell, hcell, hvalue⟩ := Option.bind_eq_some_iff.1 hget
      have hentry := List.all_eq_true.1 h _
        (Std.ExtTreeMap.mem_toList_iff_getElem?_eq_some.2 hcell)
      simp only [readableDocValue, hvalue] at hentry
      cases hdoc : Document.deSerializeFromByte config.pb {} value with
      | none =>
          rw [hdoc] at hentry
          exact absurd hentry Bool.false_ne_true
      | some doc =>
          have hdoc' : Document.deSerializeFromByte config.pb
              { documentId := d } value = some doc := hdoc
          rw [hdoc] at hentry
          simp only [VirtualDB.getStatus, hget, hdoc']
          exact ⟨.inl rfl, encodeStoredFieldKey_inj (beq_iff_eq.1 hentry)⟩

theorem readableDocValues_of_entries {config : IndexConfig}
    {op : DocListMergeOperator} {table : TableID} {db : VirtualDB}
    (h : (db .docValueColumn).toList.all (readableDocValue config op table) =
      true) : ReadableDocValues (quietContext config op table db) :=
  @innerGetField_of_entries config op table db .docValue h

/-! ## Five documents with one value -/

/-- What a single descending condition compares. -/
def descKey (f : FieldID) (doc : CollectedDocument Nat) : ℕ ×ₗ ℕ :=
  match (doc.document.findField f).bind numericSortValue with
  | some v => toLex (0, 2 ^ 64 - v.toNat)
  | none => toLex (1, 2 ^ 64 - doc.document.documentId.toNat)

theorem collectedLess_iff_descKey (f : FieldID) (x y : CollectedDocument Nat) :
    collectedLess (some [.numeric f .desc]) x y = true ↔
      descKey f x < descKey f y := by
  have hx := x.document.documentId.toNat_lt
  have hy := y.document.documentId.toNat_lt
  rw [collectedLess, sorter, sorterLoop_desc rfl]
  show Ref.innerGreater numericSortValue _ _ _ _ _ = true ↔ _
  rw [innerGreater, descKey, descKey]
  simp only [SortCondition.fieldId]
  cases (x.document.findField f).bind numericSortValue with
  | none =>
      cases (y.document.findField f).bind numericSortValue with
      | none =>
          simp only [decide_eq_true_eq, UInt64.lt_iff_toNat_lt,
            Prod.Lex.toLex_lt_toLex, lt_self_iff_false, false_or, true_and]
          omega
      | some w => simp [Prod.Lex.toLex_lt_toLex]
  | some v =>
      cases (y.document.findField f).bind numericSortValue with
      | none => simp [Prod.Lex.toLex_lt_toLex]
      | some w =>
          have hv := v.toNat_lt
          have hw := w.toNat_lt
          simp only [decide_eq_true_eq, UInt64.lt_iff_toNat_lt,
            Prod.Lex.toLex_lt_toLex, lt_self_iff_false, false_or, true_and]
          omega

instance instInhabitedCollectedDocument :
    Inhabited (CollectedDocument Nat) := ⟨⟨{}, 0, 0⟩⟩

/-- Binary heaps, for field 4 descending. -/
def heapQueues : CollectorQueues Nat (some [.numeric 4 .desc]) where
  docs := heapQueue (descKey 4) (collectedLess_iff_descKey 4)
  scores := listQueue postScorer

/-- The doc-value record of a document with 7 in field 4. -/
def sevenRecord (d : DocumentID) : Bytes :=
  let field : IndexField :=
    { fieldId := 4, flag := ⟨4⟩, fieldType := kUint64IndexField
      numericValue := 7 }
  (({ documentId := d, fields := [field] } : Document).serializeToBytes
    spaceConfig.pb .docValue).elim [] (·.1)

/-- The documents 5 to 1 in the list of one term, each with its record. -/
def tiedDocs : VirtualDB := VirtualDB.empty.applyAll
  (.put .invertedIndexColumn (encodeInvertedKey ⟨1, 2⟩ 3 [97])
      (0 :: [5, 4, 3, 2, 1].flatMap fun b => [b, 0, 0, 0, 0, 0, 0, 0, 0]) ::
    [5, 4, 3, 2, 1].map fun d =>
      .put .docValueColumn (encodeStoredFieldKey ⟨1, 2⟩ d) (sevenRecord d))

/-- The query for the term, by field 4 descending. -/
def descArgs : Searcher.QueryArgs Nat where
  query := .booleanQuery 3 (.term [97])
  sorter := some [.numeric 4 .desc]

theorem pages_partition_iff_tiedDocs :
    ∃ ids, Enumerates (quietContext spaceConfig millionOperator ⟨1, 2⟩
        tiedDocs) descArgs.query ids ∧
      (PagesPartition (quietContext spaceConfig millionOperator ⟨1, 2⟩
          tiedDocs) descArgs (matching (quietContext spaceConfig
            millionOperator ⟨1, 2⟩ tiedDocs) descArgs ids) ↔
        NoTies (sortsBefore (quietContext spaceConfig millionOperator ⟨1, 2⟩
          tiedDocs) descArgs) (matching (quietContext spaceConfig
            millionOperator ⟨1, 2⟩ tiedDocs) descArgs ids)) :=
  pages_partition_iff spaceConfig millionOperator ⟨1, 2⟩ tiedDocs
    (readableIndex_of_entries (by decide +kernel))
    (readableDocValues_of_entries (by decide +kernel)) descArgs rfl

/-- The second page begins with the document that the first one ends with. -/
theorem pages_overlap_tiedDocs :
    ∃ ids₁ ids₂ ids₃,
      Page (quietContext spaceConfig millionOperator ⟨1, 2⟩ tiedDocs) descArgs
        heapQueues 0 2 ids₁ ∧
      Page (quietContext spaceConfig millionOperator ⟨1, 2⟩ tiedDocs) descArgs
        heapQueues (0 + 2) 1 ids₂ ∧
      Page (quietContext spaceConfig millionOperator ⟨1, 2⟩ tiedDocs) descArgs
        heapQueues 0 (2 + 1) ids₃ ∧
      ids₁ ++ ids₂ ≠ ids₃ ∧ ¬ (ids₁ ++ ids₂).Nodup :=
  ⟨[4, 1], [1], [4, 3, 1],
    ⟨{}, none, Searcher.doQuery_settles 30 (by decide +kernel)⟩,
    ⟨{}, none, Searcher.doQuery_settles 30 (by decide +kernel)⟩,
    ⟨{}, none, Searcher.doQuery_settles 30 (by decide +kernel)⟩,
    by decide, by decide⟩

end Wwsearch.Spec
