import Wwsearch.Spec.Paging
import Wwsearch.Spec.Paging
import Wwsearch.Proofs.IteratorProtocol

/-!
# The loop of the collector

`Collect` does one of three things: it takes a hit into the buffer, it takes a
hit that fills the buffer and empties it, or, past the total limit, it only
empties the buffer. A property of the collector and the hits that it took is
kept by the whole loop if it is kept by these (`CollectKeeps.run`); the limit, the
count of the hits and the iterator do not come up in it any more.
-/

namespace Wwsearch.Spec

open Wwsearch.Lib Wwsearch.Ref Wwsearch.Ref.TopNCollector
open Wwsearch.Ref.DocIdSetIterator (call)

/-! ## The hits -/

theorem Shows.hits {it : DocIdSetIterator} {ids : List DocumentID}
    (h : Shows it ids) : ∃ hits, ShowsHits it hits ∧ hits.map Prod.fst = ids := by
  induction h with
  | done hzero => exact ⟨[], .done hzero, rfl⟩
  | next hne hnext _ ih =>
      obtain ⟨hits, hhits, rfl⟩ := ih
      exact ⟨_, .next hne hnext hhits, rfl⟩

theorem ShowsHits.shows {it : DocIdSetIterator} {hits : List Hit}
    (h : ShowsHits it hits) : Shows it (hits.map Prod.fst) := by
  induction h with
  | done hzero => exact .done hzero
  | next hne hnext _ ih => exact .next hne hnext ih

theorem lookedAt_map (context : SearchContext) (hits : List Hit) :
    lookedAt context (hits.map Prod.fst) =
      (hitsLookedAt context hits).map Prod.fst := by
  simp only [lookedAt, hitsLookedAt]
  split
  · rfl
  · exact List.map_take.symm

theorem hitsLookedAt_isPrefix (context : SearchContext) (hits : List Hit) :
    hitsLookedAt context hits <+: hits := by
  simp only [hitsLookedAt]
  split
  · exact List.prefix_rfl
  · exact List.take_prefix _ _

theorem hitsLookedAt_mono (context : SearchContext) {hits hits' : List Hit}
    (h : hits <+: hits') :
    hitsLookedAt context hits <+: hitsLookedAt context hits' := by
  simp only [hitsLookedAt]
  split
  · exact h
  · obtain ⟨rest, rfl⟩ := h
    rw [List.take_append]
    exact List.prefix_append _ _

/-- What is looked at is looked at in full. -/
theorem hitsLookedAt_of_prefix {context : SearchContext} {taken hits : List Hit}
    (h : taken <+: hitsLookedAt context hits) :
    hitsLookedAt context taken = taken := by
  simp only [hitsLookedAt] at h ⊢
  split at h
  · next hmax => rw [if_pos hmax]
  · next hmax =>
      rw [if_neg hmax]
      exact List.take_of_length_le
        (h.length_le.trans ((List.length_take_le _ _)))

/-- One more hit, where the limit was passed before, and where it was not. -/
theorem hitsLookedAt_concat (context : SearchContext) (hits : List Hit)
    (x : Hit) :
    (context.config.maxInnerPurgeDocsTotalLimit <
        (hitsLookedAt context hits).length.toUInt32 ∧
      ∀ rest, hitsLookedAt context (hits ++ rest) =
        hitsLookedAt context hits) ∨
    (¬ context.config.maxInnerPurgeDocsTotalLimit <
        (hitsLookedAt context hits).length.toUInt32 ∧
      hitsLookedAt context (hits ++ [x]) = hitsLookedAt context hits ++ [x]) := by
  unfold hitsLookedAt
  generalize context.config.maxInnerPurgeDocsTotalLimit = limit
  by_cases hmax : limit = 0xFFFFFFFF
  · simp only [hmax, if_true]
    refine .inr ⟨fun hlt => ?_, trivial⟩
    have hle := UInt32.toNat_lt (List.length hits).toUInt32
    have hlt := UInt32.lt_iff_toNat_lt.1 hlt
    have hval : (0xFFFFFFFF : UInt32).toNat = 2 ^ 32 - 1 := rfl
    omega
  · simp only [hmax, if_false]
    have hlimit : limit.toNat < 2 ^ 32 - 1 := by
      have hle := limit.toNat_lt
      have hne : limit.toNat ≠ (0xFFFFFFFF : UInt32).toNat :=
        fun h => hmax (UInt32.toNat_inj.1 h)
      have hval : (0xFFFFFFFF : UInt32).toNat = 2 ^ 32 - 1 := rfl
      omega
    have hcount : (hits.take (limit.toNat + 1)).length.toUInt32.toNat =
        min (limit.toNat + 1) hits.length := by
      rw [List.length_take]
      exact UInt32.toNat_ofNat_of_lt' (by
        show min (limit.toNat + 1) hits.length < 2 ^ 32
        omega)
    rw [UInt32.lt_iff_toNat_lt, hcount]
    rcases Nat.lt_or_ge limit.toNat hits.length with hlt | hge
    · refine .inl ⟨by omega, fun rest => ?_⟩
      rw [List.take_append_of_le_length (by omega)]
    · refine .inr ⟨by omega, ?_⟩
      rw [List.take_of_length_le (by simp; omega),
        List.take_of_length_le (by omega)]

/-! ## One hit -/

variable {σ : Type} {p : CollectorParams σ} [LT σ] [DecidableLT σ]
  {queues : CollectorQueues σ p.sorter}

section Purge

theorem handleScored_leaves (c : TopNCollector queues)
    (docs : List (CollectedDocument σ)) :
    (docs.foldl (handleScored p) c).innerPurgeTotalDocsCount =
        c.innerPurgeTotalDocsCount ∧
      (docs.foldl (handleScored p) c).bufferDocs = c.bufferDocs := by
  induction docs generalizing c with
  | nil => exact ⟨rfl, rfl⟩
  | cons doc docs ih =>
      obtain ⟨hcount, hbuffer⟩ := ih (handleScored p c doc)
      rw [List.foldl_cons, hcount, hbuffer, handleScored]
      split_ifs <;> exact ⟨rfl, rfl⟩

variable [Add σ]

/-- A purge does not count, and leaves the buffer empty. -/
theorem innerPurge_leaves {c c' : TopNCollector queues}
    (h : innerPurge p c = some c') :
    c'.innerPurgeTotalDocsCount = c.innerPurgeTotalDocsCount ∧
      c'.bufferDocs = [] := by
  rw [innerPurge] at h
  split at h
  · next hempty =>
      rw [← Option.some.inj h]
      exact ⟨rfl, List.isEmpty_iff.1 hempty⟩
  · split at h
    · rw [← Option.some.inj h]
      exact ⟨rfl, rfl⟩
    · dsimp only at h
      split at h
      · rw [← Option.some.inj h]
        exact ⟨rfl, rfl⟩
      · split at h
        · rw [scoreHits] at h
          split at h
          · obtain ⟨scored, -, h⟩ := Option.bind_eq_some_iff.1 h
            rw [← Option.some.inj h]
            exact ⟨rfl, rfl⟩
          · rw [← Option.some.inj h]
            exact handleScored_leaves _ _
        · rw [← Option.some.inj h]
          exact ⟨rfl, rfl⟩

end Purge

variable [Zero σ]

/-- The collector with one more hit in its buffer. -/
def buffered (c : TopNCollector queues) (x : Hit) : TopNCollector queues :=
  { c with
    bufferDocs := c.bufferDocs ++ [⟨{ documentId := x.1 }, x.2, 0⟩]
    innerPurgeTotalDocsCount := c.innerPurgeTotalDocsCount + 1 }

/-- The buffer has a batch. -/
def Full (c : TopNCollector queues) : Prop :=
  p.context.config.maxInnerPurgeBatchDocsCount.toNat ≤ c.bufferDocs.length

variable [Add σ]

/-- The loop of `DoQuery` is over. -/
theorem collectLoop_ends {it : DocIdSetIterator} {c : TopNCollector queues}
    (h : it.docID = noMoreDocs ∨ enough p c = true) :
    Settles (fun fuel => Searcher.collectLoop p fuel it c) c := by
  refine Settles.succ ?_
  have hstep : (fun fuel => Searcher.collectLoop p (fuel + 1) it c) =
      fun _ => some c := by
    funext fuel
    rw [Searcher.collectLoop, if_neg fun hgo => h.elim hgo.1 fun henough =>
      Bool.false_ne_true (hgo.2.symm.trans henough)]
  rw [hstep]
  exact Settles.pure c

/-- What `Collect` does keeps the property, of the collector and the hits it
took. -/
structure CollectKeeps (all : List Hit)
    (J : TopNCollector queues → List Hit → Prop) : Prop where
  add : ∀ {c taken x}, taken ++ [x] <+: hitsLookedAt p.context all →
    J c taken → ¬ Full (buffered c x) → J (buffered c x) (taken ++ [x])
  batch : ∀ {c taken x}, taken ++ [x] <+: hitsLookedAt p.context all →
    J c taken → Full (buffered c x) →
    ∃ c', innerPurge p (buffered c x) = some c' ∧ J c' (taken ++ [x])
  last : ∀ {c}, J c (hitsLookedAt p.context all) →
    ∃ c', innerPurge p c = some c' ∧ J c' (hitsLookedAt p.context all)

namespace CollectKeeps

variable {all : List Hit} {J : TopNCollector queues → List Hit → Prop}

theorem collect (h : CollectKeeps all J) {c : TopNCollector queues}
    {seen : List Hit} {x : Hit} (hall : seen ++ [x] <+: all)
    (hJ : J c (hitsLookedAt p.context seen))
    (hcount : c.innerPurgeTotalDocsCount =
      (hitsLookedAt p.context seen).length.toUInt32) :
    ∃ c', TopNCollector.collect p c x.1 x.2 = some c' ∧
      J c' (hitsLookedAt p.context (seen ++ [x])) ∧
      c'.innerPurgeTotalDocsCount =
        (hitsLookedAt p.context (seen ++ [x])).length.toUInt32 := by
  rw [TopNCollector.collect, hcount]
  rcases hitsLookedAt_concat p.context seen x with ⟨hlt, heq⟩ | ⟨hlt, heq⟩
  · obtain ⟨rest, hrest⟩ := (List.prefix_append seen [x]).trans hall
    have hend : hitsLookedAt p.context all = hitsLookedAt p.context seen := by
      rw [← hrest, heq]
    obtain ⟨c', hc', hJ'⟩ := h.last (hend ▸ hJ)
    refine ⟨c', (if_pos hlt).trans hc', ?_, ?_⟩
    · rw [heq, ← hend]
      exact hJ'
    · rw [heq, (innerPurge_leaves hc').1, hcount]
  · have hpre := hitsLookedAt_mono p.context hall
    rw [heq] at hpre ⊢
    have hlen : (buffered c x).innerPurgeTotalDocsCount =
        (hitsLookedAt p.context seen ++ [x]).length.toUInt32 := by
      rw [List.length_append]
      show c.innerPurgeTotalDocsCount + 1 = _
      rw [hcount]
      exact (UInt32.ofNat_add _ 1).symm
    have hbuffered : { c with
        bufferDocs := c.bufferDocs ++ [⟨{ documentId := x.1 }, x.2, 0⟩]
        innerPurgeTotalDocsCount :=
          (hitsLookedAt p.context seen).length.toUInt32 + 1 } =
        buffered c x := by
      rw [buffered, hcount]
    simp only [hlt, if_false, hbuffered]
    by_cases hfull : Full (buffered c x)
    · obtain ⟨c', hc', hJ'⟩ := h.batch hpre hJ hfull
      exact ⟨c', (if_pos hfull).trans hc', hJ',
        (innerPurge_leaves hc').1.trans hlen⟩
    · exact ⟨_, if_neg hfull, h.add hpre hJ hfull, hlen⟩

/-- The loop of `DoQuery`: it ends, at the end of the iterator or at a point
where there is enough. -/
theorem loop (h : CollectKeeps all J) {it : DocIdSetIterator} {rest : List Hit}
    (hshows : ShowsHits it rest) {c : TopNCollector queues} {seen : List Hit}
    (hall : seen ++ rest = all) (hJ : J c (hitsLookedAt p.context seen))
    (hcount : c.innerPurgeTotalDocsCount =
      (hitsLookedAt p.context seen).length.toUInt32) :
    ∃ c' seen', Settles (fun fuel => Searcher.collectLoop p fuel it c) c' ∧
      J c' (hitsLookedAt p.context seen') ∧ seen' <+: all ∧
      (seen' = all ∨ enough p c' = true) := by
  induction hshows generalizing c seen with
  | @done it hzero =>
      rw [List.append_nil] at hall
      exact ⟨c, seen, collectLoop_ends (.inl hzero), hJ,
        hall ▸ List.prefix_rfl, .inl hall⟩
  | @next it next rest hne hnext hrest ih =>
      cases henough : enough p c with
      | true =>
          exact ⟨c, seen, collectLoop_ends (.inr henough), hJ,
            hall ▸ List.prefix_append seen _, .inr henough⟩
      | false =>
          have happ : seen ++ [(it.docID, it.fieldId)] ++ rest = all := by
            rw [List.append_assoc]
            exact hall
          obtain ⟨c₁, hc₁, hJ₁, hcount₁⟩ :=
            h.collect (happ ▸ List.prefix_append _ rest) hJ hcount
          obtain ⟨c', seen', hloop, hend⟩ := ih happ hJ₁ hcount₁
          refine ⟨c', seen', Settles.succ ?_, hend⟩
          have hstep : (fun fuel => Searcher.collectLoop p (fuel + 1) it c) =
              fun fuel => (call fuel .nextDoc it).bind fun it' =>
                Searcher.collectLoop p fuel it' c₁ := by
            funext fuel
            rw [Searcher.collectLoop, if_pos ⟨hne, henough⟩, hc₁]
            rfl
          rw [hstep]
          exact hnext.bind hloop

/-- The loop from a new collector. -/
theorem run (h : CollectKeeps all J) {it : DocIdSetIterator}
    (hshows : ShowsHits it all) {c : TopNCollector queues} (hJ : J c [])
    (hcount : c.innerPurgeTotalDocsCount = 0) :
    ∃ c' seen, Settles (fun fuel => Searcher.collectLoop p fuel it c) c' ∧
      J c' (hitsLookedAt p.context seen) ∧ seen <+: all ∧
      (seen = all ∨ enough p c' = true) := by
  have hnil : hitsLookedAt p.context [] = [] :=
    List.prefix_nil.1 (hitsLookedAt_isPrefix p.context [])
  refine h.loop hshows (List.nil_append all) ?_ ?_
  · rw [hnil]
    exact hJ
  · rw [hnil, hcount]
    rfl

end CollectKeeps

end Wwsearch.Spec
