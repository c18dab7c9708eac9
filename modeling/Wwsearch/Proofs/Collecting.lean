import Wwsearch.Proofs.CollectorLoop
import Wwsearch.Proofs.Sorting

/-!
# What the collector holds

Between two batches the queue of the collector is a selection: the best
`offset + limit` of the hits among the ids that went through (`Purged`). A
batch may end anywhere, the fast path without filters and sort conditions does
not read doc values at all, and the loop may end before the iterator does. The
first does not matter because a selection is kept push by push. For the other
two the order is that of the ids, and the ids come in that order.

All of this is without score strategies, for doc values that can be read.
-/

namespace Wwsearch.Spec

open Wwsearch.Lib Wwsearch.Ref Wwsearch.Ref.TopNCollector
open Wwsearch.Ref.DocIdSetIterator (call)

variable {σ : Type} {p : CollectorParams σ}

/-! ## One batch -/

/-- The ids that the filters let through. -/
def hitIds (p : CollectorParams σ) (ids : List DocumentID) :
    List DocumentID :=
  ids.filter fun d =>
    matchFilter p.filter p.minMatchFilterNum (docValues p.context d)

/-- The id of a collected document. -/
def idOf (doc : CollectedDocument σ) : DocumentID := doc.document.documentId

/-- A document as it goes into the buffer. -/
def Fresh (doc : CollectedDocument σ) : Prop :=
  doc.document = { documentId := idOf doc }

/-- A document as it goes into the queue. Only the fast path does not read the
doc values, and there the order does not need them. -/
def Loaded (p : CollectorParams σ) (doc : CollectedDocument σ) : Prop :=
  p.sorter = none ∨ doc.document = docValues p.context (idOf doc)

/-- The document with its doc values. -/
def load (p : CollectorParams σ) (doc : CollectedDocument σ) :
    CollectedDocument σ :=
  { doc with document := docValues p.context (idOf doc) }

theorem idOf_load (hread : ReadableDocValues p.context)
    (doc : CollectedDocument σ) : idOf (load p doc) = idOf doc :=
  (hread (idOf doc)).2

theorem readRows_map (f : Document → SearchStatus × Document)
    (docs : List (CollectedDocument σ)) :
    readRows (List.map f) docs = docs.map fun doc =>
      ((f doc.document).1, { doc with document := (f doc.document).2 }) := by
  induction docs with
  | nil => rfl
  | cons doc docs ih =>
      rw [readRows, List.map_cons, List.map_cons, List.zipWith_cons_cons,
        ← readRows, ih, List.map_cons]

/-- The hits of a batch of new documents. -/
theorem filterDocs_fresh (hread : ReadableDocValues p.context)
    {docs : List (CollectedDocument σ)} (hfresh : ∀ doc ∈ docs, Fresh doc) :
    filterDocs p (readRows (Searcher.getDocValue p.context.config
        p.context.faults p.context.op p.context.table p.context.snapshot)
        docs) =
      ((docs.map (load p)).filter fun doc =>
        matchFilter p.filter p.minMatchFilterNum doc.document, none) := by
  unfold Searcher.getDocValue
  rw [readRows_map]
  induction docs with
  | nil => rfl
  | cons doc docs ih =>
      have hdoc := hfresh doc List.mem_cons_self
      have hrow : Searcher.innerGetField p.context.config p.context.faults
          p.context.op p.context.table p.context.snapshot .docValue
          doc.document = docValueRow p.context (idOf doc) := by
        rw [hdoc]
        rfl
      rw [List.map_cons, filterDocs, ih fun d hd =>
        hfresh d (List.mem_cons_of_mem doc hd), hrow,
        if_pos (hread (idOf doc)).1, List.map_cons, List.filter_cons]
      by_cases hmatch : matchFilter p.filter p.minMatchFilterNum
          (load p doc).document = true
      · rw [if_pos hmatch]
        exact if_pos hmatch
      · rw [if_neg hmatch]
        exact if_neg hmatch

theorem map_idOf_hits (hread : ReadableDocValues p.context)
    (docs : List (CollectedDocument σ)) :
    ((docs.map (load p)).filter fun doc =>
        matchFilter p.filter p.minMatchFilterNum doc.document).map idOf =
      hitIds p (docs.map idOf) := by
  induction docs with
  | nil => rfl
  | cons doc docs ih =>
      rw [List.map_cons, List.map_cons, List.filter_cons, hitIds,
        List.filter_cons, ← hitIds, ← ih]
      show (if matchFilter p.filter p.minMatchFilterNum
        (docValues p.context (idOf doc)) = true then _ else _ : List _).map
          idOf = _
      split
      · rw [List.map_cons, idOf_load hread]
      · rfl

theorem hitIds_append (ids ids' : List DocumentID) :
    hitIds p (ids ++ ids') = hitIds p ids ++ hitIds p ids' :=
  List.filter_append ids ids'

/-- A count of the hits among the ids, on top of the total. -/
def addHits (p : CollectorParams σ) (total : Option UInt32)
    (ids : List DocumentID) : Option UInt32 :=
  total.map (· + (hitIds p ids).length.toUInt32)

theorem addHits_nil (total : Option UInt32) : addHits p total [] = total := by
  cases total with
  | none => rfl
  | some n => exact congrArg some (UInt32.add_zero n)

theorem addHits_append (total : Option UInt32) (ids ids' : List DocumentID) :
    addHits p (addHits p total ids) ids' = addHits p total (ids ++ ids') := by
  cases total with
  | none => rfl
  | some n =>
      have hlen : (hitIds p (ids ++ ids')).length.toUInt32 =
          (hitIds p ids).length.toUInt32 + (hitIds p ids').length.toUInt32 := by
        rw [hitIds_append, List.length_append]
        exact UInt32.ofNat_add _ _
      exact congrArg some ((UInt32.add_assoc _ _ _).trans
        (congrArg (n + ·) hlen.symm))

/-- Without sort conditions, descending ids are in order. -/
theorem sorted_of_descending (hsorter : p.sorter = none)
    {docs : List (CollectedDocument σ)}
    (h : (docs.map idOf).Pairwise fun a b => b < a) :
    Sorted (collectedLess p.sorter) docs := by
  refine (List.pairwise_map.1 h).imp fun {x y} hxy => ?_
  rw [collectedLess, hsorter]
  exact decide_eq_false (UInt64.not_lt.2 (UInt64.le_of_lt hxy))

/-! ## The queue -/

variable [LT σ] [DecidableLT σ] {queues : CollectorQueues σ p.sorter}

/-- The queue has a best part of the hits among the ids. -/
def Purged (p : CollectorParams σ) {queues : CollectorQueues σ p.sorter}
    (c : TopNCollector queues) (ids : List DocumentID) : Prop :=
  ∃ hits : List (CollectedDocument σ), hits.map idOf = hitIds p ids ∧
    (∀ doc ∈ hits, Loaded p doc) ∧
    Selects (collectedLess p.sorter) c.topN.toNat hits
      (queues.docs.items c.topNDocs)

/-- What `InnerPurge` does not touch. -/
structure Kept (c c' : TopNCollector queues) : Prop where
  topN : c'.topN = c.topN
  offset : c'.offset = c.offset
  status : c'.status = c.status
  count : c'.innerPurgeTotalDocsCount = c.innerPurgeTotalDocsCount
  total : c'.getMatchTotalCnt.isNone = c.getMatchTotalCnt.isNone

theorem Kept.refl (c : TopNCollector queues) : Kept c c :=
  ⟨rfl, rfl, rfl, rfl, rfl⟩

theorem Kept.trans {c₁ c₂ c₃ : TopNCollector queues} (h : Kept c₁ c₂)
    (h' : Kept c₂ c₃) : Kept c₁ c₃ :=
  ⟨h'.topN.trans h.topN, h'.offset.trans h.offset, h'.status.trans h.status,
    h'.count.trans h.count, h'.total.trans h.total⟩

variable [Add σ]

/-- A batch in the buffer goes into the queue, and its hits are counted. -/
theorem innerPurge_purged (hscore : p.useScoreStrategy = false)
    (hread : ReadableDocValues p.context) {c : TopNCollector queues}
    {ids : List DocumentID} (h : Purged p c ids)
    (hfresh : ∀ doc ∈ c.bufferDocs, Fresh doc)
    (hdesc : (ids ++ c.bufferDocs.map idOf).Pairwise fun a b => b < a) :
    ∃ c', innerPurge p c = some c' ∧ c'.bufferDocs = [] ∧
      Purged p c' (ids ++ c.bufferDocs.map idOf) ∧ Kept c c' ∧
      c'.getMatchTotalCnt =
        addHits p c.getMatchTotalCnt (c.bufferDocs.map idOf) := by
  obtain ⟨hits, hids, hloaded, hsel⟩ := h
  rw [innerPurge]
  split
  · next hempty =>
      rw [List.isEmpty_iff.1 hempty]
      refine ⟨c, rfl, List.isEmpty_iff.1 hempty, ⟨hits, ?_, hloaded, hsel⟩,
        Kept.refl c, (addHits_nil _).symm⟩
      rw [List.map_nil, List.append_nil, hids]
  · split
    · next hfast =>
        obtain ⟨hnone, -⟩ := Bool.and_eq_true_iff.1 hfast
        obtain ⟨hsorter, hfilter⟩ := Bool.and_eq_true_iff.1 hnone
        have hsorter : p.sorter = none := Option.isNone_iff_eq_none.1 hsorter
        have hall : ∀ l, hitIds p l = l := fun l => by
          rw [hitIds, Option.isNone_iff_eq_none.1 hfilter]
          exact List.filter_true l
        refine ⟨_, rfl, rfl, ⟨hits ++ c.bufferDocs, ?_, fun _ _ =>
          .inl hsorter, hsel.fill (sorted_of_descending hsorter ?_)⟩,
          ⟨rfl, rfl, rfl, rfl, Option.isNone_map⟩, ?_⟩
        · rw [List.map_append, hids, hall, hall]
        · rw [List.map_append, hids, hall]
          exact hdesc
        · rw [addHits, hall, List.length_map]
          rfl
    · simp only [filterDocs_fresh hread hfresh]
      have hhits := map_idOf_hits hread c.bufferDocs
      have hload : ∀ doc ∈ (c.bufferDocs.map (load p)).filter fun doc =>
          matchFilter p.filter p.minMatchFilterNum doc.document,
          Loaded p doc := by
        intro doc hdoc
        obtain ⟨doc, -, rfl⟩ := List.mem_map.1 (List.mem_filter.1 hdoc).1
        exact .inr (by rw [idOf_load hread]; rfl)
      generalize (c.bufferDocs.map (load p)).filter (fun doc => matchFilter
        p.filter p.minMatchFilterNum doc.document) = newHits at hhits hload
      have hcount : newHits.length =
          (hitIds p (c.bufferDocs.map idOf)).length := by
        rw [← hhits, List.length_map]
      split
      · next hempty =>
          refine ⟨_, rfl, rfl, ⟨hits, ?_, hloaded, hsel⟩,
            ⟨rfl, rfl, rfl, rfl, Option.isNone_map⟩, ?_⟩
          · rw [hitIds_append, ← hhits, List.isEmpty_iff.1 hempty,
              List.map_nil, List.append_nil, hids]
          · rw [addHits, ← hcount]
            rfl
      · rw [hscore]
        refine ⟨_, rfl, rfl, ⟨hits ++ newHits, ?_, ?_, hsel.pushAll newHits
          ((strictWeak_sorter p.sorter).comap _)⟩,
          ⟨rfl, rfl, rfl, rfl, Option.isNone_map⟩, ?_⟩
        · rw [List.map_append, hids, hhits, hitIds_append]
        · exact fun doc hdoc => (List.mem_append.1 hdoc).elim (hloaded doc)
            (hload doc)
        · rw [addHits, ← hcount]
          rfl

/-! ## The whole run -/

theorem lookedAt_prefix (context : SearchContext) {ids ids' : List DocumentID}
    (h : ids <+: ids') : lookedAt context ids <+: lookedAt context ids' := by
  simp only [lookedAt]
  split
  · exact h
  · obtain ⟨rest, rfl⟩ := h
    rw [List.take_append]
    exact List.prefix_append _ _

theorem lookedAt_sublist (context : SearchContext) (ids : List DocumentID) :
    (lookedAt context ids).Sublist ids := by
  simp only [lookedAt]
  split
  · exact List.Sublist.refl ids
  · exact List.take_sublist _ ids

/-- The collector after the ids. -/
structure Collecting (c₀ c : TopNCollector queues) (ids : List DocumentID) :
    Prop where
  purged : ∃ before, Purged p c before ∧
    lookedAt p.context ids = before ++ c.bufferDocs.map idOf
  fresh : ∀ doc ∈ c.bufferDocs, Fresh doc
  topN : c.topN = c₀.topN
  offset : c.offset = c₀.offset
  status : c.status = c₀.status
  total : c.getMatchTotalCnt.isNone = c₀.getMatchTotalCnt.isNone
  count : c.innerPurgeTotalDocsCount =
    (lookedAt p.context ids).length.toUInt32

/-- The total, as the batches so far leave it. -/
def Counted (c₀ c : TopNCollector queues) (ids : List DocumentID) : Prop :=
  ∃ before, lookedAt p.context ids = before ++ c.bufferDocs.map idOf ∧
    c.getMatchTotalCnt = addHits p c₀.getMatchTotalCnt before

namespace Collecting

variable {c₀ c : TopNCollector queues} {ids : List DocumentID}

/-- The buffer goes into the queue, whenever that is. -/
theorem innerPurge (h : Collecting c₀ c ids) (hcounted : Counted c₀ c ids)
    (hscore : p.useScoreStrategy = false)
    (hread : ReadableDocValues p.context)
    (hdesc : ids.Pairwise fun a b => b < a) :
    ∃ c', TopNCollector.innerPurge p c = some c' ∧ Collecting c₀ c' ids ∧
      Counted c₀ c' ids ∧ c'.bufferDocs = [] ∧
      Purged p c' (lookedAt p.context ids) := by
  obtain ⟨before, hpurged, hids⟩ := h.purged
  obtain ⟨before', hids', htotal⟩ := hcounted
  have hsame : before' = before :=
    List.append_cancel_right (hids'.symm.trans hids)
  rw [hsame] at htotal
  have hdesc' := hdesc.sublist (lookedAt_sublist p.context ids)
  rw [hids] at hdesc'
  obtain ⟨c', hc', hempty, hpurged', hkept, htotal'⟩ :=
    innerPurge_purged hscore hread hpurged h.fresh hdesc'
  have hbuffer : lookedAt p.context ids =
      lookedAt p.context ids ++ c'.bufferDocs.map idOf := by
    rw [hempty, List.map_nil, List.append_nil]
  rw [← hids] at hpurged'
  refine ⟨c', hc', ⟨⟨_, hpurged', hbuffer⟩, ?_, hkept.topN.trans h.topN,
    hkept.offset.trans h.offset, hkept.status.trans h.status,
    hkept.total.trans h.total, hkept.count.trans h.count⟩,
    ⟨_, hbuffer, ?_⟩, hempty, hpurged'⟩
  · rw [hempty]
    exact fun doc hdoc => absurd hdoc List.not_mem_nil
  · rw [htotal', htotal, addHits_append, ← hids]

/-- All that counts of the ids is what is looked at. -/
theorem lookedAt_lookedAt (context : SearchContext) (ids : List DocumentID) :
    lookedAt context (lookedAt context ids) = lookedAt context ids := by
  simp only [lookedAt]
  split
  · rfl
  · rw [List.take_take, Nat.min_self]

variable [Zero σ]

omit [Add σ] in
theorem buffered (h : Collecting c₀ c ids) (hcounted : Counted c₀ c ids)
    {x : Hit} (hall : lookedAt p.context (ids ++ [x.1]) =
      lookedAt p.context ids ++ [x.1]) :
    Collecting c₀ (Spec.buffered c x) (ids ++ [x.1]) ∧
      Counted c₀ (Spec.buffered c x) (ids ++ [x.1]) := by
  have happ : ∀ before, lookedAt p.context ids =
      before ++ c.bufferDocs.map idOf → lookedAt p.context (ids ++ [x.1]) =
        before ++ (Spec.buffered c x).bufferDocs.map idOf := by
    intro before hids
    have hmap : (Spec.buffered c x).bufferDocs.map idOf =
        c.bufferDocs.map idOf ++ [x.1] := List.map_append
    rw [hall, hids, hmap, List.append_assoc]
  obtain ⟨before, hpurged, hids⟩ := h.purged
  obtain ⟨before', hids', htotal⟩ := hcounted
  refine ⟨⟨⟨before, hpurged, happ before hids⟩, ?_, h.topN, h.offset, h.status,
    h.total, ?_⟩, before', happ before' hids', htotal⟩
  · intro doc hdoc
    rcases List.mem_append.1 hdoc with hdoc | hdoc
    · exact h.fresh doc hdoc
    · rw [List.mem_singleton.1 hdoc]
      rfl
  · rw [hall, List.length_append]
    show c.innerPurgeTotalDocsCount + 1 = _
    rw [h.count]
    exact (UInt32.ofNat_add _ 1).symm

/-- The collector goes on collecting, whatever `Collect` does. -/
theorem keeps (hscore : p.useScoreStrategy = false)
    (hread : ReadableDocValues p.context) {all : List Hit}
    (hdesc : (all.map Prod.fst).Pairwise fun a b => b < a) :
    CollectKeeps all fun (c : TopNCollector queues) taken =>
      Collecting c₀ c (taken.map Prod.fst) ∧
        Counted c₀ c (taken.map Prod.fst) := by
  have hlooked : ∀ {taken}, taken <+: hitsLookedAt p.context all →
      lookedAt p.context (taken.map Prod.fst) = taken.map Prod.fst :=
    fun h => by rw [lookedAt_map, hitsLookedAt_of_prefix h]
  have hdescOf : ∀ {taken}, taken <+: hitsLookedAt p.context all →
      (taken.map Prod.fst).Pairwise fun a b => b < a := fun h =>
    hdesc.sublist ((h.trans (hitsLookedAt_isPrefix _ _)).sublist.map _)
  have hadd : ∀ {c : TopNCollector queues} {taken x},
      taken ++ [x] <+: hitsLookedAt p.context all →
      Collecting c₀ c (taken.map Prod.fst) ∧
        Counted c₀ c (taken.map Prod.fst) →
      Collecting c₀ (Spec.buffered c x) ((taken ++ [x]).map Prod.fst) ∧
        Counted c₀ (Spec.buffered c x) ((taken ++ [x]).map Prod.fst) := by
    intro c taken x hpre h
    rw [List.map_append]
    refine h.1.buffered h.2 ?_
    rw [hlooked ((List.prefix_append taken [x]).trans hpre)]
    have happ := hlooked hpre
    rw [List.map_append] at happ
    exact happ
  constructor
  · exact fun hpre h _ => hadd hpre h
  · intro c taken x hpre h _
    have h := hadd hpre h
    obtain ⟨c', hc', hcollecting, hcounted, -⟩ :=
      h.1.innerPurge h.2 hscore hread (hdescOf hpre)
    exact ⟨c', hc', hcollecting, hcounted⟩
  · intro c h
    obtain ⟨c', hc', hcollecting, hcounted, -⟩ :=
      h.1.innerPurge h.2 hscore hread (hdescOf List.prefix_rfl)
    exact ⟨c', hc', hcollecting, hcounted⟩

/-- The loop of `DoQuery`, from a new collector. -/
theorem collectLoop {it : DocIdSetIterator} {ids : List DocumentID}
    (hshows : Shows it ids) (hstart : Collecting c₀ c₀ [])
    (hscore : p.useScoreStrategy = false) (hread : ReadableDocValues p.context)
    (hdesc : ids.Pairwise fun a b => b < a) :
    ∃ c seen, Settles (fun fuel => Searcher.collectLoop p fuel it c₀) c ∧
      Collecting c₀ c seen ∧ Counted c₀ c seen ∧ seen <+: ids ∧
      (seen = ids ∨ enough p c = true) := by
  obtain ⟨all, hall, rfl⟩ := hshows.hits
  have hnil : lookedAt p.context [] = [] :=
    List.sublist_nil.1 (lookedAt_sublist p.context [])
  have hbuffer : c₀.bufferDocs.map idOf = [] := by
    obtain ⟨before, -, hids⟩ := hstart.purged
    rw [hnil] at hids
    exact (List.append_eq_nil_iff.1 hids.symm).2
  obtain ⟨c, seen, hloop, h, hseen, hend⟩ := (keeps hscore hread hdesc).run hall
    (c := c₀) ⟨hstart, [], by rw [List.map_nil, hnil, hbuffer]; rfl,
      (addHits_nil _).symm⟩ (by rw [hstart.count, hnil]; rfl)
  obtain ⟨⟨hpurged, hfresh, htopN, hoffset, hstatus, htotal, hcount⟩,
    hcounted⟩ := h
  rw [Counted] at hcounted
  rw [← lookedAt_map, lookedAt_lookedAt] at hpurged hcount hcounted
  exact ⟨c, seen.map Prod.fst, hloop, ⟨hpurged, hfresh, htopN, hoffset, hstatus,
    htotal, hcount⟩, hcounted, hseen.map _, hend.imp (congrArg _) id⟩

end Collecting

end Wwsearch.Spec
