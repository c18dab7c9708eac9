import Wwsearch.Proofs.History
import Wwsearch.Proofs.Refinement
import Wwsearch.Proofs.SearchIndex

/-!
# A search finds what was written

From the calls that write a table to the page that a query on it answers. The
leaf of a tree is the list of a term, and the list of a term has ids of
documents that have the term in their stored record, all of them as long as
the list is under its cap (`Written.mem_termIds`). A tree is a formula over its
leaves that only grows with them (`Holds.mono`), so whatever a list or a scan
leaves out, a search shows no id that it should not (`getScorer_within`); and
where nothing is left out it shows them all.

The rest is the collector: it looks at the ids in descending order, as far as
the total limit, and its queue holds the front of a ranking of those that the
filters let through (`doQuery_selects`).
-/

namespace Wwsearch.Spec

open Wwsearch.Lib Wwsearch.Ref Wwsearch.Ref.DocIdSetIterator

/-! ## Formulas -/

section Holds

variable {has has' : FieldID → Bytes → Prop}

/-- There is no `Not`: with more terms no formula is lost. -/
theorem Holds.mono (h : ∀ f t, has f t → has' f t) :
    ∀ q, Holds has q → Holds has' q
  | .booleanQuery f value, hq => by
      rw [Holds] at hq ⊢
      exact h f _ hq
  | .prefixQuery f start _, hq => by
      rw [Holds] at hq ⊢
      obtain ⟨t, hst, ht⟩ := hq
      exact ⟨t, hst, h f t ht⟩
  | .andQuery sub, hq => by
      rw [Holds] at hq ⊢
      exact ⟨hq.1, fun q hmem => Holds.mono h q (hq.2 q hmem)⟩
  | .orQuery sub, hq => by
      rw [Holds] at hq ⊢
      obtain ⟨q, hmem, hq⟩ := hq
      exact ⟨q, hmem, Holds.mono h q hq⟩

theorem holds_congr (h : ∀ f t, has f t ↔ has' f t) (q : Query) :
    Holds has q ↔ Holds has' q :=
  ⟨Holds.mono (fun f t => (h f t).1) q, Holds.mono (fun f t => (h f t).2) q⟩

/-- What has no terms satisfies nothing. -/
theorem exists_of_holds : ∀ q, Holds has q → ∃ f t, has f t
  | .booleanQuery f value, hq => by
      rw [Holds] at hq
      exact ⟨f, _, hq⟩
  | .prefixQuery f start _, hq => by
      rw [Holds] at hq
      obtain ⟨t, -, ht⟩ := hq
      exact ⟨f, t, ht⟩
  | .andQuery sub, hq => by
      rw [Holds] at hq
      obtain ⟨q, hmem⟩ := List.exists_mem_of_ne_nil sub hq.1
      exact exists_of_holds q (hq.2 q hmem)
  | .orQuery sub, hq => by
      rw [Holds] at hq
      obtain ⟨q, hmem, hq⟩ := hq
      exact exists_of_holds q hq

end Holds

theorem TermsFit.prefixesFit : ∀ q, TermsFit q → PrefixesFit q
  | .booleanQuery _ _, _ => by
      rw [PrefixesFit]
      exact trivial
  | .prefixQuery _ start _, h => by
      rw [TermsFit] at h
      rw [PrefixesFit]
      exact h
  | .andQuery sub, h => by
      rw [TermsFit] at h
      rw [PrefixesFit]
      exact fun q hq => TermsFit.prefixesFit q (h q hq)
  | .orQuery sub, h => by
      rw [TermsFit] at h
      rw [PrefixesFit]
      exact fun q hq => TermsFit.prefixesFit q (h q hq)

variable {config : IndexConfig} {op : DocListMergeOperator} {table : TableID}
  {db : VirtualDB}

/-- What a tree denotes is the formula over the lists of its leaves. -/
theorem mem_denote_iff {d : DocumentID} : ∀ q, TermsFit q →
    (d ∈ denote op table db q ↔ Holds
      (fun f t => t.length < 2 ^ 32 ∧ d ∈ termIds op table db f t) q)
  | .booleanQuery f value, h => by
      rw [TermsFit] at h
      rw [denote, Holds]
      exact ⟨fun hd => ⟨h, hd⟩, fun hd => hd.2⟩
  | .prefixQuery f start _, _ => by
      rw [denote, Holds]
      exact Iff.rfl
  | .andQuery sub, h => by
      rw [TermsFit] at h
      rw [denote, Holds]
      exact and_congr_right fun _ => forall₂_congr fun q hq =>
        mem_denote_iff q (h q hq)
  | .orQuery sub, h => by
      rw [TermsFit] at h
      rw [denote, Holds]
      exact exists_congr fun q => exists_congr fun hq =>
        mem_denote_iff q (h q hq)

/-- The ids that are sought, over the terms of the stored records. -/
theorem mem_sought_iff {d : DocumentID} {q : Query} :
    d ∈ Sought config op table db q ↔
      Holds (StoredTerm config op table db d) q := by
  constructor
  · rintro ⟨doc, hdoc, hq⟩
    exact Holds.mono (fun f t ht => ⟨doc, hdoc, ht⟩) q hq
  · intro hq
    obtain ⟨_, _, doc, hdoc, -⟩ := exists_of_holds q hq
    refine ⟨doc, hdoc, Holds.mono (fun f t ht => ?_) q hq⟩
    obtain ⟨doc', hsome, ht⟩ := ht
    obtain rfl := Option.some.inj (hdoc.symm.trans hsome)
    exact ht

/-! ## The lists of a table that was written -/

namespace Written

variable {docs : DocumentID → Option Document} {d : DocumentID} {f : FieldID}
  {t : Bytes}

theorem storedTerm_iff (h : Written config table db docs) :
    StoredTerm config op table db d f t ↔ HasTerm config (docs d) f t := by
  rw [StoredTerm, h.keeps.storedDocument, HasTerm]
  cases hdoc : docs d with
  | none => simp
  | some doc =>
      have hindexed : Indexed config (doc.reread .storedField).fields f t ↔ _ :=
        indexed_reread (h.termsStored d doc hdoc)
      simpa using hindexed

/-- A list has no id without the term. -/
theorem storedTerm_of_mem (h : Written config table db docs)
    (ht : t.length < 2 ^ 32) (hd : d ∈ termIds op table db f t) :
    StoredTerm config op table db d f t := by
  obtain ⟨e, he, rfl⟩ := hd
  rw [termList_eq (h.posts.cell f t ht)] at he
  obtain ⟨d, htop, rfl⟩ := List.mem_map.1 he
  exact h.storedTerm_iff.2 ((h.posts.live f t ht d).1
    (lastState_of_mem_topLive htop))

/-- Under the cap it has all that have it. -/
theorem mem_termIds (h : Written config table db docs)
    (hcap : WithinCap config op table db) :
    t.length < 2 ^ 32 ∧ d ∈ termIds op table db f t ↔
      StoredTerm config op table db d f t := by
  constructor
  · rintro ⟨ht, hd⟩
    exact h.storedTerm_of_mem ht hd
  · intro hterm
    have ht := h.keeps.length_lt h.termsStored (h.storedTerm_iff.1 hterm)
    exact ⟨ht, (h.consistent.mem_termList ht (hcap f t) d).2 hterm⟩

theorem denote_subset (h : Written config table db docs) {q : Query}
    (hfit : TermsFit q) :
    denote op table db q ⊆ Sought config op table db q := by
  intro d hd
  exact mem_sought_iff.2 (Holds.mono
    (fun f t ht => h.storedTerm_of_mem ht.1 ht.2) q
    ((mem_denote_iff q hfit).1 hd))

theorem denote_eq (h : Written config table db docs)
    (hcap : WithinCap config op table db) {q : Query} (hfit : TermsFit q) :
    denote op table db q = Sought config op table db q := by
  ext d
  rw [mem_denote_iff q hfit, mem_sought_iff]
  exact holds_congr (fun f t => h.mem_termIds hcap) q

end Written

/-! ## Scorers -/

/-- The scorer of a tree answers an iterator at its start, and the iterator is
for no other ids than these. -/
def ScoresWithin (context : SearchContext) (q : Query) (ids : Set DocumentID)
    (st : ContextState) : Prop :=
  ∃ scorer st' it start, Settles (fun fuel => getScorer fuel context q st)
      (some scorer, st') ∧
    Settles (fun fuel => scorer.iterator fuel) it ∧ AtStart it start ∧
    start ⊆ ids

/-- Smaller parts make a smaller whole. -/
theorem forall₂_subset {starts : List (Set DocumentID)} {sub : List Query}
    {sets : Query → Set DocumentID}
    (h : List.Forall₂ (fun start q => start ⊆ sets q) starts sub) :
    interAll starts ⊆ interAll (sub.map sets) ∧
      unionAll starts ⊆ unionAll (sub.map sets) := by
  constructor
  · rintro d ⟨hne, hall⟩
    refine ⟨fun hnil => hne ?_, ?_⟩
    · rw [List.map_eq_nil_iff.1 hnil] at h
      exact List.forall₂_nil_right_iff.1 h
    · clear hne
      induction h with
      | nil => exact fun s hs => absurd hs List.not_mem_nil
      | cons hstart _ ih =>
          intro s hs
          rcases List.mem_cons.1 hs with rfl | hs
          · exact hstart (hall _ List.mem_cons_self)
          · exact ih (fun s hs => hall s (List.mem_cons_of_mem _ hs)) s hs
  · rintro d ⟨start, hstart, hd⟩
    induction h with
    | nil => exact absurd hstart List.not_mem_nil
    | cons hsub _ ih =>
        rcases List.mem_cons.1 hstart with rfl | hstart
        · exact ⟨_, List.mem_cons_self, hsub hd⟩
        · obtain ⟨s, hs, hds⟩ := ih hstart
          exact ⟨s, List.mem_cons_of_mem _ hs, hds⟩

theorem addScorers_within {context : SearchContext} {sub : List Query}
    {sets : Query → Set DocumentID}
    (h : ∀ q ∈ sub, ∀ st, ScoresWithin context q (sets q) st) :
    ∀ st, ∃ its st' starts,
      Settles (fun fuel => addScorers fuel context sub st) (some its, st') ∧
      PartsAtStart its starts ∧
      List.Forall₂ (fun start q => start ⊆ sets q) starts sub := by
  induction sub with
  | nil => exact fun st => ⟨[], st, [], Settles.pure _, .nil, .nil⟩
  | cons q sub ih =>
      intro st
      obtain ⟨scorer, st₁, it, start, hscorer, hit, hstart, hsub⟩ :=
        h q List.mem_cons_self st
      obtain ⟨its, st', starts, hits, hparts, hsubs⟩ :=
        ih (fun q hq => h q (List.mem_cons_of_mem _ hq)) st₁
      refine ⟨it :: its, st', start :: starts, ?_, .cons hstart hparts,
        .cons hsub hsubs⟩
      simp only [addScorers]
      exact hscorer.bind (hit.bind (hits.bind (Settles.pure _)))

/-- A scan that stops at its limit has lists of the prefix all the same. -/
theorem prefixQuery_within (h : ReadableIndex op db) (f : FieldID)
    {start : Bytes} (hfit : start.length < 2 ^ 32) (limit : UInt32)
    (st : ContextState) :
    ScoresWithin (quietContext config op table db) (.prefixQuery f start limit)
      (denote op table db (.prefixQuery f start limit)) st := by
  obtain ⟨values, reached, hscan⟩ : ∃ values reached, prefixValues limit
      (encodeInvertedKey table f start) (db.seek op .invertedIndexColumn
        (encodeInvertedKey table f start)) 0 = (values, reached) :=
    ⟨_, _, rfl⟩
  obtain ⟨readers, hreaders, hstart⟩ := readers_of_values h hfit hscan
  have hcontext : (quietContext config op table db).snapshot.seek
      (quietContext config op table db).op .invertedIndexColumn
      (encodeInvertedKey (quietContext config op table db).table f start) =
      db.seek op .invertedIndexColumn (encodeInvertedKey table f start) := rfl
  refine ⟨.prefixScorer (finishOr (readers.map .reader)),
    { st with status := prefixStatus limit st.status reached }, _, _,
    ⟨0, fun fuel _ => ?_⟩, Settles.pure _, finishOr_atStart hstart, ?_⟩
  · show prefixScorer _ f start limit st = _
    rw [prefixScorer, hcontext]
    simp only [quietContext, hscan, hreaders]
    rfl
  · rintro d ⟨ids, hids, hd⟩
    obtain ⟨v, hv, rfl⟩ := List.mem_map.1 hids
    obtain ⟨t, cell, hst, ht, hcell, hvalue⟩ := key_of_value h hfit hscan hv
    rw [denote]
    refine ⟨t, hst, ht, ?_⟩
    rw [termIds_eq hcell hvalue]
    exact hd

/-- The scorer of a leaf does not depend on what was read before. -/
theorem readBoolean_some {f : FieldID} {r : SearchStatus × Bytes}
    {st st₁ : ContextState} {scorer : Scorer}
    (h : readBoolean f r st = some (some scorer, st₁)) (st' : ContextState) :
    st₁.status = st.status ∧
      ∃ st₂, readBoolean f r st' = some (some scorer, st₂) := by
  by_cases hok : r.1.ok = true ∨ r.1.documentNotExist = true
  · simp only [readBoolean, if_pos hok] at h ⊢
    cases hr : newDocListReaderCodec (if r.1.ok = true then r.2 else [])
        f.toNat with
    | none =>
        rw [hr] at h
        cases h
    | some reader =>
        rw [hr] at h
        obtain ⟨hscorer, rfl⟩ := Prod.mk.inj (Option.some.inj h)
        exact ⟨rfl, _, by rw [← hscorer]; rfl⟩
  · simp only [readBoolean, if_neg hok] at h
    cases h

theorem booleanQuery_within (h : ReadableIndex op db) (f : FieldID)
    (value : MatchValue) (st : ContextState) :
    ScoresWithin (quietContext config op table db) (.booleanQuery f value)
      (termIds op table db f value.toTerm) st := by
  obtain ⟨scorer, st₁, it, start, ⟨n, hn⟩, hit, hstart, hok⟩ :=
    @booleanQuery_scores config op table db h f value {}
  have hscorer := hn n (Nat.le_refl n)
  simp only [getScorer, booleanScorer_eq] at hscorer
  obtain ⟨hstatus, st₂, hsame⟩ := readBoolean_some hscorer st
  have heq := (hok (by rw [hstatus]; rfl)).2
  refine ⟨scorer, st₂, it, start, ⟨0, fun fuel _ => ?_⟩, hit, hstart,
    heq ▸ subset_rfl⟩
  simp only [getScorer, booleanScorer_eq]
  exact hsame

theorem getScorer_within (h : ReadableIndex op db) : ∀ q, PrefixesFit q →
    ∀ st, ScoresWithin (quietContext config op table db) q
      (denote op table db q) st
  | .booleanQuery f value, _, st => by
      rw [denote]
      exact booleanQuery_within h f value st
  | .prefixQuery f start limit, hfit, st => by
      rw [PrefixesFit] at hfit
      exact prefixQuery_within h f hfit limit st
  | .andQuery sub, hfit, st => by
      rw [PrefixesFit] at hfit
      obtain ⟨its, st', starts, hits, hparts, hsubs⟩ := addScorers_within
        (fun q hq => getScorer_within h q (hfit q hq)) st
      obtain ⟨it, hit, hstart⟩ := finishMerge_atStart hparts
      rw [denote_andQuery]
      refine ⟨.andScorer its, st', it, _, ?_, hit, hstart,
        (forall₂_subset hsubs).1⟩
      simp only [getScorer]
      exact hits.bind (g := fun _ r => some (r.1.map Scorer.andScorer, r.2))
        (Settles.pure _)
  | .orQuery sub, hfit, st => by
      rw [PrefixesFit] at hfit
      obtain ⟨its, st', starts, hits, hparts, hsubs⟩ := addScorers_within
        (fun q hq => getScorer_within h q (hfit q hq)) st
      rw [denote_orQuery]
      refine ⟨.orScorer its, st', _, _, ?_, Settles.pure _,
        finishOr_atStart hparts, (forall₂_subset hsubs).2⟩
      simp only [getScorer]
      exact hits.bind (g := fun _ r => some (r.1.map Scorer.orScorer, r.2))
        (Settles.pure _)

/-! ## Pages -/

section Windows

variable {σ : Type} {context : SearchContext} {a : Searcher.QueryArgs σ}
  {ids : List DocumentID}

/-- A best part in order, without the offset, is a page. -/
theorem pageOf_selects {offset limit : UInt64} {top : List DocumentID}
    {status : SearchStatus}
    (hfit : offset.toNat + limit.toNat < 2 ^ 64)
    (hsel : Selects (sortsBefore context a) (offset + limit).toNat
      (matching context a ids) top)
    (hsorted : Sorted (sortsBefore context a) top) :
    PageOf context a offset limit ids ⟨status, top.drop offset.toNat,
      a.getMatchTotalCnt.map (· + (matching context a ids).length.toUInt32)⟩ := by
  refine ⟨?_, rfl⟩
  obtain ⟨s, hperm, hs, htop⟩ := hsel.exists_front (listQueue _)
    ((strictWeak_sortsBefore context a).on _) hsorted
  refine ⟨s, hperm, hs, ?_⟩
  rw [htop, UInt64.toNat_add, Nat.mod_eq_of_lt hfit, List.drop_take,
    Nat.add_sub_cancel_left]

/-- Whatever the offset and the limit are, no more than the limit is left. -/
theorem soundPage_selects {offset limit : UInt64} {top : List DocumentID}
    {sought : Set DocumentID}
    (hsel : Selects (sortsBefore context a) (offset + limit).toNat
      (matching context a ids) top)
    (hdesc : ids.Pairwise fun a b => b < a) (hids : ∀ d ∈ ids, d ∈ sought) :
    SoundPage context a limit sought (top.drop offset.toNat) := by
  have hmem : ∀ d ∈ top.drop offset.toNat, d ∈ matching context a ids :=
    fun d hd => hsel.subset (List.mem_of_mem_drop hd)
  constructor
  · have hnodup := hsel.nodup_map (f := id)
      (by rw [List.map_id]; exact nodup_of_desc (matching_desc hdesc))
    rw [List.map_id] at hnodup
    exact hnodup.sublist (List.drop_sublist _ _)
  · have hlen := hsel.length_le
    rw [UInt64.toNat_add] at hlen
    have hoffset := offset.toNat_lt
    have hlimit := limit.toNat_lt
    rw [List.length_drop]
    omega
  · exact fun d hd => hids d ((lookedAt_sublist context ids).subset
      (List.mem_of_mem_filter (hmem d hd)))
  · exact fun d hd => (List.mem_filter.1 (hmem d hd)).2

/-- The ids of an iterator at its start. -/
theorem AtStart.shows {it : DocIdSetIterator} {start : Set DocumentID}
    (h : AtStart it start) :
    ∃ ids, Shows it ids ∧ ids.Pairwise (fun a b => b < a) ∧
      ∀ d, d ∈ ids ↔ d ∈ start := by
  obtain ⟨n, hn⟩ := h.standing
  obtain ⟨ids, hshows, hdesc, hmem⟩ := hn.shows
  refine ⟨ids, hshows, hdesc, fun d => ?_⟩
  rw [hmem, h.ids_eq]
  exact ⟨fun hd => hd.1, fun hd => ⟨hd, h.le_docID d hd⟩⟩

end Windows

section Page

variable {σ : Type} [LT σ] [DecidableLT σ] [Zero σ] [Add σ]
  {context : SearchContext} {a : Searcher.QueryArgs σ} {scorer : Scorer}
  {st : ContextState} {it : DocIdSetIterator} {ids : List DocumentID}

/-- A query answers with a best part of what matches, without the offset. -/
theorem doQuery_selects (hscore : a.scoreStrategyList = [])
    (hread : ReadableDocValues context)
    (hscorer : Settles (fun fuel => getScorer fuel context a.query {})
      (some scorer, st))
    (hit : Settles (fun fuel => scorer.iterator fuel) it)
    (hshows : Shows it ids) (hdesc : ids.Pairwise fun a b => b < a)
    (queues : CollectorQueues σ a.sorter) (offset limit : UInt64) :
    ∃ top, Selects (sortsBefore context a) (offset + limit).toNat
        (matching context a ids) top ∧
      Sorted (sortsBefore context a) top ∧
      Settles (fun fuel => Searcher.doQuery fuel context a queues offset limit
        []) ⟨if !st.status.ok then st.status else {}, top.drop offset.toNat,
          a.getMatchTotalCnt.map
            (· + (matching context a ids).length.toUInt32)⟩ := by
  obtain ⟨q, hits, hids, hloaded, hsel, h⟩ := doQuery_answers hscore hread
    hscorer hit hshows hdesc queues offset limit
  have hweak : StrictWeakOn (collectedLess a.sorter) (queues.docs.items q) :=
    ((strictWeak_sorter a.sorter).comap _).on _
  have hperm := queues.docs.popped_perm hsel.length_le
  have hpopped := hsel.perm (hperm.symm.trans (List.reverse_perm _).symm)
  have hless : ∀ x ∈ hits, ∀ y ∈ hits, sortsBefore context a (idOf x)
      (idOf y) = collectedLess a.sorter x y := fun x hx y hy =>
    collectedLess_loaded hread (hloaded x hx) (hloaded y hy)
  have htop := @Selects.map _ _ _ _ _ _ idOf (sortsBefore context a) hpopped
    hless
  rw [hids] at htop
  refine ⟨_, htop, ?_, h⟩
  refine List.pairwise_map.2 ((queues.docs.popped_sorted
    hweak).imp_of_mem fun {x y} hx hy hxy => ?_)
  rw [hless y (hpopped.subset hy) x (hpopped.subset hx)]
  exact hxy

end Page

/-! ## Searches -/

/-- While a scorer is found, the status is OK or the one of a limit. -/
theorem running_of_scorer {q : Query} {scorer : Scorer} {st : ContextState}
    (h : Settles (fun fuel => getScorer fuel (quietContext config op table db)
      q {}) (some scorer, st)) :
    st.status = {} ∨ st.status.code = kReachMaxDocListSizeLimit := by
  obtain ⟨n, hn⟩ := h
  have hsame := @SameReads.getScorer config {} op table db db
    ((SameTable.refl table db).reads op) n q {} {} rfl rfl
  have hscorer : getScorer n (tableContext config {} op table db) q {} =
      some (some scorer, st) := hn n (Nat.le_refl n)
  rw [hscorer] at hsame
  cases hsame with
  | some hanswer =>
      have hrunning := (hanswer.running scorer rfl).1
      rw [Running, asideLimit] at hrunning
      split at hrunning
      · next hcode => exact .inr hcode
      · exact .inl hrunning

section Search

variable {σ : Type} [LT σ] [DecidableLT σ] [Zero σ] [Add σ]

/-- `DoQuery` hands on a status that is not OK. -/
theorem handedOn_eq_iff {status : SearchStatus} :
    (if !status.ok then status else {}) = {} ↔ status.ok = true := by
  cases hok : status.ok with
  | true => exact iff_of_true rfl rfl
  | false =>
      refine iff_of_false (fun h => ?_) Bool.false_ne_true
      rw [show status = {} from h] at hok
      exact Bool.false_ne_true hok.symm

/-- The status of a search is OK exactly if no prefix leaf of it reaches its
limit. -/
theorem search_status (hindex : ReadableIndex op db)
    (hread : ReadableDocValues (quietContext config op table db))
    {a : Searcher.QueryArgs σ} (hscore : a.scoreStrategyList = [])
    (hfit : PrefixesFit a.query) {queues : CollectorQueues σ a.sorter}
    {offset limit : UInt64} {r : Searcher.QueryResult}
    (hr : Settles (fun fuel => Searcher.doQuery fuel
      (quietContext config op table db) a queues offset limit []) r) :
    r.status = {} ↔ WithinLimits op table db a.query := by
  obtain ⟨scorer, st, it, start, ⟨n, hn⟩, hit, hstart, -⟩ :=
    @getScorer_within config op table db hindex a.query hfit {}
  obtain ⟨ids, hshows, hdesc, -⟩ := hstart.shows
  obtain ⟨top, -, -, hanswer⟩ := doQuery_selects hscore hread ⟨n, hn⟩ hit
    hshows hdesc queues offset limit
  have hstatus := getScorer_status hindex a.query hfit (hn n (Nat.le_refl n))
  rw [hr.unique hanswer]
  exact handedOn_eq_iff.trans (hstatus.trans (and_iff_right rfl))

/-- A search on lists and doc values that can be read. -/
theorem search_readable (hindex : ReadableIndex op db)
    (hread : ReadableDocValues (quietContext config op table db))
    (a : Searcher.QueryArgs σ) (hscore : a.scoreStrategyList = [])
    (hfit : TermsFit a.query) (queues : CollectorQueues σ a.sorter)
    (offset limit : UInt64) :
    let context := quietContext config op table db
    ∃ r ids, Settles (fun fuel => Searcher.doQuery fuel context a queues offset
        limit []) r ∧
      (r.status = {} ∨ r.status.code = kReachMaxDocListSizeLimit) ∧
      ids.Pairwise (fun a b => b < a) ∧
      (∀ d ∈ ids, d ∈ denote op table db a.query) ∧
      (r.status = {} → ∀ d ∈ denote op table db a.query, d ∈ ids) ∧
      SoundPage context a limit (denote op table db a.query) r.docs ∧
      (offset.toNat + limit.toNat < 2 ^ 64 →
        PageOf context a offset limit ids r) := by
  intro context
  have hprefixes := hfit.prefixesFit
  obtain ⟨scorer, st, it, start, hscorer, hit, hstart, hsub⟩ :=
    @getScorer_within config op table db hindex a.query hprefixes {}
  obtain ⟨scorer', st', it', start', hscorer', hit', hstart', hok⟩ :=
    @getScorer_scores config op table db hindex a.query hprefixes {}
  -- both speak of the one scorer that there is
  obtain ⟨hsame, rfl⟩ := Prod.mk.inj (hscorer.unique hscorer')
  obtain rfl := Option.some.inj hsame
  obtain rfl := hit.unique hit'
  obtain ⟨ids, hshows, hdesc, hmem⟩ := hstart.shows
  obtain ⟨top, hsel, hsorted, hanswer⟩ := doQuery_selects hscore hread hscorer
    hit hshows hdesc queues offset limit
  have hids : ∀ d ∈ ids, d ∈ denote op table db a.query :=
    fun d hd => hsub ((hmem d).1 hd)
  have hstatus := running_of_scorer hscorer
  refine ⟨_, ids, hanswer, ?_, hdesc, hids, fun hempty d hd => ?_,
    soundPage_selects hsel hdesc hids, fun hpage =>
      pageOf_selects hpage hsel hsorted⟩
  · show (if !st.status.ok then st.status else {}) = {} ∨
      (if !st.status.ok then st.status else {}).code = _
    split
    · exact hstatus
    · exact .inl rfl
  · rw [hmem, ← hstart.ids_eq, hstart'.ids_eq, (hok (handedOn_eq_iff.1 hempty)).2]
    exact hd

theorem Written.search_status {docs : DocumentID → Option Document}
    (h : Written config table db docs) {a : Searcher.QueryArgs σ}
    (hscore : a.scoreStrategyList = []) (hfit : TermsFit a.query)
    {queues : CollectorQueues σ a.sorter} {offset limit : UInt64}
    {r : Searcher.QueryResult} (hr : Settles (fun fuel => Searcher.doQuery fuel
      (quietContext config op table db) a queues offset limit []) r) :
    r.status = {} ↔ WithinLimits op table db a.query :=
  Spec.search_status (h.readableIndex op) (h.readableDocValues op) hscore
    hfit.prefixesFit hr

/-- A search on a table that was written. -/
theorem Written.search {docs : DocumentID → Option Document}
    (h : Written config table db docs) (op : DocListMergeOperator)
    (a : Searcher.QueryArgs σ) (hscore : a.scoreStrategyList = [])
    (hfit : TermsFit a.query) (queues : CollectorQueues σ a.sorter)
    (offset limit : UInt64) :
    let context := quietContext config op table db
    ∃ r ids, Settles (fun fuel => Searcher.doQuery fuel context a queues offset
        limit []) r ∧
      (r.status = {} ∨ r.status.code = kReachMaxDocListSizeLimit) ∧
      ids.Pairwise (fun a b => b < a) ∧
      (∀ d ∈ ids, d ∈ denote op table db a.query) ∧
      (r.status = {} → ∀ d ∈ denote op table db a.query, d ∈ ids) ∧
      SoundPage context a limit (denote op table db a.query) r.docs ∧
      (offset.toNat + limit.toNat < 2 ^ 64 →
        PageOf context a offset limit ids r) :=
  search_readable (h.readableIndex op) (h.readableDocValues op) a hscore hfit
    queues offset limit

end Search

end Wwsearch.Spec
