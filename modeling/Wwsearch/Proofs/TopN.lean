import Wwsearch.Proofs.Paging
import Wwsearch.Spec.TopN

/-!
# The collector answers with the page

Where the counts of the filters fit, what matches is what is specified, and the
answer is a window in the sorted list of it (`doQuery_window`). Where one
document is judged differently, the page of everything already shows it: it has
what matches, not what is specified. Fewer than `2 ^ 32` filters always fit.
-/

namespace Wwsearch.Spec

open Wwsearch.Lib Wwsearch.Ref Wwsearch.Ref.TopNCollector
open Wwsearch.Ref.DocIdSetIterator (call enumerate)

/-! ## The stream -/

/-- An iterator that can be enumerated shows what the enumeration has. -/
theorem shows_of_enumerate {it : DocIdSetIterator} {ids : List DocumentID}
    (h : Settles (fun fuel => enumerate fuel it) ids) : Shows it ids := by
  obtain ⟨enough, h⟩ := h
  induction ids generalizing it enough with
  | nil =>
      have hlast : enumerate (enough + 1) it = some [] :=
        h (enough + 1) (Nat.le_succ enough)
      rw [enumerate] at hlast
      split at hlast
      · next hzero => exact .done hzero
      · obtain ⟨next, -, hlast⟩ := Option.bind_eq_some_iff.1 hlast
        obtain ⟨rest, -, hlast⟩ := Option.bind_eq_some_iff.1 hlast
        exact absurd (Option.some.inj hlast) (List.cons_ne_nil _ _)
  | cons d ids ih =>
      have hfirst : ∀ fuel, enough ≤ fuel → it.docID ≠ noMoreDocs ∧
          it.docID = d ∧ ∃ next, call fuel .nextDoc it = some next ∧
            enumerate fuel next = some ids := by
        intro fuel hfuel
        have hstep : enumerate (fuel + 1) it = some (d :: ids) :=
          h (fuel + 1) (Nat.le_succ_of_le hfuel)
        rw [enumerate] at hstep
        split at hstep
        · exact absurd (Option.some.inj hstep).symm (List.cons_ne_nil _ _)
        · next hne =>
            obtain ⟨next, hnext, hstep⟩ := Option.bind_eq_some_iff.1 hstep
            obtain ⟨rest, hrest, hstep⟩ := Option.bind_eq_some_iff.1 hstep
            obtain ⟨hd, rfl⟩ := List.cons.inj (Option.some.inj hstep)
            exact ⟨hne, hd, next, hnext, hrest⟩
      obtain ⟨hne, rfl, next, hnext, -⟩ := hfirst enough (Nat.le_refl enough)
      have hsettles : Settles (fun fuel => call fuel .nextDoc it) next :=
        Settles.of_extends (fun fuel => DocIdSetIterator.call_extends fuel _)
          hnext
      obtain ⟨m, hm⟩ := hsettles
      refine .next hne ⟨m, hm⟩ (ih (max enough m) fun fuel hfuel => ?_)
      obtain ⟨-, -, next', hnext', hrest⟩ :=
        hfirst fuel ((Nat.le_max_left enough m).trans hfuel)
      have hsame := (hm fuel ((Nat.le_max_right enough m).trans hfuel)).symm.trans
        hnext'
      rw [Option.some.inj hsame]
      exact hrest

/-- What one amount of fuel reads off an iterator, it reads off the iterator
that the query comes to. -/
theorem settles_of_eval {α : Type} {context : SearchContext} {q : Query}
    {read : DocIdSetIterator → Option α} {x : α} (fuel : Nat)
    (h : ((getScorer fuel context q {}).bind fun r => r.1.bind fun scorer =>
      (scorer.iterator fuel).bind read) = some x) :
    ∃ scorer st it,
      Settles (fun fuel => getScorer fuel context q {}) (some scorer, st) ∧
      Settles (fun fuel => scorer.iterator fuel) it ∧ read it = some x := by
  obtain ⟨⟨scorer?, st⟩, hscorer, h⟩ := Option.bind_eq_some_iff.1 h
  obtain ⟨scorer, hsome, h⟩ := Option.bind_eq_some_iff.1 h
  obtain ⟨it, hit, h⟩ := Option.bind_eq_some_iff.1 h
  dsimp only at hsome
  rw [hsome] at hscorer
  exact ⟨scorer, st, it,
    Settles.of_extends (fun fuel => getScorer_extends fuel context q) hscorer,
    Settles.of_extends Scorer.iterator_extends hit, h⟩

/-- What one amount of fuel enumerates is what the query shows. -/
theorem enumerates_of_eval {context : SearchContext} {q : Query}
    {ids : List DocumentID} (fuel : Nat)
    (h : ((getScorer fuel context q {}).bind fun r => r.1.bind fun scorer =>
      (scorer.iterator fuel).bind (enumerate fuel)) = some ids) :
    Enumerates context q ids := by
  obtain ⟨scorer, st, it, hscorer, hit, h⟩ := settles_of_eval fuel h
  exact ⟨scorer, st, it, hscorer, hit,
    Settles.of_extends DocIdSetIterator.enumerate_extends h⟩

/-! ## The counts -/

variable {σ : Type} {context : SearchContext} {a : Searcher.QueryArgs σ}
  {ids : List DocumentID}

theorem lookedAt_eq_take (hlimit :
      context.config.maxInnerPurgeDocsTotalLimit ≠ 0xFFFFFFFF) :
    lookedAt context ids =
      ids.take (context.config.maxInnerPurgeDocsTotalLimit.toNat + 1) :=
  if_neg hlimit

/-- The number of filters to pass, as the collector has it. -/
theorem toNat_minMatchFilterNum {rules : List Filter}
    (hfilter : a.filter = some rules) (hlen : rules.length < 2 ^ 32) :
    (pageParams context a 0 0).minMatchFilterNum.toNat =
      neededFilters rules a.minMatchFilterNum := by
  simp only [pageParams, CollectorParams.new, hfilter, neededFilters]
  split
  · exact UInt32.toNat_ofNat_of_lt' hlen
  · rfl

/-- Fewer than `2 ^ 32` filters are counted right. -/
theorem countsFit_of_length (h : ∀ rules, a.filter = some rules →
    rules.length < 2 ^ 32) : CountsFit context a ids := by
  intro d _
  cases hfilter : a.filter with
  | none => rfl
  | some rules =>
      have hlen := h rules hfilter
      have hcount : (rules.countP fun rule => rule.matchField
          ((docValues context d).findField rule.fieldId)).toUInt32.toNat =
            rules.countP fun rule => rule.matchField
              ((docValues context d).findField rule.fieldId) :=
        UInt32.toNat_ofNat_of_lt' (List.countP_le_length.trans_lt hlen)
      rw [matchFilter, passes, ← toNat_minMatchFilterNum hfilter hlen]
      exact decide_eq_decide.2 (UInt32.le_iff_toNat_le.trans (by rw [hcount]))

theorem matching_eq_specified (hlimit :
      context.config.maxInnerPurgeDocsTotalLimit ≠ 0xFFFFFFFF)
    (h : CountsFit context a ids) :
    matching context a ids = specified context a ids := by
  rw [matching, specified, ← lookedAt_eq_take hlimit]
  exact List.filter_congr h

/-- The total grows by a number that fits. -/
theorem length_specified_lt (hlimit :
      context.config.maxInnerPurgeDocsTotalLimit ≠ 0xFFFFFFFF) :
    (specified context a ids).length < 2 ^ 32 := by
  have hle := context.config.maxInnerPurgeDocsTotalLimit.toNat_lt
  have hne : context.config.maxInnerPurgeDocsTotalLimit.toNat ≠
      (0xFFFFFFFF : UInt32).toNat := fun h => hlimit (UInt32.toNat_inj.1 h)
  have hval : (0xFFFFFFFF : UInt32).toNat = 2 ^ 32 - 1 := rfl
  have hlen := (List.filter_sublist (l := ids.take
    (context.config.maxInnerPurgeDocsTotalLimit.toNat + 1)) (p := fun d =>
      passes a.filter a.minMatchFilterNum (docValues context d))).length_le
  rw [List.length_take] at hlen
  rw [specified]
  omega

/-- Without sort conditions nothing ties. -/
theorem noTies_of_no_sorter (hread : ReadableDocValues context)
    (hsorter : a.sorter = none) {docs : List DocumentID}
    (hdesc : docs.Pairwise fun a b => b < a) :
    NoTies (sortsBefore context a) docs := by
  refine hdesc.imp fun {d e} hlt => .inl ?_
  rw [sortsBefore, hsorter, sorter, (hread d).2, (hread e).2]
  exact decide_eq_true hlt

/-! ## The page -/

variable [LT σ] [DecidableLT σ] [Zero σ] [Add σ]

section Pages

variable (hscore : a.scoreStrategyList = [])
  (hread : ReadableDocValues context)
  (hlimit : context.config.maxInnerPurgeDocsTotalLimit ≠ 0xFFFFFFFF)
  (hids : Enumerates context a.query ids)
  (hdesc : ids.Pairwise fun a b => b < a)

include hscore hread hlimit hids hdesc

theorem answersPages_of_countsFit
    (hties : NoTies (sortsBefore context a) (specified context a ids))
    (hfit : CountsFit context a ids) :
    AnswersPages context a (specified context a ids) := by
  obtain ⟨scorer, st, it, hscorer, hit, hshows⟩ := hids
  rw [← matching_eq_specified hlimit hfit] at hties ⊢
  obtain ⟨s, hs, hsorted⟩ := (listQueue _).exists_sorted
    ((strictWeak_sortsBefore context a).on (matching context a ids))
  exact ⟨s, hs, hsorted, fun queues _ _ => doQuery_window hscore hread hscorer
    hit (shows_of_enumerate hshows) hdesc hties hs hsorted queues⟩

/-- The page of everything has what matches. -/
theorem countsFit_of_answersPages
    (h : AnswersPages context a (specified context a ids)) :
    CountsFit context a ids := by
  obtain ⟨scorer, st, it, hscorer, hit, hshows⟩ := hids
  obtain ⟨s, hs, -, hpages⟩ := h
  have hlooked := @lookedAt_eq_take context ids hlimit
  have htake : (lookedAt context ids).length ≤ 2 ^ 32 := by
    have hlt := context.config.maxInnerPurgeDocsTotalLimit.toNat_lt
    rw [hlooked, List.length_take]
    omega
  have hall : (2 ^ 32 : UInt64).toNat = 2 ^ 32 := by decide
  let queues : CollectorQueues σ a.sorter := ⟨listQueue _, listQueue _⟩
  obtain ⟨status, hpage⟩ := hpages queues 0 (2 ^ 32) (by decide)
  obtain ⟨q, hits, hhits, -, hsel, hpage'⟩ := page_of_shows hscore hread hscorer
    hit (shows_of_enumerate hshows) hdesc queues 0 (2 ^ 32)
  have hmatch : hits.length ≤ 2 ^ 32 := by
    rw [← List.length_map (f := idOf), hhits]
    exact List.filter_sublist.length_le.trans htake
  have hperm : (matching context a ids).Perm (specified context a ids) := by
    have hpage : Page context a queues 0 (2 ^ 32) _ := ⟨status, _, hpage⟩
    have heq := hpage.unique hpage'
    have hslen : s.length ≤ 2 ^ 32 := by
      rw [hs.length_eq, specified, ← hlooked]
      exact List.filter_sublist.length_le.trans htake
    have hzero : ((0 : UInt64) + 2 ^ 32).toNat = 2 ^ 32 := by decide
    rw [hzero] at heq hsel
    rw [show (0 : UInt64).toNat = 0 from rfl, List.drop_zero, List.drop_zero,
      hall, List.take_of_length_le hslen] at heq
    have hpopped := (queues.docs.popped_perm hsel.length_le).trans
      (hsel.perm_of_le hmatch)
    rw [← hhits]
    refine ((((List.reverse_perm _).trans hpopped).map idOf).symm).trans ?_
    rw [← heq]
    exact hs
  intro d hd
  have hiff : d ∈ matching context a ids ↔ d ∈ specified context a ids :=
    hperm.mem_iff
  rw [matching, specified, ← hlooked, List.mem_filter, List.mem_filter] at hiff
  exact Bool.eq_iff_iff.2 ⟨fun h => (hiff.1 ⟨hd, h⟩).2,
    fun h => (hiff.2 ⟨hd, h⟩).2⟩

end Pages

/-- **The collector returns the page that is asked for**, exactly if the
counts of the filters fit: for any stream, limit, batch size, filters and sort
conditions without ties. The total fits as well. -/
theorem answersPages_iff (hscore : a.scoreStrategyList = [])
    (hread : ReadableDocValues context)
    (hlimit : context.config.maxInnerPurgeDocsTotalLimit ≠ 0xFFFFFFFF)
    (hids : Enumerates context a.query ids)
    (hdesc : ids.Pairwise fun a b => b < a)
    (hties : NoTies (sortsBefore context a) (specified context a ids)) :
    (AnswersPages context a (specified context a ids) ↔
      CountsFit context a ids) ∧
    (specified context a ids).length < 2 ^ 32 ∧
    ((∀ rules, a.filter = some rules → rules.length < 2 ^ 32) →
      CountsFit context a ids) :=
  ⟨⟨countsFit_of_answersPages hscore hread hlimit hids hdesc,
    answersPages_of_countsFit hscore hread hlimit hids hdesc hties⟩,
    length_specified_lt hlimit, countsFit_of_length⟩

/-! ## Five documents and `2 ^ 32` filters -/

/-- The query for the term, without sort conditions, with the total. -/
def countedArgs (filter : Option (List Filter)) : Searcher.QueryArgs Nat where
  query := .booleanQuery 3 (.term [97])
  filter
  getMatchTotalCnt := some 0

theorem tiedDocs_enumerates :
    Enumerates (quietContext spaceConfig millionOperator ⟨1, 2⟩ tiedDocs)
      (.booleanQuery 3 (.term [97])) [5, 4, 3, 2, 1] :=
  enumerates_of_eval 30 (by decide +kernel)

theorem tiedDocs_readable :
    ReadableDocValues (quietContext spaceConfig millionOperator ⟨1, 2⟩
      tiedDocs) :=
  readableDocValues_of_entries (by decide +kernel)

theorem answersPages_iff_tiedDocs :
    (AnswersPages (quietContext spaceConfig millionOperator ⟨1, 2⟩ tiedDocs)
        (countedArgs none) (specified (quietContext spaceConfig millionOperator
          ⟨1, 2⟩ tiedDocs) (countedArgs none) [5, 4, 3, 2, 1]) ↔
      CountsFit (quietContext spaceConfig millionOperator ⟨1, 2⟩ tiedDocs)
        (countedArgs none) [5, 4, 3, 2, 1]) ∧
    (specified (quietContext spaceConfig millionOperator ⟨1, 2⟩ tiedDocs)
      (countedArgs none) [5, 4, 3, 2, 1]).length < 2 ^ 32 ∧
    ((∀ rules, (countedArgs none).filter = some rules →
        rules.length < 2 ^ 32) →
      CountsFit (quietContext spaceConfig millionOperator ⟨1, 2⟩ tiedDocs)
        (countedArgs none) [5, 4, 3, 2, 1]) :=
  answersPages_iff rfl tiedDocs_readable (by decide) tiedDocs_enumerates
    (by decide) (noTies_of_no_sorter tiedDocs_readable rfl
      (List.Pairwise.sublist List.filter_sublist (by decide)))

/-- A filter that lets nothing through. -/
def rejectAll : Filter := ⟨4, fun _ => false⟩

theorem matchFilter_rejectAll {n : Nat} {doc : Document}
    (hn : n.toUInt32 = 0) :
    matchFilter (some (List.replicate n rejectAll)) n.toUInt32 doc = true := by
  rw [hn, matchFilter]
  exact decide_eq_true UInt32.zero_le

theorem passes_rejectAll {n : Nat} {doc : Document} (hn : n ≠ 0) :
    passes (some (List.replicate n rejectAll)) 0 doc = false := by
  have hnone : (List.replicate n rejectAll).countP (fun rule =>
      rule.matchField (doc.findField rule.fieldId)) = 0 :=
    List.countP_eq_zero.2 fun rule hrule => by
      rw [(List.mem_replicate.1 hrule).2]
      exact Bool.false_ne_true
  rw [passes, hnone, neededFilters, if_pos (.inl rfl), List.length_replicate]
  exact decide_eq_false (by omega)

/-- With `2 ^ 32` filters all of which have to pass, and none of which does,
the 32-bit counts are both zero, and everything passes. -/
theorem manyFilters_let_through :
    Enumerates (quietContext spaceConfig millionOperator ⟨1, 2⟩ tiedDocs)
      (countedArgs (some (List.replicate (2 ^ 32) rejectAll))).query
        [5, 4, 3, 2, 1] ∧
    ¬ AnswersPages (quietContext spaceConfig millionOperator ⟨1, 2⟩ tiedDocs)
      (countedArgs (some (List.replicate (2 ^ 32) rejectAll)))
      (specified (quietContext spaceConfig millionOperator ⟨1, 2⟩ tiedDocs)
        (countedArgs (some (List.replicate (2 ^ 32) rejectAll)))
        [5, 4, 3, 2, 1]) := by
  refine ⟨tiedDocs_enumerates, fun h => ?_⟩
  have hfit := countsFit_of_answersPages rfl tiedDocs_readable (by decide)
    tiedDocs_enumerates (by decide) h 5 (by decide)
  have hmin : (pageParams (quietContext spaceConfig millionOperator ⟨1, 2⟩
      tiedDocs) (countedArgs (some (List.replicate (2 ^ 32) rejectAll))) 0
        0).minMatchFilterNum = (2 ^ 32 : Nat).toUInt32 := by
    simp only [pageParams, CollectorParams.new, countedArgs, true_or, if_true,
      List.length_replicate]
  rw [hmin] at hfit
  exact absurd (((matchFilter_rejectAll (by decide)).symm.trans hfit).trans
    (passes_rejectAll (by decide))) (by decide)

end Wwsearch.Spec
