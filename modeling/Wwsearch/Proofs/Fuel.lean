import Wwsearch.Lib.Settles
import Wwsearch.Ref.Collector

/-!
# Fuel is bookkeeping

The calls of an iterator, the scorers and `DoQuery` take fuel and may run out of
it. What they answer they go on to answer with more, so an answer for one
amount of fuel is the answer (`doQuery_settles`).
-/

namespace Wwsearch.Ref

open Wwsearch.Lib

namespace DocIdSetIterator

/-- The three loops together, because they call each other. -/
theorem calls_extend (fuel : Nat) :
    (∀ c, Extends (call fuel c) (call (fuel + 1) c)) ∧
    Extends (mergeLoop fuel) (mergeLoop (fuel + 1)) ∧
    ∀ c target, Extends (orLoop fuel c target) (orLoop (fuel + 1) c target) := by
  induction fuel with
  | zero =>
      refine ⟨fun c it y h => ?_, fun sub y h => ?_, fun c target sub y h => ?_⟩
      · rw [call] at h
        exact nomatch h
      · rw [mergeLoop] at h
        exact nomatch h
      · rw [orLoop] at h
        exact nomatch h
  | succ fuel ih =>
      obtain ⟨hcall, hmerge, hor⟩ := ih
      refine ⟨fun c it y h => ?_, fun sub y h => ?_, fun c target sub y h => ?_⟩
      · cases it with
        | reader r => cases c <;> rw [call] at h ⊢ <;> exact h
        | merge sub curr fieldId =>
            rw [call] at h ⊢
            exact Extends.bind (fun _ => (hcall c).mapM) hmerge h
        | or sub =>
            cases c with
            | nextDoc =>
                rw [call] at h ⊢
                split at h
                · next hzero => rw [if_pos hzero]; exact h
                · next hzero => rw [if_neg hzero]; exact hor _ _ _ _ h
            | advance target =>
                rw [call] at h ⊢
                exact hor _ _ _ _ h
      · rw [mergeLoop] at h ⊢
        split at h
        · exact h
        · refine Extends.bind (fun _ => Extends.mapM fun it it' hit => ?_)
            hmerge h
          split at hit
          · next hlt => rw [if_pos hlt]; exact hcall _ _ _ hit
          · next hlt => rw [if_neg hlt]; exact hit
      · cases sub with
        | nil => rw [orLoop] at h ⊢; exact h
        | cons front rest =>
            rw [orLoop] at h ⊢
            split at h
            · next hpast =>
                rw [if_pos hpast]
                exact Extends.bind (hcall c _) (fun _ => hor _ _ _) h
            · next hpast => rw [if_neg hpast]; exact h

theorem call_extends (fuel : Nat) (c : Call) :
    Extends (call fuel c) (call (fuel + 1) c) := (calls_extend fuel).1 c

theorem enumerate_extends (fuel : Nat) :
    Extends (enumerate fuel) (enumerate (fuel + 1)) := by
  induction fuel with
  | zero => intro it ids h; exact nomatch h
  | succ fuel ih =>
      intro it ids h
      rw [enumerate] at h ⊢
      split at h
      · next hzero => rw [if_pos hzero]; exact h
      · next hzero =>
          rw [if_neg hzero]
          exact Extends.bind (call_extends fuel _ it)
            (fun next _ => Extends.bind (ih next) fun _ _ h => h) h

end DocIdSetIterator

theorem Scorer.iterator_extends (fuel : Nat) :
    Extends (Scorer.iterator fuel) (Scorer.iterator (fuel + 1)) := by
  intro scorer it h
  cases scorer with
  | booleanScorer iterator => exact h
  | prefixScorer iterator => exact h
  | andScorer sub => exact DocIdSetIterator.call_extends fuel _ _ _ h
  | orScorer sub => exact h

mutual

theorem getScorer_extends (fuel : Nat) (context : SearchContext) : ∀ q,
    Extends (getScorer fuel context q) (getScorer (fuel + 1) context q)
  | .booleanQuery f value => fun st r h => by
      rw [getScorer] at h ⊢
      exact h
  | .prefixQuery f start limit => fun st r h => by
      rw [getScorer] at h ⊢
      exact h
  | .andQuery sub => fun st r h => by
      rw [getScorer] at h ⊢
      exact Extends.bind (addScorers_extends fuel context sub st)
        (fun _ _ h => h) h
  | .orQuery sub => fun st r h => by
      rw [getScorer] at h ⊢
      exact Extends.bind (addScorers_extends fuel context sub st)
        (fun _ _ h => h) h

theorem addScorers_extends (fuel : Nat) (context : SearchContext) : ∀ sub,
    Extends (addScorers fuel context sub) (addScorers (fuel + 1) context sub)
  | [] => fun st r h => by
      rw [addScorers] at h ⊢
      exact h
  | q :: sub => fun st r h => by
      rw [addScorers] at h ⊢
      refine Extends.bind (getScorer_extends fuel context q st)
        (fun r y hr => ?_) h
      obtain ⟨_ | scorer, st⟩ := r
      · exact hr
      · exact Extends.bind (Scorer.iterator_extends fuel scorer)
          (fun it _ => Extends.bind (addScorers_extends fuel context sub st)
            fun _ _ h => h) hr

end

variable {σ : Type} [LT σ] [DecidableLT σ] [Zero σ] [Add σ]

namespace Searcher

theorem collectLoop_extends (p : CollectorParams σ)
    {queues : CollectorQueues σ p.sorter} (fuel : Nat) (it : DocIdSetIterator) :
    Extends (@collectLoop σ _ _ _ _ p queues fuel it)
      (collectLoop p (fuel + 1) it) := by
  induction fuel generalizing it with
  | zero => intro c y h; exact nomatch h
  | succ fuel ih =>
      intro c y h
      rw [collectLoop] at h ⊢
      split at h
      · next hmore =>
          rw [if_pos hmore]
          refine Extends.bind (fun _ h => h) (fun c y hc => ?_) h
          exact Extends.bind (DocIdSetIterator.call_extends fuel _ it)
            (fun it => ih it c) hc
      · next hmore => rw [if_neg hmore]; exact h

/-- One answer of `DoQuery` is the answer. -/
theorem doQuery_settles {context : SearchContext} {a : QueryArgs σ}
    {queues : CollectorQueues σ a.sorter} {offset limit : UInt64}
    {docs : List DocumentID} {r : QueryResult} (enough : Nat)
    (h : doQuery enough context a queues offset limit docs = some r) :
    Settles (fun fuel => doQuery fuel context a queues offset limit docs) r := by
  refine Settles.of_extends (f := fun fuel (_ : Unit) =>
    doQuery fuel context a queues offset limit docs) (fun fuel _ r h => ?_)
    (x := ()) h
  rw [doQuery] at h ⊢
  refine Extends.bind (getScorer_extends fuel context a.query {})
    (fun s y hs => ?_) h
  obtain ⟨_ | scorer, st⟩ := s
  · exact hs
  · refine Extends.bind (Scorer.iterator_extends fuel scorer)
      (fun it r hr => ?_) hs
    exact Extends.bind (collectLoop_extends (CollectorParams.new context offset
      limit a.filter a.sorter a.scoreStrategyList a.maxScoreDocNum
      a.minMatchFilterNum) fuel it _) (fun _ _ h => h) hr

end Searcher

end Wwsearch.Ref
