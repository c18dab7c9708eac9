import Wwsearch.Proofs.InvertedColumn
import Wwsearch.Spec.Concurrency

/-!
# Writers that disturb each other

Both steps of a call at once are the call (`perform_writers`), so an
undisturbed run of any number of clients is a serial one, and keeps what serial
runs keep: the table stays consistent, and an id that was added is not added
again until it has been deleted (`undisturbed_consistent`).

Nothing in the writer sees to it that a run is undisturbed. Two writers of one
document that both read before either of them flushes leave its id in the list
of a term that no record has (`two_updates_leave_ghost`), and both of two adds
return true (`two_adds_succeed`).
-/

namespace Wwsearch.Spec

open Wwsearch.Lib Wwsearch.Ref Wwsearch.Ref.DocumentWriter

variable {ι : Type} {config : IndexConfig} {op : DocListMergeOperator}
  {table : TableID} {calls : ι → WriteCall} {db : VirtualDB}

theorem perform_writers {calls : ι → BatchCall} (i : ι) :
    (writers config op table calls).perform i db =
      (((calls i).perform config op table db).db,
        returned ((calls i).perform config op table db)) := rfl

theorem serial_writers {calls : ι → BatchCall} (order : List ι) :
    (writers config op table calls).serial db order =
      BatchCall.runAll config op table db (order.map calls) := by
  rw [BatchCall.runAll, List.foldl_map]
  rfl

theorem runAll_batch (calls : List WriteCall) :
    BatchCall.runAll config op table db (calls.map WriteCall.batch) =
      runCalls config op table db calls :=
  List.foldl_map

/-! ## Ids that were added -/

theorem WriteCall.documentFor_isSome {c : WriteCall} {d : DocumentID} :
    (c.documentFor d).isSome ↔ c.Writes d := by
  simp [documentFor, Writes]

/-- A call that does not delete a document leaves it stored. -/
theorem isSome_nextDocuments {docs : DocumentID → Option Document}
    {c : WriteCall} {d : DocumentID} (hdocs : (docs d).isSome)
    (hkeep : ¬ (c.mode = .delete ∧ c.Writes d)) :
    (nextDocuments config c docs d).isSome := by
  rw [nextDocuments]
  split
  · exact hdocs
  · next document hfor =>
      have hmode : c.mode ≠ .delete := fun h =>
        hkeep ⟨h, c.documentFor_isSome.1 (by rw [hfor]; rfl)⟩
      rw [nextDocument, if_neg hmode]
      rfl

/-- A table whose records are those of some documents, with one for `d`. -/
def HasRecord (config : IndexConfig) (table : TableID) (d : DocumentID)
    (db : VirtualDB) : Prop :=
  ∃ docs, Keeps config table db docs ∧ (docs d).isSome

theorem HasRecord.runCalls {d : DocumentID} {calls : List WriteCall}
    (h : HasRecord config table d db)
    (hkeep : ∀ c ∈ calls, ¬ (c.mode = .delete ∧ c.Writes d)) :
    HasRecord config table d (runCalls config op table db calls) := by
  refine runCalls_induction ?_ h
  rintro db ⟨docs, hkeeps, hdocs⟩ c hc hadm
  exact ⟨_, keeps_applyAll hkeeps hadm,
    isSome_nextDocuments hdocs (hkeep c hc)⟩

/-- An add that returns true and flushes leaves a record. -/
theorem hasRecord_perform {c : WriteCall} {d : DocumentID}
    {docs : DocumentID → Option Document} (hkeeps : Keeps config table db docs)
    (hmode : c.mode ≠ .delete) (hdirect : c.storeBuffer = none)
    (hd : c.Writes d) (hok : (c.perform config op table db).ok = true) :
    HasRecord config table d (c.perform config op table db).db := by
  obtain ⟨hadm, hwrite, -⟩ := perform_ok hok
  rw [hwrite hdirect]
  refine ⟨_, keeps_applyAll hkeeps hadm, ?_⟩
  obtain ⟨document, hfor⟩ :=
    Option.isSome_iff_exists.1 (c.documentFor_isSome.2 hd)
  rw [nextDocuments_of_some hfor, nextDocument, if_neg hmode]
  rfl

/-- An add of an id that has a record returns false. -/
theorem HasRecord.not_added {c : WriteCall} {d : DocumentID}
    (h : HasRecord config table d db) (hmode : c.mode = .add)
    (hd : c.Writes d) : (c.perform config op table db).ok = false := by
  by_contra hok
  obtain ⟨hadm, -, -⟩ := perform_ok (Bool.not_eq_false _ ▸ hok)
  obtain ⟨docs, hkeeps, hdocs⟩ := h
  obtain ⟨document, hdoc, rfl⟩ := List.mem_map.1 hd
  have habsent := (hadm document hdoc).absent hmode
  rw [hkeeps.storedDocument, Option.map_eq_none_iff] at habsent
  rw [habsent] at hdocs
  exact Bool.false_ne_true hdocs

/-- An id that one call has added and a later one adds again was deleted in
between. -/
theorem deleted_between {before between : List ι} {i j : ι} {d : DocumentID}
    (hkeeps : ∃ docs, Keeps config table
      (runCalls config op table db (before.map calls)) docs)
    (hmode : (calls i).mode = .add ∧ (calls j).mode = .add)
    (hdirect : (calls i).storeBuffer = none)
    (hd : (calls i).Writes d ∧ (calls j).Writes d)
    (hi : ((calls i).perform config op table
      (runCalls config op table db (before.map calls))).ok = true)
    (hj : ((calls j).perform config op table (runCalls config op table db
      ((before ++ i :: between).map calls))).ok = true) :
    ∃ k ∈ between, (calls k).mode = .delete ∧ (calls k).Writes d := by
  by_contra hno
  obtain ⟨docs, hkeeps⟩ := hkeeps
  have hadded := hasRecord_perform hkeeps (hmode.1 ▸ by decide) hdirect hd.1 hi
  have hkept := @HasRecord.runCalls config op table _ _ (between.map calls)
    hadded fun c hc hdel => by
      obtain ⟨k, hk, rfl⟩ := List.mem_map.1 hc
      exact hno ⟨k, hk, hdel⟩
  have hsplit : runCalls config op table db
      ((before ++ i :: between).map calls) =
        runCalls config op table ((calls i).perform config op table
          (runCalls config op table db (before.map calls))).db
            (between.map calls) := by
    simp only [runCalls, List.map_append, List.map_cons, List.foldl_append,
      List.foldl_cons]
  rw [hsplit, hkept.not_added hmode.2 hd.2] at hj
  exact Bool.false_ne_true hj

/-! ## Undisturbed runs -/

theorem serial_freshWriters (order : List ι) :
    (freshWriters config op table calls).serial db order =
      runCalls config op table db (order.map calls) := by
  rw [freshWriters, serial_writers, ← runAll_batch, List.map_map]
  rfl

theorem succeeded_of_done {s : VirtualDB}
    {w : TwoPhase.World ι VirtualDB BatchPlan Returned} {i : ι}
    (h : (freshWriters config op table calls).Serializes s w)
    (hi : succeeded w i = true) : ∃ before after,
      w.flushed = before ++ i :: after ∧
      ((calls i).perform config op table
        (runCalls config op table s (before.map calls))).ok = true := by
  rw [succeeded] at hi
  split at hi
  · next r hr =>
      obtain ⟨before, after, hflushed, rfl⟩ := h.result i r hr
      rw [serial_freshWriters] at hi
      exact ⟨before, after, hflushed, hi⟩
  · exact absurd hi Bool.false_ne_true
  · exact absurd hi Bool.false_ne_true

/-- Where two things stand in one list. -/
theorem split_or_split {order before after before' after' : List ι} {i j : ι}
    (hne : i ≠ j) (h : order = before ++ i :: after)
    (h' : order = before' ++ j :: after') :
    (∃ between, before' = before ++ i :: between ∧
      after = between ++ j :: after') ∨
    ∃ between, before = before' ++ j :: between ∧
      after' = between ++ i :: after := by
  rcases List.append_eq_append_iff.1 (h.symm.trans h') with
    ⟨m, hm, hrest⟩ | ⟨m, hm, hrest⟩
  · cases m with
    | nil => exact absurd (List.cons.inj hrest).1 hne
    | cons x m =>
        obtain ⟨rfl, hafter⟩ := List.cons.inj hrest
        exact .inl ⟨m, hm, hafter⟩
  · cases m with
    | nil => exact absurd (List.cons.inj hrest).1 hne.symm
    | cons x m =>
        obtain ⟨rfl, hafter⟩ := List.cons.inj hrest
        exact .inr ⟨m, hm, hafter⟩

theorem sublist_of_between {x y k : ι} {before between after : List ι}
    (h : k ∈ between) :
    [x, k, y].Sublist (before ++ x :: (between ++ y :: after)) := by
  refine List.sublist_append_of_sublist_right (.cons_cons x ?_)
  exact (List.singleton_sublist.2 h).append
    (.cons_cons y (List.nil_sublist after))

variable [DecidableEq ι]

/-- Clients that write one table from a consistent state, in any order of
their steps in which every flush still finds the records that its call has
read. The table is consistent in every state: an id is in the list of a term
if and only if its stored record is indexed under the term. And two calls that
add the same id do not both return true, unless a call that deletes it takes
effect between them. -/
theorem undisturbed_consistent (config : IndexConfig)
    (op : DocListMergeOperator) (table : TableID) (calls : ι → WriteCall)
    (db : VirtualDB) (hdb : Consistent config table db)
    (hread : ∀ i, (calls i).mode ≠ .addWithoutRead)
    (hflags : ∀ i, ∀ document ∈ (calls i).documents, ∀ field ∈ document.fields,
      field.flag.notStoreInvertTerm = false)
    (es : List (TwoPhase.Event ι))
    (hes : (freshWriters config op table calls).Undisturbed (.start db) es) :
    let w := (freshWriters config op table calls).run (.start db) es
    (∀ f t, t.length < 2 ^ 32 →
      (∀ ids : List DocumentID, ids.Nodup →
        (∀ d ∈ ids, ∃ doc, storedDocument config op table w.store d =
          some doc ∧ Indexed config doc.fields f t) →
        ids.length ≤ op.maxDocListNum.toNat) →
      ∀ d, (∃ e ∈ termList op table w.store f t, e.docId = d) ↔
        ∃ doc, storedDocument config op table w.store d = some doc ∧
          Indexed config doc.fields f t) ∧
    ∀ i j d, i ≠ j → (calls i).mode = .add → (calls j).mode = .add →
      (calls i).storeBuffer = none → (calls j).storeBuffer = none →
      (calls i).Writes d → (calls j).Writes d →
      succeeded w i = true → succeeded w j = true →
      ∃ k, (calls k).mode = .delete ∧ (calls k).Writes d ∧
        ([i, k, j].Sublist w.flushed ∨ [j, k, i].Sublist w.flushed) := by
  intro w
  have hser := TwoPhase.serializes_run hes
  have hrun : ∀ order : List ι, Consistent config table
      (runCalls config op table db (order.map calls)) := by
    intro order
    refine hdb.runCalls (fun c hc => ?_) fun c hc => ?_
    · obtain ⟨i, -, rfl⟩ := List.mem_map.1 hc
      exact hread i
    · obtain ⟨i, -, rfl⟩ := List.mem_map.1 hc
      exact hflags i
  constructor
  · intro f t ht hcap d
    have hstore : w.store = runCalls config op table db
        (w.flushed.map calls) := hser.store.trans (serial_freshWriters _)
    refine Consistent.mem_termList ?_ ht hcap d
    rw [hstore]
    exact hrun w.flushed
  · intro i j d hne hi hj hidirect hjdirect hid hjd hiok hjok
    obtain ⟨before, after, hflushed, hiok⟩ := succeeded_of_done hser hiok
    obtain ⟨before', after', hflushed', hjok⟩ := succeeded_of_done hser hjok
    have hkeeps : ∀ order : List ι, ∃ docs, Keeps config table
        (runCalls config op table db (order.map calls)) docs := fun order =>
      (hrun order).imp fun _ h => h.1
    rcases split_or_split hne hflushed hflushed' with
      ⟨between, rfl, rfl⟩ | ⟨between, rfl, rfl⟩
    · obtain ⟨k, hk, hdel, hkd⟩ := deleted_between (hkeeps before) ⟨hi, hj⟩
        hidirect ⟨hid, hjd⟩ hiok hjok
      refine ⟨k, hdel, hkd, .inl ?_⟩
      show [i, k, j].Sublist w.flushed
      rw [show w.flushed = _ from hflushed]
      exact sublist_of_between hk
    · obtain ⟨k, hk, hdel, hkd⟩ := deleted_between (hkeeps before') ⟨hj, hi⟩
        hjdirect ⟨hjd, hid⟩ hjok hiok
      refine ⟨k, hdel, hkd, .inr ?_⟩
      show [j, k, i].Sublist w.flushed
      rw [show w.flushed = _ from hflushed']
      exact sublist_of_between hk

/-- Two clients that add document 7, one with the term `A` and one with `B`. -/
def racingAdds (second : Bool) : WriteCall where
  mode := .add
  documents := [seven (if second then [66] else [65])]
  distinct := List.nodup_singleton _

/-- One after the other is undisturbed: document 7 is in the list of `A`, and
the second add returns false. -/
theorem undisturbed_consistent_racingAdds :
    let w := (freshWriters spaceConfig millionOperator ⟨1, 2⟩ racingAdds).run
      (.start .empty) [.read false, .flush false, .read true, .flush true]
    (∃ e ∈ termList millionOperator ⟨1, 2⟩ w.store 1 [65], e.docId = 7) ∧
      succeeded w false = true ∧ succeeded w true = false := by
  intro w
  have hundisturbed : (freshWriters spaceConfig millionOperator ⟨1, 2⟩
      racingAdds).Undisturbed (.start .empty)
        [.read false, .flush false, .read true, .flush true] :=
    ⟨fun _ h => (TwoPhase.Phase.pending.inj h).symm,
      fun _ h => (TwoPhase.Phase.pending.inj h).symm, trivial⟩
  have hmain := undisturbed_consistent spaceConfig millionOperator ⟨1, 2⟩
    racingAdds .empty consistent_empty (by decide) (by decide) _ hundisturbed
  have hstored : (storedDocument spaceConfig millionOperator ⟨1, 2⟩ w.store
      7).any (fun doc => decide (Indexed spaceConfig doc.fields 1 [65])) =
        true := by decide +kernel
  obtain ⟨hsome, hindexed⟩ := (Option.any_eq_true_iff_get _ _).1 hstored
  have hstore := (TwoPhase.serializes_run hundisturbed).store.trans
    (serial_freshWriters _)
  have hfirst : succeeded w false = true := by decide +kernel
  refine ⟨(hmain.1 1 [65] (by decide) ?_ 7).2
    ⟨_, (Option.some_get hsome).symm, of_decide_eq_true hindexed⟩,
    hfirst, ?_⟩
  · intro ids hnodup hids
    have hseven : ids ⊆ [7] := by
      intro d hd
      obtain ⟨doc, hdoc, -⟩ := hids d hd
      by_contra hne
      rw [List.mem_singleton] at hne
      rw [hstore, storedDocument_of_not_written] at hdoc
      · cases hdoc
      · intro c hc
        obtain ⟨i, -, rfl⟩ := List.mem_map.1 hc
        simp [WriteCall.documentFor, racingAdds, seven, Ne.symm hne]
    exact (hnodup.subperm hseven).length_le.trans (by decide)
  · by_contra hsecond
    obtain ⟨k, hdel, -⟩ := hmain.2 false true 7 (by decide) rfl rfl rfl rfl
      (List.mem_singleton_self 7) (List.mem_singleton_self 7) hfirst
      (Bool.not_eq_false _ ▸ hsecond)
    cases hdel

/-- Both clients read before either flushes. Both adds return true, and
document 7 stays in the list of `A`, which its record does not have. -/
theorem racingAdds_disturb :
    ¬ (∀ (es : List (TwoPhase.Event Bool)) (d : DocumentID),
      let w := (freshWriters spaceConfig millionOperator ⟨1, 2⟩ racingAdds).run
        (.start .empty) es
      (∃ e ∈ termList millionOperator ⟨1, 2⟩ w.store 1 [65], e.docId = d) ↔
        ∃ doc, storedDocument spaceConfig millionOperator ⟨1, 2⟩ w.store d =
          some doc ∧ Indexed spaceConfig doc.fields 1 [65]) ∧
    ¬ (∀ es : List (TwoPhase.Event Bool),
      let w := (freshWriters spaceConfig millionOperator ⟨1, 2⟩ racingAdds).run
        (.start .empty) es
      ¬ (succeeded w false = true ∧ succeeded w true = true)) := by
  let es : List (TwoPhase.Event Bool) :=
    [.read false, .read true, .flush false, .flush true]
  let w := (freshWriters spaceConfig millionOperator ⟨1, 2⟩ racingAdds).run
    (.start .empty) es
  have hlisted : (termList millionOperator ⟨1, 2⟩ w.store 1 [65]).any
      (·.docId == 7) = true := by decide +kernel
  have hstored : (storedDocument spaceConfig millionOperator ⟨1, 2⟩ w.store
      7).any (fun doc => decide (Indexed spaceConfig doc.fields 1 [65])) =
        false := by decide +kernel
  have hboth : succeeded w false = true ∧ succeeded w true = true := by
    decide +kernel
  constructor
  · intro h
    obtain ⟨e, he, hid⟩ := List.any_eq_true.1 hlisted
    obtain ⟨doc, hdoc, hindexed⟩ := (h es 7).1 ⟨e, he, beq_iff_eq.1 hid⟩
    rw [show storedDocument _ _ _ w.store 7 = some doc from hdoc,
      Option.any_some, decide_eq_true hindexed] at hstored
    exact Bool.false_ne_true hstored.symm
  · exact fun h => h es hboth

end Wwsearch.Spec
