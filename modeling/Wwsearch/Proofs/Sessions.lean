import Wwsearch.Proofs.Outcome
import Wwsearch.Spec.Session

/-!
# What a session's calls have written

Every writing stage passes over an updater whose status is not OK, and nothing
gives an updater an OK status again. A call that gets only updaters with an OK
status, in any mode but delete, therefore writes the stored record of each of
them or fails (`calls_put_every_document`). A call that gets one whose status
is left over from a failed call passes over it, and can still return true:
that is what happens to the healthy document of a failed batch when it is
passed again (`retry_puts_nothing`).
-/

namespace Wwsearch.Spec

open Wwsearch.Lib Wwsearch.Ref Wwsearch.Ref.DocumentWriter
open Wwsearch.Ref.IndexWriter

section Call

variable {config : IndexConfig} {op : DocListMergeOperator} {table : TableID}
  {s : Session} {c : SessionCall}

theorem written_eq (h : (s.outcome config op table c).ok = true) :
    s.written config op table c = batchMutations config table
      ((readDocuments config c.faults op table s.db c.mode (s.batch c)).1.map
        (ready config)) := by
  rw [Session.written, (innerWriteDocuments_ok h).mutations, List.drop_left]

/-- The updater of a handle before the call, between its halves, and after. -/
theorem updater_through {handle : Handle} (hmem : handle ∈ c.handles)
    (h : (s.outcome config op table c).ok = true) :
    ∃ du ∈ (readDocuments config c.faults op table s.db c.mode (s.batch c)).1,
      ReadAs config (s.db.get op .storedFieldColumn (encodeStoredFieldKey table
          (s.updaters handle).newDocument.documentId)) c.mode
        (s.updaters handle) du ∧
      (s.step config op table (.call c)).updaters handle =
        docValued config table (cleared (ready config du)) := by
  have hs := innerWriteDocuments_ok h
  have hi : c.handles.idxOf handle < c.handles.length :=
    List.idxOf_lt_length_iff.2 hmem
  have hlen := hs.readAs.length_eq
  have hb : (s.batch c).length = c.handles.length := List.length_map _
  have hread : c.handles.idxOf handle < (readDocuments config c.faults op table
      s.db c.mode (s.batch c)).1.length := by omega
  refine ⟨_, List.getElem_mem hread, ?_, ?_⟩
  · have hat := List.forall₂_iff_get.1 hs.readAs |>.2 _ (by omega) hread
    simpa [Session.batch] using hat
  · have hdocs : (s.outcome config op table c).documents = _ := hs.documents_eq
    simp only [Session.step, hdocs, List.getElem?_map,
      List.getElem?_eq_getElem hread, Option.map_some, Option.getD_some]

theorem puts_of_status_ok {handle : Handle} (hmem : handle ∈ c.handles)
    (hmode : c.mode ≠ .delete) (h : (s.outcome config op table c).ok = true)
    (hok : (s.updaters handle).status.ok = true) :
    s.Puts config op table c handle := by
  obtain ⟨du, hdu, hread, hafter⟩ := updater_through hmem h
  have hst : (ready config du).status.ok = true := by
    rw [ready_status, hread.status_eq hmode, hok]
  have hdel : (ready config du).delete = false := by
    rw [ready_delete, DocumentUpdater.delete, hread.updateType_eq]
    exact decide_eq_false hmode
  obtain ⟨value, flag, hvalue, -⟩ :=
    ((innerWriteDocuments_ok h).writable du hdu).stored hst hdel
  refine ⟨value, flag, ?_, ?_⟩
  · rw [hafter, docValued, cleared, if_pos hst]
    exact hvalue
  · rw [written_eq h, batchMutations]
    refine List.mem_append_left _ (List.mem_append_left _ ?_)
    refine List.mem_flatMap.2 ⟨_, List.mem_map_of_mem hdu, ?_⟩
    simp only [storedMutations, hst, hdel, hvalue, if_true, Bool.false_eq_true,
      if_false, ready_documentId, hread.newDocument_eq, List.mem_singleton]

end Call

/-- In a run that passes only updaters with an OK status to its calls, every
call that returns true has written the stored record of every updater it got.
The calls are those that write documents: all but the deletes. -/
theorem calls_put_every_document (config : IndexConfig)
    (op : DocListMergeOperator) (table : TableID) (s : Session)
    (steps : List SessionStep)
    (hstatus : ∀ p ∈ s.calls config op table steps, ∀ handle ∈ p.2.handles,
      (p.1.updaters handle).status.ok = true) :
    ∀ p ∈ s.calls config op table steps, p.2.mode ≠ .delete →
      (p.1.outcome config op table p.2).ok = true →
      ∀ handle ∈ p.2.handles, p.1.Puts config op table p.2 handle := by
  intro p hp hmode hok handle hmem
  exact puts_of_status_ok hmem hmode hok (hstatus p hp handle hmem)

/-- Document 7 under the handle 0, and a document without an id under every
other one. -/
def twoUpdaters : Session where
  db := .empty
  updaters handle :=
    if handle = 0 then
      { newDocument := ⟨7, [{ fieldId := 1, flag := ⟨2⟩
                              fieldType := kStringIndexField
                              stringValue := [65] }]⟩ }
    else { newDocument := ⟨0, []⟩ }

def addBoth : SessionCall where
  mode := .add
  handles := [0, 1]
  nodup := by decide

def addFirst : SessionCall where
  mode := .add
  handles := [0]
  nodup := by decide

theorem calls_put_every_document_addFirst :
    (twoUpdaters.outcome spaceConfig millionOperator ⟨1, 2⟩ addFirst).ok =
        true ∧
      twoUpdaters.Puts spaceConfig millionOperator ⟨1, 2⟩ addFirst 0 := by
  have hok : (twoUpdaters.outcome spaceConfig millionOperator ⟨1, 2⟩
      addFirst).ok = true := by decide +kernel
  refine ⟨hok, calls_put_every_document spaceConfig millionOperator ⟨1, 2⟩
    twoUpdaters [.call addFirst] ?_ (twoUpdaters, addFirst) (.head _)
    (by decide) hok 0 (.head _)⟩
  intro p hp handle hmem
  obtain rfl := List.mem_singleton.1 hp
  obtain rfl := List.mem_singleton.1 hmem
  decide

/-- The two documents are added together, which fails, and then the healthy
one alone. That returns true, and nothing is written. -/
theorem retry_puts_nothing :
    ¬ ∀ p ∈ twoUpdaters.calls spaceConfig millionOperator ⟨1, 2⟩
        [.call addBoth, .call addFirst],
      p.2.mode ≠ .delete →
      (p.1.outcome spaceConfig millionOperator ⟨1, 2⟩ p.2).ok = true →
      ∀ handle ∈ p.2.handles,
        p.1.Puts spaceConfig millionOperator ⟨1, 2⟩ p.2 handle := by
  intro h
  let after := twoUpdaters.step spaceConfig millionOperator ⟨1, 2⟩
    (.call addBoth)
  have hok : (after.outcome spaceConfig millionOperator ⟨1, 2⟩ addFirst).ok =
      true := by decide +kernel
  have hnone : after.written spaceConfig millionOperator ⟨1, 2⟩ addFirst =
      [] := by decide +kernel
  obtain ⟨value, flag, -, hput⟩ := h (after, addFirst) (.tail _ (.head _))
    (by decide) hok 0 (.head _)
  rw [hnone] at hput
  exact List.not_mem_nil hput

end Wwsearch.Spec
