import Wwsearch.Proofs.Isolation
import Wwsearch.Proofs.SameAnswers

/-!
# No client can tell what is done to other tables

The unwinding conditions of `clients`. Two databases with the same of a table get
the same mutations from each call on it, and so they stay so
(`SameTable.operate`). An operation on another table does not come near it.
-/

namespace Wwsearch.Spec

open Wwsearch.Lib Wwsearch.Ref Wwsearch.Ref.DocumentWriter
open Wwsearch.Ref.IndexWriter

variable {config : IndexConfig} {faults : Faults} {op : DocListMergeOperator}
  {u : TableID} {db db' : VirtualDB}

/-! ## The same of a table -/

theorem SameTable.refl (u : TableID) (db : VirtualDB) : SameTable u db db :=
  fun _ _ _ => rfl

theorem SameTable.symm (h : SameTable u db db') : SameTable u db' db :=
  fun column key hkey => (h column key hkey).symm

theorem SameTable.trans {db'' : VirtualDB} (h : SameTable u db db')
    (h' : SameTable u db' db'') : SameTable u db db'' :=
  fun column key hkey => (h' column key hkey).trans (h column key hkey)

/-- One batch for both. -/
theorem SameTable.applyAll (h : SameTable u db db') (ms : List Mutation) :
    SameTable u (db.applyAll ms) (db'.applyAll ms) := by
  intro column key hkey
  rw [applyAll_getElem?, applyAll_getElem?, h column key hkey]

/-! ## The unwinding conditions -/

theorem SameTable.butLists (h : SameTable u db db')
    (op : DocListMergeOperator) : SameButLists op u db db' :=
  ⟨h.reads op, fun column _ => h column⟩

/-- An operation of a client on two databases with the same of its table. -/
theorem SameTable.operate (h : SameTable u db db') (hlong : LongKeys db)
    (hlong' : LongKeys db') (operation : Operation)
    (hcursor : ∀ faults column startKey maxLen,
      operation = .deleteTableData faults column startKey maxLen →
      CursorOf u startKey) :
    SameTable u (TableOperation.perform config op db ⟨u, operation⟩)
      (TableOperation.perform config op db' ⟨u, operation⟩) := by
  obtain ⟨⟨ms, hdb, hdb', -⟩, -⟩ := @operate_same config op u db db'
    (h.butLists op) hlong hlong' operation hcursor
  rw [hdb, hdb']
  exact h.applyAll ms

section Clients

variable (σ : Type) [LT σ] [DecidableLT σ] [Zero σ] [Add σ]

theorem unwinding_clients (config : IndexConfig) (op : DocListMergeOperator)
    (u : TableID) :
    (clients config op σ).Unwinding u LongKeys OwnCursor (SameTable u) where
  symm := SameTable.symm
  trans := SameTable.trans
  keeps a h := by
    obtain ⟨table, action⟩ := a
    cases action with
    | operate operation => exact h.perform _
    | getFields faults mode documents => exact h
    | scanTableData => exact h
    | doQuery => exact h
  respects := by
    rintro db ⟨table, action⟩ hne
    cases action with
    | operate operation => exact sameTable_perform hne
    | getFields => exact SameTable.refl _ _
    | scanTableData => exact SameTable.refl _ _
    | doQuery => exact SameTable.refl _ _
  consistent := by
    rintro db db' ⟨table, action⟩ rfl hown hlong hlong' h
    cases action with
    | operate operation =>
        refine h.operate hlong hlong' operation ?_
        rintro faults column startKey maxLen rfl
        exact hown
    | getFields => exact h
    | scanTableData => exact h
    | doQuery => exact h
  answers := by
    rintro db db' a htable hown hlong hlong' h
    exact output_same σ (h.butLists op) hlong hlong' htable hown

/-- Whatever clients of other tables do and however their calls come in
between, the clients of a table are told the same, and leave the same of it:
two histories with the same calls on the table, from databases with the same
of the table, agree on every answer to these calls, where a cursor is one of the
table and a status that a prefix leaf came to its limit does not count. -/
theorem clients_noninterference (config : IndexConfig)
    (op : DocListMergeOperator) (u : TableID) (db db' : VirtualDB)
    (hdb : LongKeys db) (hdb' : LongKeys db') (hsame : SameTable u db db')
    (history history' : List (TableAction σ))
    (hown : (clients config op σ).own u history =
      (clients config op σ).own u history')
    (hcursor : ∀ a ∈ history, a.table = u → OwnCursor a) :
    SameTable u ((clients config op σ).run db history)
        ((clients config op σ).run db' history') ∧
      (clients config op σ).outputs u db history =
        (clients config op σ).outputs u db' history' :=
  (unwinding_clients σ config op u).same_own hdb hdb' hsame hown hcursor

end Clients

/-! ## Two neighbours -/

/-- A user asks for a number, and then for what is stored of it. -/
def ownHistory : List (TableAction Nat) :=
  [⟨⟨1, 2⟩, .operate (.acquireNewSequence
      { sequenceList := [{ userId := [70] }], length_lt := by decide })⟩,
   ⟨⟨1, 2⟩, .operate (.acquireCurrentSequence {} 0 [{ userId := [70] }])⟩,
   ⟨⟨1, 2⟩, .operate (.deleteTableData {} .metaColumn [] 2)⟩]

/-- The same between calls on the table before it. -/
def mixedHistory : List (TableAction Nat) :=
  ⟨⟨1, 1⟩, .operate (.acquireNewSequence
      { sequenceList := [{ userId := [70] }, { userId := [71] }]
        length_lt := by decide })⟩ ::
    ownHistory.flatMap fun a => [a, ⟨⟨1, 1⟩, .operate (.dropTable {} none)⟩]

theorem ownCursor_mixedHistory :
    ∀ a ∈ mixedHistory, a.table = ⟨1, 2⟩ → OwnCursor a := by
  intro a ha htable
  simp only [mixedHistory, ownHistory, List.flatMap_cons, List.flatMap_nil,
    List.append_nil, List.cons_append, List.nil_append, List.mem_cons,
    List.not_mem_nil, or_false] at ha
  rcases ha with rfl | rfl | rfl | rfl | rfl | rfl | rfl
  · exact trivial
  · exact trivial
  · exact trivial
  · exact trivial
  · exact trivial
  · exact .inl rfl
  · exact trivial

theorem clients_noninterference_neighbours :
    (clients spaceConfig millionOperator Nat).outputs ⟨1, 2⟩ .empty
        mixedHistory =
      (clients spaceConfig millionOperator Nat).outputs ⟨1, 2⟩ .empty
        ownHistory :=
  (clients_noninterference Nat spaceConfig millionOperator ⟨1, 2⟩ .empty .empty
    longKeys_empty longKeys_empty (SameTable.refl _ _) mixedHistory ownHistory
    rfl ownCursor_mixedHistory).2

/-! ## The table by itself -/

/-- What the operations on a table make of it, they make of it alone. -/
theorem sameTable_own {run : List TableOperation} : ∀ {db db' : VirtualDB},
    LongKeys db → LongKeys db' → SameTable u db db' →
    (∀ o ∈ run, o.table = u → ∀ faults column startKey maxLen,
      o.operation = .deleteTableData faults column startKey maxLen →
      CursorOf u startKey) →
    SameTable u (TableOperation.runAll config op db run)
      (TableOperation.runAll config op db'
        (run.filter fun o => o.table = u)) := by
  induction run with
  | nil => exact fun _ _ h _ => h
  | cons o run ih =>
      intro db db' hlong hlong' h hcursor
      have hcursor' := fun x hx => hcursor x (List.mem_cons_of_mem o hx)
      by_cases htable : o.table = u
      · rw [List.filter_cons, if_pos (decide_eq_true htable)]
        refine ih (hlong.perform o) (hlong'.perform o) ?_ hcursor'
        obtain ⟨table, operation⟩ := o
        obtain rfl : table = u := htable
        exact h.operate hlong hlong' operation
          (hcursor _ List.mem_cons_self rfl)
      · rw [List.filter_cons, if_neg (by simpa using htable)]
        exact ih (hlong.perform o) hlong'
          ((sameTable_perform htable).symm.trans h) hcursor'

end Wwsearch.Spec
