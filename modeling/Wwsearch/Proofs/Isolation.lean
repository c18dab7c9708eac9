import Wwsearch.Proofs.SameReads

/-!
# Tables do not see each other

What an operation writes has the nine bytes of its table in front
(`sameTable_runAll`), and what is read of a table depends on the keys with its
nine bytes only (`SameTable.reads`), unless it is a page from a cursor of another
table, which that table's keys end (`tables_not_isolated_foreignCursor`).
-/

namespace Wwsearch.Spec

open Wwsearch.Lib Wwsearch.Ref Wwsearch.Ref.DocumentWriter

variable {config : IndexConfig} {faults : Faults} {op : DocListMergeOperator}
  {t u : TableID} {db db' : VirtualDB}

/-! ## Writing -/

theorem sameTable_perform {o : TableOperation} (hne : o.table ≠ u) :
    SameTable u db (o.perform config op db) := by
  obtain ⟨ms, hdb, hms⟩ := @TableOperation.perform_ofTable config op db o
  rw [hdb]
  exact fun column key hkey =>
    applyAll_other_table hne (fun m hm => (hms m hm).within) hkey

theorem sameTable_runAll (run : List TableOperation) : ∀ {db : VirtualDB},
    (∀ o ∈ run, o.table ≠ u) →
    SameTable u db (TableOperation.runAll config op db run) := by
  induction run with
  | nil => intro db _ column key _; rfl
  | cons o run ih =>
      intro db hne column key hkey
      refine (ih (fun o' ho' => hne o' (List.mem_cons_of_mem o ho')) column key
        hkey).trans ?_
      exact sameTable_perform (hne o List.mem_cons_self) column key hkey

/-! ## Reading -/

theorem SameTable.reads (h : SameTable u db db') (op : DocListMergeOperator) :
    SameReads op u db db' := fun column key hkey =>
  congrArg (Option.map (VirtualDB.cellValue op)) (h column key hkey)

theorem SameTable.get (h : SameTable u db db') (column : StorageColumnType)
    {key : Bytes} (hkey : encodeMetaKey u <+: key) :
    db'.get op column key = db.get op column key :=
  (h.reads op).get column hkey

theorem SameTable.innerGetField (h : SameTable u db db')
    (mode : EncodeTarget) (document : Document) :
    Searcher.innerGetField config faults op u db' mode document =
      Searcher.innerGetField config faults op u db mode document :=
  (h.reads op).innerGetField mode document

theorem SameTable.acquireCurrentSequence (h : SameTable u db db')
    (currentMax : UInt64) (items : List AllocSequence) :
    DocumentWriter.acquireCurrentSequence faults op u db' currentMax items =
      DocumentWriter.acquireCurrentSequence faults op u db currentMax items :=
  (h.reads op).acquireCurrentSequence currentMax items

theorem SameTable.scanTableData (h : SameTable u db db')
    (column : StorageColumnType) {startKey : Bytes}
    (hstart : startKey = [] ∨ encodeMetaKey u <+: startKey) (maxLen : Nat)
    (writeBatch : List Mutation) (maxBufferSize : Nat) :
    Searcher.scanTableData faults op u db' column startKey maxLen writeBatch
        maxBufferSize =
      Searcher.scanTableData faults op u db column startKey maxLen writeBatch
        maxBufferSize :=
  (h.reads op).scanTableData column hstart maxLen writeBatch maxBufferSize

theorem SameTable.doQuery {σ : Type} [LT σ] [DecidableLT σ] [Zero σ] [Add σ]
    (h : SameTable u db db') (fuel : Nat) (a : Searcher.QueryArgs σ)
    (queues : CollectorQueues σ a.sorter) (offset limit : UInt64)
    (docs : List DocumentID) :
    Option.Rel SameButLimit
      (Searcher.doQuery fuel (tableContext config faults op u db) a queues
        offset limit docs)
      (Searcher.doQuery fuel (tableContext config faults op u db') a queues
        offset limit docs) :=
  (h.reads op).doQuery fuel a queues offset limit docs

/-! ## Two tables -/

/-- Any run of operations on a table, from any database, leaves what any
operation on another table reads as it was: the records of any documents, a
page of any column, the numbers of any users, and a query, except for the
status that a prefix leaf has come to its limit. The cursor of a page is empty
or begins with the table's nine bytes. -/
theorem tables_isolated {σ : Type} [LT σ] [DecidableLT σ] [Zero σ] [Add σ]
    (config : IndexConfig) (op : DocListMergeOperator) (t u : TableID)
    (hne : t ≠ u) (db : VirtualDB) (run : List Operation) :
    let db' := TableOperation.runAll config op db (run.map (⟨t, ·⟩))
    (∀ faults documents,
      Searcher.getStoredFields config faults op u db' documents =
        Searcher.getStoredFields config faults op u db documents) ∧
    (∀ faults documents,
      Searcher.getDocValue config faults op u db' documents =
        Searcher.getDocValue config faults op u db documents) ∧
    (∀ faults column startKey maxLen writeBatch maxBufferSize,
      startKey = [] ∨ encodeMetaKey u <+: startKey →
      Searcher.scanTableData faults op u db' column startKey maxLen writeBatch
          maxBufferSize =
        Searcher.scanTableData faults op u db column startKey maxLen writeBatch
          maxBufferSize) ∧
    (∀ faults currentMax items,
      acquireCurrentSequence faults op u db' currentMax items =
        acquireCurrentSequence faults op u db currentMax items) ∧
    ∀ (faults : Faults) (fuel : Nat) (a : Searcher.QueryArgs σ)
      (queues : CollectorQueues σ a.sorter) (offset limit : UInt64)
      (docs : List DocumentID),
      Option.Rel SameButLimit
        (Searcher.doQuery fuel (tableContext config faults op u db) a queues
          offset limit docs)
        (Searcher.doQuery fuel (tableContext config faults op u db') a queues
          offset limit docs) := by
  intro db'
  have hsame : SameTable u db db' := by
    refine sameTable_runAll _ fun o ho => ?_
    obtain ⟨operation, -, rfl⟩ := List.mem_map.1 ho
    exact hne
  refine ⟨fun faults documents => ?_, fun faults documents => ?_, ?_, ?_, ?_⟩
  · exact List.map_congr_left fun document _ => hsame.innerGetField _ document
  · exact List.map_congr_left fun document _ => hsame.innerGetField _ document
  · intro faults column startKey maxLen writeBatch maxBufferSize hstart
    exact hsame.scanTableData column hstart maxLen writeBatch maxBufferSize
  · intro faults currentMax items
    exact hsame.acquireCurrentSequence currentMax items
  · intro faults fuel a queues offset limit docs
    exact hsame.doQuery fuel a queues offset limit docs

/-- Two neighbours: the numbers of one table after the other was dropped. -/
theorem tables_isolated_neighbours :
    let db := (SequenceCall.perform millionOperator ⟨1, 2⟩ .empty
      { sequenceList := [{ userId := [65] }], length_lt := by decide }).db
    let db' := TableOperation.runAll spaceConfig millionOperator db
      [⟨⟨1, 1⟩, .dropTable {} none⟩]
    acquireCurrentSequence {} millionOperator ⟨1, 2⟩ db' 0
      [{ userId := [65] }] = ⟨1, [{ userId := [65], sequence := 1 }], {}⟩ := by
  intro db db'
  have hmain := (tables_isolated (σ := Nat) spaceConfig millionOperator ⟨1, 1⟩
    ⟨1, 2⟩ (by decide) db [.dropTable {} none]).2.2.2.1 {} 0
      [{ userId := [65] }]
  refine hmain.trans ?_
  decide +kernel

/-- A page of one table, from a cursor in front of the keys of the other: it has
nothing while these are there, and the table's own two keys once they are
deleted. -/
theorem tables_not_isolated_foreignCursor :
    let numbers : Operation := .acquireNewSequence
      { sequenceList := [{ userId := [65] }], length_lt := by decide }
    let db := TableOperation.runAll spaceConfig millionOperator .empty
      [⟨⟨1, 1⟩, numbers⟩, ⟨⟨1, 2⟩, numbers⟩]
    let db' := TableOperation.runAll spaceConfig millionOperator db
      [⟨⟨1, 1⟩, .deleteTableData {} .metaColumn [] 10⟩]
    let page := fun db => Searcher.scanTableData {} millionOperator ⟨1, 2⟩ db
      .metaColumn (encodeMetaKey ⟨1, 1⟩) 10 [] 1000
    (page db).writeBatch.length = 0 ∧ (page db').writeBatch.length = 2 ∧
      page db' ≠ page db := by
  intro numbers db db' page
  have hbefore : (page db).writeBatch.length = 0 := by decide +kernel
  have hafter : (page db').writeBatch.length = 2 := by decide +kernel
  refine ⟨hbefore, hafter, fun heq => ?_⟩
  rw [heq, hbefore] at hafter
  cases hafter

end Wwsearch.Spec
