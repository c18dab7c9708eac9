import Wwsearch.Proofs.History
import Wwsearch.Proofs.Migration
import Wwsearch.Proofs.TableDelete

/-!
# A table that was deleted is a new one

Where no key is too short a call that meets no fault returns OK
(`deleteTableData_ok`), so a loop over a column ends with nothing of the table in
it, and the loops over all columns end with nothing of the table at all
(`deletes_columns`). From then on its clients cannot tell the database from an
empty one.
-/

namespace Wwsearch.Spec

open Wwsearch.Lib Wwsearch.Ref Wwsearch.Ref.IndexWriter

variable {op : DocListMergeOperator} {table : TableID}
  {column : StorageColumnType} {db db' : VirtualDB}

/-! ## Calls without faults -/

theorem deleteKeys_ok {entries : List (Bytes × Bytes)}
    (hlong : ∀ x ∈ entries, 9 ≤ x.1.length) :
    ∀ (maxLen : Nat) (lastKey : Bytes) (buffer : WriteBuffer),
    (deleteKeys {} column (encodeMetaKey table) entries maxLen lastKey
      buffer).2.2.ok = true := by
  induction entries with
  | nil => exact fun _ _ _ => rfl
  | cons x entries ih =>
      intro maxLen lastKey buffer
      have hlen : ¬ x.1.length < (encodeMetaKey table).length := by
        rw [encodeMetaKey_length]
        exact Nat.not_lt.2 (hlong x List.mem_cons_self)
      rw [deleteKeys, if_neg hlen]
      split
      · rfl
      · split
        · rfl
        · exact ih (fun y hy => hlong y (List.mem_cons_of_mem x hy)) _ _ _

theorem deleteTableData_ok (hlong : LongKeys db) (startKey : Bytes)
    {maxLen : Nat} (hlen : 1 < maxLen) :
    (deleteTableData {} op table db column startKey maxLen).status.ok = true := by
  simp only [deleteTableData, if_neg (Nat.not_le.2 hlen)]
  rw [if_pos (deleteKeys_ok hlong.seek _ _ _)]
  rfl

section Loops

variable {calls : Nat → DeleteCall}

theorem longKeys_deleteState (config : IndexConfig) (hlong : LongKeys db)
    (n : Nat) : LongKeys (deleteState op table column db calls n).1 := by
  induction n with
  | zero => exact hlong
  | succ n ih =>
      let o : TableOperation := ⟨table, .deleteTableData (calls n).faults column
        (deleteState op table column db calls n).2 (calls n).maxLen⟩
      have hkept : LongKeys (o.perform config op
          (deleteState op table column db calls n).1) := ih.perform o
      exact hkept

/-- Where an iterator shows nothing of the table there is nothing. -/
theorem none_of_tableEntries_nil (hread : Mergeable op table db column)
    (h : tableEntries op table db column = []) {key : Bytes}
    (hkey : encodeMetaKey table <+: key) : (db column)[key]? = none := by
  by_contra hne
  obtain ⟨value, hget⟩ := Option.isSome_iff_exists.1 (hread key hkey hne)
  have hmem := (mem_tableEntries hread).2 ⟨hkey, hget⟩
  rw [h] at hmem
  exact List.not_mem_nil hmem

theorem Deleting.mergeable (h : Deleting table column db db')
    {c : StorageColumnType} (hread : Mergeable op table db c) :
    Mergeable op table db' c := by
  intro key hkey hne
  have hsame : (db' c)[key]? = (db c)[key]? := by
    by_cases hc : c = column
    · subst hc
      exact (h.cells key).resolve_left hne
    · exact h.others c key fun hboth => hc hboth.1
  rw [VirtualDB.get, hsame]
  rw [hsame] at hne
  exact hread key hkey hne

end Loops

/-! ## All columns -/

/-- What the loops over some columns leave. -/
structure ColumnsEmptied (table : TableID) (cs : List StorageColumnType)
    (db db' : VirtualDB) : Prop where
  gone : ∀ column ∈ cs, ∀ key, encodeMetaKey table <+: key →
    (db' column)[key]? = none
  others : ∀ column key, ¬ (column ∈ cs ∧ encodeMetaKey table <+: key) →
    (db' column)[key]? = (db column)[key]?

theorem deletes_columns (config : IndexConfig)
    {calls : StorageColumnType → Nat → DeleteCall}
    (hlen : ∀ column n, 1 < (calls column n).maxLen)
    (hfaults : ∀ column n, (calls column n).faults = {})
    (cs : List StorageColumnType) : ∀ {db : VirtualDB}, cs.Nodup →
    LongKeys db → (∀ column, Mergeable op table db column) →
    ∃ db', DeletesColumns op table calls cs db db' ∧ LongKeys db' ∧
      ColumnsEmptied table cs db db' := by
  induction cs with
  | nil =>
      intro db _ hlong _
      exact ⟨db, .nil, hlong, fun _ h => absurd h List.not_mem_nil,
        fun _ _ _ => rfl⟩
  | cons column cs ih =>
      intro db hnodup hlong hread
      obtain ⟨hcolumn, hnodup⟩ := List.nodup_cons.1 hnodup
      have hok : ∀ n, (deleteCall op table column db (calls column)
          n).status.ok = true := by
        intro n
        rw [deleteCall, DeleteCall.perform, hfaults]
        exact deleteTableData_ok (longKeys_deleteState config hlong n) _
          (hlen column n)
      obtain ⟨k, -, hend, hrun, hdeleting, hnone⟩ := delete_from (hlen column)
        (fun n _ => hok n) 0 (fun _ h => absurd h (Nat.not_lt_zero _))
        (.inl rfl) (Deleting.refl table column db)
      have hmergeable : ∀ c, Mergeable op table
          (deleteState op table column db (calls column) (k + 1)).1 c :=
        fun c => hdeleting.mergeable (hread c)
      obtain ⟨db', hdeletes, hlong', hempty⟩ := ih hnodup
        (longKeys_deleteState config hlong (k + 1)) hmergeable
      refine ⟨db', .loop k hrun hend hdeletes, hlong', fun c hc key hkey => ?_,
        fun c key hother => ?_⟩
      · rcases List.mem_cons.1 hc with rfl | hc
        · rw [hempty.others c key fun h => hcolumn h.1]
          exact none_of_tableEntries_nil (hmergeable c) hnone hkey
        · exact hempty.gone c hc key hkey
      · rw [hempty.others c key fun h =>
          hother ⟨List.mem_cons_of_mem column h.1, h.2⟩]
        exact hdeleting.others c key fun h =>
          hother ⟨h.1 ▸ List.mem_cons_self, h.2⟩

/-- Deleting a table column by column, page by page, with calls that have room
for more than one key and meet no fault, from any database in which no key is
too short and every key of the table has a value: it comes to an end; nothing of
any other table has changed; and whatever is done to any tables afterwards,
the clients of the table are answered as on an empty database, with nothing done
to the other tables. -/
theorem deleted_table_is_new (σ : Type) [LT σ] [DecidableLT σ] [Zero σ]
    [Add σ] (config : IndexConfig) (op : DocListMergeOperator)
    (table : TableID) (db : VirtualDB)
    (calls : StorageColumnType → Nat → DeleteCall) (hlong : LongKeys db)
    (hread : ∀ column, Mergeable op table db column)
    (hlen : ∀ column n, 1 < (calls column n).maxLen)
    (hfaults : ∀ column n, (calls column n).faults = {}) :
    ∃ db', DeletesColumns op table calls columns db db' ∧
      (∀ u, u ≠ table → SameTable u db db') ∧
      ∀ history : List (TableAction σ),
        (∀ a ∈ history, a.table = table → OwnCursor a) →
        (clients config op σ).outputs table db' history =
          (clients config op σ).outputs table .empty
            ((clients config op σ).own table history) := by
  obtain ⟨db', hdeletes, hlong', hempty⟩ := deletes_columns config hlen hfaults
    columns (by decide) hlong hread
  refine ⟨db', hdeletes, fun u hu column key hkey => ?_, fun history hcursor => ?_⟩
  · exact hempty.others column key fun h => hu (table_unique hkey h.2)
  · have hsame : SameTable table db' .empty := fun column key hkey =>
      (hempty.gone column (mem_columns column) key hkey).symm
    exact ((unwinding_clients σ config op table).own_run history hlong'
      longKeys_empty hsame hcursor).2

theorem longKeys_sevenTable : LongKeys sevenTable :=
  (longKeys_empty.perform ⟨⟨1, 2⟩, .writeDocuments addSeven.batch⟩).perform
    ⟨⟨1, 2⟩, .writeDocuments updateSeven.batch⟩

/-- Document 7 is deleted with its table, and numbers are asked for. -/
theorem deleted_table_is_new_sevenTable :
    ∃ db', DeletesColumns millionOperator ⟨1, 2⟩ (fun _ _ => { maxLen := 2 })
        columns sevenTable db' ∧
      (clients spaceConfig millionOperator Nat).outputs ⟨1, 2⟩ db'
          mixedHistory =
        (clients spaceConfig millionOperator Nat).outputs ⟨1, 2⟩ .empty
          ownHistory := by
  obtain ⟨db', hdeletes, -, hnew⟩ := deleted_table_is_new Nat spaceConfig
    millionOperator ⟨1, 2⟩ sevenTable (fun _ _ => { maxLen := 2 })
    longKeys_sevenTable mergeable_sevenTable (fun _ _ => by decide)
    fun _ _ => rfl
  exact ⟨db', hdeletes, hnew mixedHistory ownCursor_mixedHistory⟩

end Wwsearch.Spec
