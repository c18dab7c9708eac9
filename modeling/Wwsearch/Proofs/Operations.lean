import Wwsearch.Proofs.DisjointBatches
import Wwsearch.Proofs.Numbered
import Wwsearch.Proofs.Scans
import Wwsearch.Spec.Operations

/-!
# What an operation does to the database

Every operation applies some mutations of its own table and leaves the rest of
the database alone (`perform_ofTable`). The ones that are about documents do not
come near the numbers of the users either: in the meta column they touch at
most the bare key of the table, and that is not the key of a number
(`perform_ofData`).
-/

namespace Wwsearch.Spec

open Wwsearch.Lib Wwsearch.Ref Wwsearch.Ref.DocumentWriter

/-- The second database is the first one after some mutations of a kind. -/
def Applies (P : Mutation → Prop) (db db' : VirtualDB) : Prop :=
  ∃ ms, db' = db.applyAll ms ∧ ∀ m ∈ ms, P m

section Applies

variable {P Q : Mutation → Prop} {db : VirtualDB}

theorem applies_nothing : Applies P db db :=
  ⟨[], rfl, fun _ h => absurd h List.not_mem_nil⟩

theorem Applies.imp {db' : VirtualDB} (h : Applies P db db')
    (hpq : ∀ m, P m → Q m) : Applies Q db db' := by
  obtain ⟨ms, hdb, hms⟩ := h
  exact ⟨ms, hdb, fun m hm => hpq m (hms m hm)⟩

/-- A batch that was started empty. -/
theorem finishBuffer_applies {faults : Faults}
    {storeBuffer : Option StoreBuffer} {r : WriteBuffer × SearchStatus}
    (hr : r.2.ok = true → storeBuffer = none → ∀ m ∈ r.1.mutations, P m) :
    Applies P db (finishBuffer faults db storeBuffer r).db := by
  cases hok : (finishBuffer faults db storeBuffer r).status.ok with
  | false =>
      rw [(finishBuffer_failed hok).1]
      exact applies_nothing
  | true =>
      have hfinished := finishBuffer_ok (fun _ => rfl) hok
      cases storeBuffer with
      | none =>
          refine ⟨_, hfinished.direct rfl, hr ?_ rfl⟩
          by_contra hno
          rw [finishBuffer, if_neg hno] at hok
          exact hno hok
      | some sb =>
          rw [hfinished.buffered (by simp)]
          exact applies_nothing

end Applies

/-! ## Mutations of documents -/

/-- A mutation of the table. -/
structure OfTable (table : TableID) (m : Mutation) : Prop where
  within : m.Within table
  keyed : m.Keyed

/-- A mutation of the table that is none of a number. -/
structure OfData (table : TableID) (m : Mutation) : Prop
    extends OfTable table m where
  metaKey : ∀ key, m.touches .metaColumn key = true → key = encodeMetaKey table

variable {config : IndexConfig} {op : DocListMergeOperator} {table : TableID}
  {db : VirtualDB}

theorem ofData_of_column {m : Mutation} (hwithin : m.Within table)
    (hkeyed : m.Keyed) (hcolumn : m.column ≠ .metaColumn) :
    OfData table m where
  within := hwithin
  keyed := hkeyed
  metaKey key htouch := by
    simp only [Mutation.touches, decide_eq_false hcolumn, Bool.false_and]
      at htouch
    exact absurd htouch Bool.false_ne_true

theorem storedMutations_ofData {du : DocumentUpdater} {m : Mutation}
    (h : m ∈ storedMutations config table du) : OfData table m := by
  have hkey := prefix_storedFieldKey table du.newDocument.documentId
  rcases storedMutations_mem h with rfl | ⟨value, rfl⟩
  · exact ofData_of_column (delete_within hkey) trivial fun h => nomatch h
  · exact ofData_of_column (put_within hkey) ⟨table, _, rfl⟩ fun h => nomatch h

theorem docValueMutations_ofData {du : DocumentUpdater} {m : Mutation}
    (h : m ∈ docValueMutations config table du) : OfData table m := by
  have hkey := prefix_storedFieldKey table du.newDocument.documentId
  rcases docValueMutations_mem h with rfl | ⟨value, rfl⟩
  · exact ofData_of_column (delete_within hkey) trivial fun h => nomatch h
  · exact ofData_of_column (put_within hkey) ⟨table, _, rfl⟩ fun h => nomatch h

theorem merge_ofData (table : TableID) (f : FieldID) (t value : Bytes) :
    OfData table (.merge .invertedIndexColumn (encodeInvertedKey table f t)
      value) :=
  ofData_of_column (merge_within (prefix_invertedKey table f t))
    ⟨table, f, t, rfl⟩ fun h => nomatch h

theorem invertedMutations_ofData {du : DocumentUpdater} {m : Mutation}
    (h : m ∈ invertedMutations config table du) : OfData table m := by
  rw [invertedMutations] at h
  split at h
  · obtain ⟨f, t, state, ok, value, -, -, rfl⟩ := mem_termMutations.1 h
    exact merge_ofData table f t value
  · exact absurd h List.not_mem_nil

theorem batchMutations_ofData {documents : List DocumentUpdater} {m : Mutation}
    (h : m ∈ batchMutations config table documents) : OfData table m := by
  rcases List.mem_append.1 h with h | h
  · rcases List.mem_append.1 h with h | h
    · obtain ⟨du, -, h⟩ := List.mem_flatMap.1 h
      exact storedMutations_ofData h
    · obtain ⟨du, -, h⟩ := List.mem_flatMap.1 h
      exact invertedMutations_ofData h
  · obtain ⟨du, -, h⟩ := List.mem_flatMap.1 h
    exact docValueMutations_ofData h

theorem effect_ofData {c : BatchCall} {m : Mutation}
    (h : m ∈ effect config op table db c) : OfData table m := by
  rw [effect] at h
  split at h
  · exact batchMutations_ofData h
  · exact absurd h List.not_mem_nil

/-- The merge of an item. -/
def ItemMerge (config : IndexConfig) (table : TableID) (item : InvertIndexItem)
    (m : Mutation) : Prop :=
  ∃ value, writeDocList config.compressionType item.records =
      some (true, value) ∧
    m = .merge .invertedIndexColumn
      (encodeInvertedKey table item.fieldId item.term) value

/-- What is added is a merge of one of the items. -/
theorem ingestItems_mem {faults : Faults} (indices : List InvertIndexItem) :
    ∀ buffer : WriteBuffer, ∀ m ∈ (ingestItems config faults table indices
      buffer).1.mutations, m ∈ buffer.mutations ∨
        ∃ item ∈ indices, ItemMerge config table item m := by
  induction indices with
  | nil => intro buffer m hm; exact .inl hm
  | cons item rest ih =>
      intro buffer m hm
      rw [ingestItems] at hm
      split at hm
      · next value hvalue =>
          have hput : ∀ m ∈ (buffer.append faults (.merge .invertedIndexColumn
              (encodeInvertedKey table item.fieldId item.term)
              value)).1.mutations, m ∈ buffer.mutations ∨
                ItemMerge config table item m := by
            intro m hm
            rw [WriteBuffer.append] at hm
            split at hm
            · exact .inl hm
            · rcases List.mem_append.1 hm with hm | hm
              · exact .inl hm
              · exact .inr ⟨value, hvalue, List.mem_singleton.1 hm⟩
          have hnext : ∀ m', m' ∈ buffer.mutations ∨
              ItemMerge config table item m' → m' ∈ buffer.mutations ∨
                ∃ x ∈ item :: rest, ItemMerge config table x m' :=
            fun m' h => h.imp_right fun h => ⟨item, List.mem_cons_self, h⟩
          dsimp only at hm
          split at hm
          · rcases ih _ m hm with hm | ⟨x, hx, hmerge⟩
            · exact hnext m (hput m hm)
            · exact .inr ⟨x, List.mem_cons_of_mem item hx, hmerge⟩
          · exact hnext m (hput m hm)
      · exact .inl hm
      · exact .inl hm

/-- What holds of the mutations of the table holds of what is added. -/
theorem ingestItems_all {faults : Faults} {P : Mutation → Prop}
    (hP : ∀ m, OfData table m → P m) (indices : List InvertIndexItem)
    (buffer : WriteBuffer) (h : ∀ m ∈ buffer.mutations, P m) :
    ∀ m ∈ (ingestItems config faults table indices buffer).1.mutations,
      P m := by
  intro m hm
  rcases ingestItems_mem indices buffer m hm with
    hm | ⟨item, -, value, -, rfl⟩
  · exact h m hm
  · exact hP _ (merge_ofData table _ _ value)

theorem dropTableMutations_ofData {m : Mutation}
    (h : m ∈ dropTableMutations table) : OfData table m := by
  have hstored := prefix_storedFieldKey table
  have hinverted := prefix_invertedKey table
  simp only [dropTableMutations, List.mem_cons, List.not_mem_nil, or_false] at h
  rcases h with rfl | rfl | rfl | rfl
  · exact ofData_of_column (range_within (hstored _) (hstored _)) trivial
      fun h => nomatch h
  · exact ofData_of_column (range_within (hinverted _ _) (hinverted _ _))
      trivial fun h => nomatch h
  · exact ofData_of_column (range_within (hstored _) (hstored _)) trivial
      fun h => nomatch h
  · refine ⟨⟨delete_within (List.prefix_refl _), trivial⟩, fun key htouch => ?_⟩
    exact (of_decide_eq_true (Bool.and_eq_true _ _ ▸ htouch).2).symm

/-! ## Other mutations -/

theorem sequenceWrites_ofTable {current : CurrentSequence} {m : Mutation}
    (h : m ∈ sequenceWrites table current) : OfTable table m := by
  have hputs : ∀ (users : List Bytes) (next : UInt64),
      ∀ m ∈ mappingPuts table users next, OfTable table m := by
    intro users
    induction users with
    | nil => exact fun _ _ hm => absurd hm List.not_mem_nil
    | cons userId rest ih =>
        intro next m hm
        rcases List.mem_cons.1 hm with rfl | hm
        · exact ⟨put_within (prefix_sequenceMappingKey table userId),
            table, .inr ⟨userId, rfl⟩⟩
        · exact ih _ m hm
  simp only [sequenceWrites] at h
  split at h
  · rcases List.mem_append.1 h with h | h
    · exact hputs _ _ m h
    · rw [List.mem_singleton.1 h]
      exact ⟨put_within (prefix_sequenceMetaKey table), table, .inl rfl⟩
  · exact absurd h List.not_mem_nil

theorem deleteKeys_ofTable {faults : Faults} {column : StorageColumnType}
    (entries : List (Bytes × Bytes)) :
    ∀ (maxLen : Nat) (lastKey : Bytes) (buffer : WriteBuffer),
    (∀ m ∈ buffer.mutations, OfTable table m) →
    (IndexWriter.deleteKeys faults column (encodeMetaKey table) entries maxLen
      lastKey buffer).2.2.ok = true →
    ∀ m ∈ (IndexWriter.deleteKeys faults column (encodeMetaKey table) entries
      maxLen lastKey buffer).2.1.mutations, OfTable table m := by
  induction entries with
  | nil => intro maxLen lastKey buffer h _; exact h
  | cons entry rest ih =>
      intro maxLen lastKey buffer h hok
      rw [IndexWriter.deleteKeys] at hok ⊢
      split
      · exact h
      · next hlen =>
          rw [if_neg hlen] at hok
          split
          · exact h
          · next hshort =>
              rw [if_neg hshort] at hok
              split
              · exact h
              · next hpre =>
                  rw [if_neg hpre] at hok
                  simp only at hok ⊢
                  split
                  · next hput =>
                      rw [if_pos hput] at hok
                      refine ih _ _ _ ?_ hok
                      rw [(append_ok hput).1]
                      intro m hm
                      rcases List.mem_append.1 hm with hm | hm
                      · exact h m hm
                      · rw [List.mem_singleton.1 hm]
                        refine ⟨delete_within
                          (List.isPrefixOf_iff_prefix.1 ?_), trivial⟩
                        simpa using hpre
                  · next hput =>
                      rw [if_neg hput] at hok
                      exact absurd hok hput

theorem deleteTableData_ofTable {faults : Faults} {column : StorageColumnType}
    {startKey : Bytes} {maxLen : Nat} :
    Applies (OfTable table) db (IndexWriter.deleteTableData faults op
      table db column startKey maxLen).db := by
  rw [IndexWriter.deleteTableData]
  split
  · exact applies_nothing
  · simp only
    generalize db.seek op column
      (if startKey = [] then encodeMetaKey table else startKey) = entries
    split
    · next hok =>
        cases hflush : (db.flushBuffer faults _).2.ok with
        | false =>
            rw [flushBuffer_failed hflush]
            exact applies_nothing
        | true =>
            refine ⟨_, flushBuffer_ok hflush, deleteKeys_ofTable _ _ _ _ ?_ hok⟩
            exact fun m hm => absurd hm List.not_mem_nil
    · exact applies_nothing

/-! ## Operations -/

namespace TableOperation

/-- The operation gives out no numbers, and deletes no page. -/
def IsData (o : TableOperation) : Prop :=
  match o.operation with
  | .acquireNewSequence _ | .deleteTableData _ _ _ _ => False
  | .writeDocuments _ | .ingestInvertIndex _ _ _
  | .acquireCurrentSequence _ _ _ | .dropTable _ _ => True

theorem perform_ofData {o : TableOperation} (h : o.IsData) :
    Applies (OfData o.table) db (o.perform config op db) := by
  obtain ⟨table, operation⟩ := o
  cases operation with
  | writeDocuments c => exact ⟨_, perform_effect, fun m hm => effect_ofData hm⟩
  | ingestInvertIndex faults storeBuffer indices =>
      refine finishBuffer_applies fun _ hnone => ?_
      rw [hnone]
      exact ingestItems_all (fun _ hm => hm) indices {}
        fun m hm => absurd hm List.not_mem_nil
  | acquireCurrentSequence faults currentMax sequenceList =>
      exact applies_nothing
  | acquireNewSequence c => exact absurd h id
  | dropTable faults storeBuffer =>
      refine finishBuffer_applies fun hok hnone => ?_
      rw [appendAll_ok _ _ hok, hnone]
      exact fun m hm => dropTableMutations_ofData hm
  | deleteTableData faults column startKey maxLen => exact absurd h id

/-- A call of the allocator, as the mutations it applies. -/
theorem perform_acquireNew {c : SequenceCall} :
    (c.perform op table db).db = db ∨
      ((c.perform op table db).status.ok = true ∧ c.storeBuffer = none) ∧
        (c.perform op table db).db =
          db.applyAll (sequenceWrites table (c.read op table db)) := by
  cases hok : (c.perform op table db).status.ok with
  | false => exact .inl (writeNewSequence_failed hok).1
  | true =>
      have hwrote := writeNewSequence_ok hok
      cases hbuffer : c.storeBuffer with
      | none => exact .inr ⟨⟨rfl, rfl⟩, hwrote.direct hbuffer⟩
      | some sb => exact .inl (hwrote.buffered (by rw [hbuffer]; simp))

/-- An operation writes to its own table. -/
theorem perform_ofTable (o : TableOperation) :
    Applies (OfTable o.table) db (o.perform config op db) := by
  by_cases h : o.IsData
  · exact (perform_ofData h).imp fun m hm => hm.toOfTable
  · obtain ⟨table, operation⟩ := o
    cases operation with
    | acquireNewSequence c =>
        rcases @perform_acquireNew op table db c with hdb | ⟨-, hdb⟩
        · exact ⟨[], hdb, fun m hm => absurd hm List.not_mem_nil⟩
        · exact ⟨_, hdb, fun m hm => sequenceWrites_ofTable hm⟩
    | deleteTableData faults column startKey maxLen =>
        exact deleteTableData_ofTable
    | writeDocuments c => exact absurd trivial h
    | ingestInvertIndex faults storeBuffer indices => exact absurd trivial h
    | acquireCurrentSequence faults currentMax sequenceList =>
        exact absurd trivial h
    | dropTable faults storeBuffer => exact absurd trivial h

theorem wellKeyed_runAll (run : List TableOperation) : ∀ {db : VirtualDB},
    WellKeyed db → WellKeyed (runAll config op db run) := by
  induction run with
  | nil => exact fun h => h
  | cons o run ih =>
      intro db h
      obtain ⟨ms, hdb, hms⟩ := @perform_ofTable config op db o
      refine ih ?_
      rw [hdb]
      exact wellKeyed_applyAll ms h fun m hm => (hms m hm).keyed

end TableOperation

end Wwsearch.Spec
