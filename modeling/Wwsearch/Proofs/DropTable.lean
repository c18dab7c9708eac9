import Wwsearch.Proofs.Operations
import Wwsearch.Proofs.StoreBuffers
import Wwsearch.Spec.DropTable

/-!
# What `DropTable` leaves

A key of a table is its nine bytes and a rest. In these terms each of the three
ranges goes from a rest of zero bytes to one of 255s, so what stays are the
keys whose rest continues the latter (`range_touches`). The greatest id, and
the terms of field 255 that begin with `maxTerm`, are just such rests. The
delete in the meta column is of a key that nothing writes.
-/

namespace Wwsearch.Spec

open Wwsearch.Lib Wwsearch.Ref Wwsearch.Ref.DocumentWriter

/-! ## What clients can have written -/

section Reachable

variable {config : IndexConfig} {op : DocListMergeOperator} {db : VirtualDB}
  {P : Mutation → Prop}

theorem finishBuffer_queued {faults : Faults} {storeBuffer : Option StoreBuffer}
    {r : WriteBuffer × SearchStatus} (hsb : ∀ m ∈ queued storeBuffer, P m)
    (hr : r.2.ok = true → ∀ m ∈ r.1.mutations, P m) :
    ∀ m ∈ queued (finishBuffer faults db storeBuffer r).storeBuffer, P m := by
  simp only [finishBuffer]
  split
  · next hok =>
      cases storeBuffer with
      | none => exact hsb
      | some sb => exact hr hok
  · exact hsb

/-- A call leaves keys of the columns in a store buffer, if there were no
others. -/
theorem perform_queued (c : BufferedCall) {storeBuffer : Option StoreBuffer}
    (h : ∀ m ∈ queued storeBuffer, m.Keyed) :
    ∀ m ∈ queued (c.perform config op db storeBuffer).storeBuffer,
      m.Keyed := by
  obtain ⟨table, faults, request⟩ := c
  have happend : ∀ ms : List Mutation, (∀ m ∈ ms, m.Keyed) →
      ∀ m ∈ queued storeBuffer ++ ms, m.Keyed := fun ms hms m hm =>
    (List.mem_append.1 hm).elim (h m) (hms m)
  cases request with
  | writeDocuments mode updaters =>
      show ∀ m ∈ queued (IndexWriter.innerWriteDocuments config faults op
        table db storeBuffer mode updaters).storeBuffer, m.Keyed
      cases hok : (IndexWriter.innerWriteDocuments config faults op table db
          storeBuffer mode updaters).ok with
      | false =>
          rw [(IndexWriter.innerWriteDocuments_kept hok).2]
          exact h
      | true =>
          rw [(IndexWriter.innerWriteDocuments_ok hok).storeBuffer_eq]
          cases storeBuffer with
          | none => exact h
          | some sb => exact happend _ fun m hm =>
              (batchMutations_ofData hm).keyed
  | ingestInvertIndex indices =>
      exact finishBuffer_queued h fun _ =>
        ingestItems_all (fun m hm => hm.keyed) indices _ h
  | acquireNewSequence sequenceList hlen =>
      show ∀ m ∈ queued (acquireNewSequence faults op table db storeBuffer
        sequenceList).storeBuffer, m.Keyed
      rw [acquireNewSequence]
      cases hok : (writeNewSequence faults table db storeBuffer
          (acquireCurrentSequence faults op table db 0
            sequenceList)).status.ok with
      | false =>
          rw [(writeNewSequence_failed hok).2]
          exact h
      | true =>
          rw [(writeNewSequence_ok hok).left]
          cases storeBuffer with
          | none => exact h
          | some sb =>
              rw [Option.map_some]
              split
              · exact fun m hm => absurd hm List.not_mem_nil
              · exact happend _ fun m hm => (sequenceWrites_ofTable hm).keyed
  | dropTable =>
      refine finishBuffer_queued h fun hok => ?_
      rw [appendAll_ok _ _ hok]
      exact happend _ fun m hm => (dropTableMutations_ofData hm).keyed

theorem Queued.keyed {sb : StoreBuffer} (h : Queued config op sb) :
    ∀ m ∈ queued (some sb), m.Keyed := by
  induction h with
  | empty => exact fun m hm => absurd hm List.not_mem_nil
  | call db c _ hleft ih =>
      rw [← hleft]
      exact perform_queued c ih

theorem Reachable.runAll (run : List TableOperation) : ∀ {db : VirtualDB},
    Reachable config op db →
    Reachable config op (TableOperation.runAll config op db run) := by
  induction run with
  | nil => exact fun h => h
  | cons o run ih => exact fun h => ih (.perform o h)

theorem Reachable.wellKeyed (h : Reachable config op db) : WellKeyed db := by
  induction h with
  | empty => exact wellKeyed_empty
  | perform o _ ih =>
      obtain ⟨ms, hdb, hms⟩ := @TableOperation.perform_ofTable config op _ o
      rw [hdb]
      exact wellKeyed_applyAll ms ih fun m hm => (hms m hm).keyed
  | flush hsb _ ih => exact wellKeyed_applyAll _ ih hsb.keyed

end Reachable

/-! ## The ranges -/

section Ranges

variable {table : TableID} {db : VirtualDB} {column : StorageColumnType}

theorem zero_least (b : UInt8) : compare 0 b ≠ .gt := by
  rw [Ne, Std.compare_eq_gt]
  exact UInt8.not_lt_zero

theorem max_greatest (b : UInt8) : compare b 255 ≠ .gt := by
  rw [Ne, Std.compare_eq_gt, UInt8.lt_iff_toNat_lt]
  exact Nat.not_lt.2 (Nat.le_of_lt_succ b.toNat_lt)

/-- The range that clears a column. -/
theorem range_touches (table : TableID) (column : StorageColumnType)
    {n m : Nat} {rest : Bytes} (hlen : n ≤ rest.length) :
    (Mutation.deleteRange column (encodeMetaKey table ++ List.replicate n 0)
        (encodeMetaKey table ++ List.replicate m 255)).touches column
      (encodeMetaKey table ++ rest) = true ↔
    ¬ List.replicate m 255 <+: rest := by
  have hfrom := KeyOrder.compare_replicate_least zero_least hlen
  rw [← KeyOrder.compare_replicate_greatest max_greatest, Mutation.touches,
    KeyOrder.compare_append_append, KeyOrder.compare_append_append]
  simp [hfrom, Mutation.column]

/-- After deletes only, a cell that one of them touches is gone. -/
theorem applyAll_deletes {ms : List Mutation}
    (hms : ∀ m ∈ ms, ∀ cell, m.applyCell cell = none) (key : Bytes) :
    (db.applyAll ms column)[key]? =
      if ms.any (·.touches column key) then none else (db column)[key]? := by
  split
  · next hany =>
      rw [applyAll_getElem?]
      rcases List.eq_nil_or_concat (ms.filter (·.touches column key)) with
        hnil | ⟨init, m, hconcat⟩
      · rw [List.filter_eq_nil_iff] at hnil
        obtain ⟨m, hm, htouch⟩ := List.any_eq_true.1 hany
        exact absurd htouch (hnil m hm)
      · have hm : m ∈ ms.filter (·.touches column key) := by simp [hconcat]
        rw [hconcat, List.concat_eq_append, List.foldl_append]
        exact hms m (List.mem_filter.1 hm).1 _
  · next hany =>
      refine applyAll_getElem?_of_untouched fun m hm => ?_
      rw [Bool.not_eq_true, List.any_eq_false] at hany
      exact Bool.not_eq_true _ ▸ hany m hm

theorem dropTable_cell (key : Bytes) :
    (db.applyAll (dropTableMutations table) column)[key]? =
      if (dropTableMutations table).any (·.touches column key) then none
      else (db column)[key]? := by
  refine applyAll_deletes (fun m hm cell => ?_) key
  simp only [dropTableMutations, List.mem_cons, List.not_mem_nil, or_false]
    at hm
  rcases hm with rfl | rfl | rfl | rfl <;> rfl

/-- What is touched in a column is touched by the mutations of the column. -/
theorem any_touches (ms : List Mutation) (key : Bytes) :
    ms.any (·.touches column key) =
      (ms.filter (·.column = column)).any (·.touches column key) := by
  rw [List.any_filter]
  refine congrArg (ms.any ·) (funext fun m => ?_)
  by_cases hcolumn : m.column = column
  · rw [decide_eq_true hcolumn, Bool.true_and]
  · simp [Mutation.touches, hcolumn]

/-- A column that is cleared by a range. -/
theorem cleared_by_range {n m : Nat}
    (hrange : ∀ key, (dropTableMutations table).any (·.touches column key) =
      (Mutation.deleteRange column (encodeMetaKey table ++ List.replicate n 0)
        (encodeMetaKey table ++ List.replicate m 255)).touches column key)
    (hlen : ∀ rest, (db column)[encodeMetaKey table ++ rest]? ≠ none →
      n ≤ rest.length) :
    (∀ key, encodeMetaKey table <+: key →
      (db.applyAll (dropTableMutations table) column)[key]? = none) ↔
    ∀ rest, List.replicate m 255 <+: rest →
      (db column)[encodeMetaKey table ++ rest]? = none := by
  constructor
  · intro h rest hrest
    by_contra hne
    have hcell := h _ (List.prefix_append _ rest)
    rw [dropTable_cell, hrange, if_neg] at hcell
    · exact hne hcell
    · exact fun htouch =>
        (range_touches table column (hlen rest hne)).1 htouch hrest
  · rintro h key ⟨rest, rfl⟩
    rw [dropTable_cell, hrange]
    split
    · rfl
    · next htouch =>
        by_contra hne
        exact hne (h rest (not_not.1 fun hno => htouch
          ((range_touches table column (hlen rest hne)).2 hno)))

end Ranges

/-! ## The columns -/

section Columns

variable {table : TableID} {db : VirtualDB} {column : StorageColumnType}

theorem encodeStoredFieldKey_maxDocID (table : TableID) :
    encodeStoredFieldKey table maxDocID =
      encodeMetaKey table ++ List.replicate 8 255 := by
  rw [encodeStoredFieldKey_eq]
  exact congrArg (encodeMetaKey table ++ ·) (by decide)

/-- The rest of a key with a document id. -/
theorem length_documentRest (h : WellKeyed db)
    (hcolumn : column = .storedFieldColumn ∨ column = .docValueColumn)
    {rest : Bytes} (hrest : (db column)[encodeMetaKey table ++ rest]? ≠ none) :
    rest.length = 8 := by
  have hkey : ∃ u d, encodeMetaKey table ++ rest = encodeStoredFieldKey u d := by
    have hkey := h column _ hrest
    rcases hcolumn with rfl | rfl
    · exact hkey
    · exact hkey
  obtain ⟨u, d, hkey⟩ := hkey
  have hlen := congrArg List.length hkey
  rw [encodeStoredFieldKey_eq, List.length_append, List.length_append,
    encodeMetaKey_length, encodeMetaKey_length, List.length_reverse,
    Word.toLE_length] at hlen
  omega

theorem documents_emptied_iff (h : WellKeyed db)
    (hcolumn : column = .storedFieldColumn ∨ column = .docValueColumn) :
    (∀ key, encodeMetaKey table <+: key →
      (db.applyAll (dropTableMutations table) column)[key]? = none) ↔
    (db column)[encodeStoredFieldKey table maxDocID]? = none := by
  have hzero : encodeStoredFieldKey table 0 =
      encodeMetaKey table ++ List.replicate 8 0 := by
    rw [encodeStoredFieldKey_eq]
    exact congrArg (encodeMetaKey table ++ ·) (by decide)
  have hmax := encodeStoredFieldKey_maxDocID table
  have hmax' : encodeStoredFieldKey table 0xFFFFFFFFFFFFFFFF = _ := hmax
  have hrange : ∀ key, (dropTableMutations table).any (·.touches column key) =
      (Mutation.deleteRange column (encodeMetaKey table ++ List.replicate 8 0)
        (encodeMetaKey table ++ List.replicate 8 255)).touches column key := by
    intro key
    rw [← hzero, ← hmax', any_touches]
    rcases hcolumn with rfl | rfl
    · exact Bool.or_false _
    · exact Bool.or_false _
  rw [cleared_by_range hrange fun rest hrest =>
    (length_documentRest h hcolumn hrest).ge, hmax]
  constructor
  · exact fun hall => hall _ (List.prefix_refl _)
  · intro hcell rest hrest
    by_contra hne
    have heq := hrest.eq_of_length (by
      rw [List.length_replicate, length_documentRest h hcolumn hne])
    rw [← heq] at hne
    exact hne hcell

theorem inverted_emptied_iff (h : WellKeyed db) :
    (∀ key, encodeMetaKey table <+: key →
      (db.applyAll (dropTableMutations table) .invertedIndexColumn)[key]? =
        none) ↔
    ∀ term, maxTerm <+: term →
      (db .invertedIndexColumn)[encodeMetaKey table ++ 255 :: term]? =
        none := by
  have hzero : encodeInvertedKey table 0 [] =
      encodeMetaKey table ++ List.replicate 1 0 := by
    rw [encodeInvertedKey_cut]
    rfl
  have hmax : encodeInvertedKey table 255 maxTerm =
      encodeMetaKey table ++ List.replicate 257 255 := by
    have hlen : maxTerm.length = 256 := List.length_replicate
    have htake : maxTerm.take (Nat.toUInt32 256).toNat = maxTerm :=
      List.take_of_length_le hlen.le
    rw [encodeInvertedKey_cut, hlen, htake]
    rfl
  have hrange : ∀ key, (dropTableMutations table).any
      (·.touches .invertedIndexColumn key) = (Mutation.deleteRange
        .invertedIndexColumn (encodeMetaKey table ++ List.replicate 1 0)
        (encodeMetaKey table ++ List.replicate 257 255)).touches
          .invertedIndexColumn key := by
    intro key
    rw [← hzero, ← hmax, any_touches]
    exact Bool.or_false _
  rw [cleared_by_range hrange fun rest hrest => ?_]
  · constructor
    · exact fun hall term hterm => hall (255 :: term)
        (List.cons_prefix_cons.2 ⟨rfl, hterm⟩)
    · rintro hall rest ⟨more, rfl⟩
      exact hall (maxTerm ++ more) (List.prefix_append _ more)
  · obtain ⟨u, f, t, hkey⟩ := h _ _ hrest
    have hlen := congrArg List.length hkey
    rw [encodeInvertedKey_cut, List.length_append, List.length_append,
      encodeMetaKey_length, encodeMetaKey_length, List.length_cons] at hlen
    omega

theorem meta_emptied_iff (h : WellKeyed db) :
    (∀ key, encodeMetaKey table <+: key →
      (db.applyAll (dropTableMutations table) .metaColumn)[key]? = none) ↔
    (db .metaColumn)[encodeSequenceMetaKey table]? = none ∧
      ∀ userId,
        (db .metaColumn)[encodeSequenceMappingKey table userId]? = none := by
  have hcell : ∀ key, key ≠ encodeMetaKey table →
      (db.applyAll (dropTableMutations table) .metaColumn)[key]? =
        (db .metaColumn)[key]? := by
    intro key hkey
    have huntouched : (writeTableMetaForDropTable table).touches .metaColumn
        key = false := by
      simp [writeTableMetaForDropTable, Mutation.touches, hkey.symm]
    have hany : (dropTableMutations table).any (·.touches .metaColumn key) =
        false := (any_touches _ _).trans
      ((Bool.or_false _).trans huntouched)
    rw [dropTable_cell, if_neg (Bool.not_eq_true _ ▸ hany)]
  have hmeta : encodeSequenceMetaKey table ≠ encodeMetaKey table := by
    rw [encodeSequenceMetaKey_eq]
    simp
  have hmapping : ∀ userId,
      encodeSequenceMappingKey table userId ≠ encodeMetaKey table := by
    intro userId
    rw [encodeSequenceMappingKey_eq]
    simp
  constructor
  · intro hall
    refine ⟨?_, fun userId => ?_⟩
    · rw [← hcell _ hmeta]
      exact hall _ (prefix_sequenceMetaKey table)
    · rw [← hcell _ (hmapping userId)]
      exact hall _ (prefix_sequenceMappingKey table userId)
  · rintro ⟨hmaximum, hnumber⟩ key hkey
    by_contra hne
    rw [dropTable_cell] at hne
    split at hne
    · exact hne rfl
    · obtain ⟨u, hu⟩ := h .metaColumn key hne
      rcases hu with rfl | ⟨userId, rfl⟩
      · obtain rfl := table_unique hkey (prefix_sequenceMetaKey u)
        exact hne hmaximum
      · obtain rfl := table_unique hkey (prefix_sequenceMappingKey u userId)
        exact hne (hnumber userId)

/-- What `DropTable` empties. -/
theorem emptied_iff (h : WellKeyed db) :
    Emptied table (db.applyAll (dropTableMutations table)) ↔
      Droppable table db := by
  have hcolumns : Emptied table (db.applyAll (dropTableMutations table)) ↔
      ((db .storedFieldColumn)[encodeStoredFieldKey table maxDocID]? = none ∧
        (∀ term, maxTerm <+: term →
          (db .invertedIndexColumn)[encodeMetaKey table ++ 255 :: term]? =
            none) ∧
        (db .docValueColumn)[encodeStoredFieldKey table maxDocID]? = none ∧
        (db .metaColumn)[encodeSequenceMetaKey table]? = none ∧
        ∀ userId,
          (db .metaColumn)[encodeSequenceMappingKey table userId]? = none) := by
    rw [← documents_emptied_iff h (.inl rfl), ← inverted_emptied_iff h,
      ← documents_emptied_iff h (.inr rfl), ← meta_emptied_iff h]
    simp [Emptied, tableColumns]
  rw [hcolumns]
  exact ⟨fun ⟨hs, hi, hd, hm, hn⟩ => ⟨hs, hd, hi, hm, hn⟩,
    fun ⟨hs, hd, hi, hm, hn⟩ => ⟨hs, hi, hd, hm, hn⟩⟩

end Columns

/-- **What is left of a dropped table.** In every database that can come to be,
a drop that goes through leaves no key of the table exactly if the table was
`Droppable`, and of every other table it leaves every key its value. -/
theorem dropTable_empties_iff {config : IndexConfig} {op : DocListMergeOperator}
    {db : VirtualDB} (h : Reachable config op db) (table : TableID)
    (faults : Faults)
    (hok : (dropTable faults table db none).status.ok = true) :
    (Emptied table (dropTable faults table db none).db ↔ Droppable table db) ∧
      ∀ u, u ≠ table → SameTable u db (dropTable faults table db none).db := by
  have hdb : (dropTable faults table db none).db =
      db.applyAll (dropTableMutations table) :=
    (finishBuffer_ok (appendAll_ok _ _) hok).direct rfl
  rw [hdb]
  refine ⟨emptied_iff h.wellKeyed, fun u hne column key hkey => ?_⟩
  exact applyAll_other_table hne.symm
    (fun m hm => (dropTableMutations_ofData hm).within) hkey

/-- A document that has a number in its stored and its doc-value record. -/
def addNumber (d : DocumentID) : TableOperation where
  table := ⟨1, 2⟩
  operation := .writeDocuments
    { mode := .add
      updaters := [{ newDocument := ⟨d, [{ fieldId := 2, flag := ⟨6⟩
                                           fieldType := kUint64IndexField
                                           numericValue := 5 }]⟩ }] }

/-- Document 7 is there, and nothing is after the drop. -/
theorem dropTable_empties_iff_seven :
    let db := (addNumber 7).perform spaceConfig millionOperator .empty
    (db .storedFieldColumn)[encodeStoredFieldKey ⟨1, 2⟩ 7]?.isSome = true ∧
      Emptied ⟨1, 2⟩ (dropTable {} ⟨1, 2⟩ db none).db := by
  intro db
  have hterms : ∀ key : Bytes, (db .invertedIndexColumn)[key]? = none :=
    fun _ => rfl
  have hnumbers : ∀ key : Bytes, (db .metaColumn)[key]? = none := fun _ => rfl
  refine ⟨by decide +kernel, (dropTable_empties_iff (.perform (addNumber 7)
    .empty) ⟨1, 2⟩ {} rfl).1.2 ?_⟩
  exact ⟨by decide +kernel, by decide +kernel, fun _ _ => hterms _, hnumbers _,
    fun _ => hnumbers _⟩

/-- A document with the greatest id, a term of 256 bytes 255 in field 255, and
a user with a number. -/
def lastKeys : List TableOperation :=
  [addNumber maxDocID,
    ⟨⟨1, 2⟩, .ingestInvertIndex {} none
      [{ fieldId := 255, term := maxTerm, docList := [7]
         decreasing := by decide }]⟩,
    ⟨⟨1, 2⟩, .acquireNewSequence
      { sequenceList := [{ userId := [67, 65] }], length_lt := by decide }⟩]

/-- The drop goes through and leaves a key in every column. -/
theorem dropTable_leaves_lastKeys :
    let db := TableOperation.runAll spaceConfig millionOperator .empty lastKeys
    let r := dropTable {} ⟨1, 2⟩ db none
    Reachable spaceConfig millionOperator db ∧ r.status.ok = true ∧
      ∀ column ∈ tableColumns, ∃ key, encodeMetaKey ⟨1, 2⟩ <+: key ∧
        ((r.db column)[key]?).isSome = true := by
  intro db r
  refine ⟨.runAll lastKeys .empty, by decide +kernel, ?_⟩
  simp only [tableColumns, List.forall_mem_cons]
  exact ⟨⟨_, prefix_storedFieldKey _ maxDocID, by decide +kernel⟩,
    ⟨_, prefix_invertedKey _ 255 maxTerm, by decide +kernel⟩,
    ⟨_, prefix_storedFieldKey _ maxDocID, by decide +kernel⟩,
    ⟨_, prefix_sequenceMetaKey _, by decide +kernel⟩,
    fun _ hm => absurd hm List.not_mem_nil⟩

end Wwsearch.Spec
