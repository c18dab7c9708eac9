import Wwsearch.Proofs.Compaction
import Wwsearch.Proofs.SearchRuns

/-!
# Searches on a database that compacts

Past the cap it shows when lists were merged, since each merge drops live ids.
It never adds one: whatever is live in a value is live in the lists that the
value stands for (`SumsUp.live`). So a search on the table is as sound as one on
the database that was left alone (`compacted_search_sound`).

The search itself is looked at on the table's own part of the database, since
other tables may hold anything.
-/

namespace Wwsearch.Spec

open Wwsearch.Lib Wwsearch.Ref

variable {config : IndexConfig} {op : DocListMergeOperator} {table : TableID}
  {plain db : VirtualDB}

/-! ## The part of a table -/

def ownPart (table : TableID) (db : VirtualDB) : VirtualDB := fun column =>
  (db column).filter fun key _ => (encodeMetaKey table).isPrefixOf key

theorem getElem?_ownPart (column : StorageColumnType) (key : Bytes) :
    (ownPart table db column)[key]? =
      if encodeMetaKey table <+: key then (db column)[key]? else none := by
  rw [ownPart, Std.ExtTreeMap.getElem?_filter']
  by_cases hkey : encodeMetaKey table <+: key
  · rw [if_pos hkey, List.isPrefixOf_iff_prefix.2 hkey]
    cases (db column)[key]? with
    | none => rfl
    | some cell => rfl
  · have hno : (encodeMetaKey table).isPrefixOf key = false :=
      Bool.eq_false_iff.2 fun h => hkey (List.isPrefixOf_iff_prefix.1 h)
    rw [if_neg hkey, hno]
    cases (db column)[key]? with
    | none => rfl
    | some cell => rfl

theorem sameTable_ownPart (table : TableID) (db : VirtualDB) :
    SameTable table (ownPart table db) db := by
  intro column key hkey
  rw [getElem?_ownPart, if_pos hkey]

/-! ## Past the cap -/

section Sound

variable {docs : DocumentID → Option Document}
  (hw : Written config table plain docs)
  (h : SumsUp op Shields Sound table plain db)
  (hfits : ListsWithin 10000000 table plain)

include h hfits

/-- A value that is read, and the lists that it stands for. -/
theorem SumsUp.read {key : Bytes} (hkey : encodeMetaKey table <+: key)
    {cell : Cell} (hcell : (db .invertedIndexColumn)[key]? = some cell) :
    ∃ value docs, VirtualDB.cellValue op cell = some value ∧
      Stores value docs ∧
      Sound docs (cellLists (plain .invertedIndexColumn)[key]?) := by
  have hlists := h.lists key hkey
  have hwithin := hfits key hkey
  rw [hcell] at hlists
  generalize (plain .invertedIndexColumn)[key]? = cell' at hlists hwithin ⊢
  cases hlists with
  | here hterm hstands =>
      obtain ⟨value, docs, hvalue, hstores, -, hsound⟩ := CellStands.read
        (shields_listSimulation op.maxDocListNum.toNat 10000000) (Nat.le_refl _)
        hterm.wellFormed hwithin hstands
      exact ⟨value, docs, hvalue, hstores, hsound⟩

/-- An id that is read is live in the database that was left alone. -/
theorem SumsUp.live {f : FieldID} {t : Bytes} {d : DocumentID}
    (hd : d ∈ termIds op table (ownPart table db) f t) :
    lastState (cellLists (plain .invertedIndexColumn)[encodeInvertedKey table f
      t]?) d = some kDocumentStateOK := by
  have hkey := prefix_invertedKey table f t
  obtain ⟨e, he, rfl⟩ := hd
  rw [termList, VirtualDB.get, getElem?_ownPart, if_pos hkey] at he
  cases hcell : (db .invertedIndexColumn)[encodeInvertedKey table f t]? with
  | none =>
      rw [hcell] at he
      exact absurd he List.not_mem_nil
  | some cell =>
      obtain ⟨value, docs, hvalue, hstores, hok, hlive⟩ :=
        h.read hfits hkey hcell
      rw [hcell, Option.bind_some, hvalue, Option.bind_some, hstores.decodes,
        Option.getD_some] at he
      have hstate := (stateIn_eq_some hstores.wellFormed.desc).2 he
      rw [hok e he] at hstate
      exact hlive e.docId hstate

include hw

theorem SumsUp.readableIndex : ReadableIndex op (ownPart table db) where
  key_length key hkey := by
    obtain ⟨cell, hcell⟩ := Option.isSome_iff_exists.1
      (Std.ExtTreeMap.mem_iff_isSome_getElem?.1 hkey)
    rw [getElem?_ownPart] at hcell
    split at hcell
    · next hprefix =>
        have hlists := h.lists key hprefix
        rw [hcell] at hlists
        refine (hw.alone .invertedIndexColumn key fun hnone => ?_).2
        rw [hnone] at hlists
        cases hlists
    · cases hcell
  list key cell hcell := by
    rw [getElem?_ownPart] at hcell
    split at hcell
    · next hprefix =>
        obtain ⟨value, docs, hvalue, hstores, -⟩ := h.read hfits hprefix hcell
        exact ⟨value, _, hvalue,
          newDocListReaderCodec_of_docListOf hstores.decodes,
          hstores.wellFormed.desc, hstores.wellFormed.nonzero⟩
    · cases hcell

omit hfits in
theorem SumsUp.readableDocValues :
    ReadableDocValues (quietContext config op table (ownPart table db)) := by
  have hget : ∀ d, (ownPart table db).get op .docValueColumn
      (encodeStoredFieldKey table d) = plain.get op .docValueColumn
        (encodeStoredFieldKey table d) := by
    intro d
    have hkey := prefix_storedFieldKey table d
    rw [VirtualDB.get, VirtualDB.get, getElem?_ownPart, if_pos hkey,
      h.records .docValueColumn (by decide) _ hkey]
  have hrow : ∀ d, Searcher.innerGetField config {} op table
      (ownPart table db) .docValue { documentId := d } =
        Searcher.innerGetField config {} op table plain .docValue
          { documentId := d } := by
    intro d
    rw [Searcher.innerGetField, Searcher.innerGetField, Searcher.fieldsColumn,
      getStatus_congr (hget d)]
  intro d
  have hplain := hw.readableDocValues op d
  show ((Searcher.innerGetField config {} op table (ownPart table db) .docValue
      { documentId := d }).1.ok ∨ (Searcher.innerGetField config {} op table
        (ownPart table db) .docValue { documentId := d }).1.documentNotExist) ∧
    (Searcher.innerGetField config {} op table (ownPart table db) .docValue
      { documentId := d }).2.documentId = d
  rw [hrow]
  exact hplain

theorem SumsUp.denote_subset {q : Query} (hfit : TermsFit q) :
    denote op table (ownPart table db) q ⊆ Sought config op table plain q := by
  intro d hd
  refine mem_sought_iff.2 (Holds.mono (fun f t ht => ?_) q
    ((mem_denote_iff q hfit).1 hd))
  exact hw.storedTerm_iff.2 ((hw.posts.live f t ht.1 d).1 (h.live hfits ht.2))

end Sound

/-! ## Runs -/

/-- Batches write the same on both sides: what they read is not in the column of
lists. -/
theorem SumsUp.writeDocuments {u : TableID} {db' : VirtualDB}
    (h : SumsUp op Shields Sound u db db') (c : BatchCall) :
    SumsUp op Shields Sound u (c.perform config op u db).db
      (c.perform config op u db').db := by
  have hrecords : SameRecords u c db db' := fun d _ column hcolumn =>
    (h.records column hcolumn _ (prefix_storedFieldKey u d)).symm
  rw [perform_effect, perform_effect, ← effect_congr hrecords]
  exact h.applyAll (shields_listSimulation op.maxDocListNum.toNat 10000000)
    fun m hm => addsLists_effect hm

theorem batches_disregards (config : IndexConfig) (op : DocListMergeOperator)
    (u : TableID) :
    Disregards (TableOperation.perform config op) (Compaction op)
      (ListsWithin 10000000 u)
      (fun o => o.table = u → ∃ c, o.operation = .writeDocuments c)
      (SumsUp op Shields Sound u) where
  input := by
    rintro db db' ⟨table, operation⟩ - hgood h
    by_cases htable : table = u
    · obtain rfl := htable
      obtain ⟨c, hc⟩ := hgood rfl
      obtain rfl : operation = .writeDocuments c := hc
      exact h.writeDocuments c
    · exact h.others htable
  silent hfits h hc := h.compaction
    (shields_listSimulation op.maxDocListNum.toNat 10000000) (Nat.le_refl _)
    hfits hc

/-- Two databases that hold the same of a table are summed up alike. -/
theorem SumsUp.of_sameTable {u : TableID} {db db' db'' : VirtualDB}
    (hsame : SameTable u db db') (h : SumsUp op Shields Sound u db' db'') :
    SumsUp op Shields Sound u db db'' := by
  refine ⟨fun column hcolumn key hkey => ?_, fun key hkey => ?_⟩
  · rw [h.records column hcolumn key hkey, hsame column key hkey]
  · rw [← hsame _ key hkey]
    exact h.lists key hkey

section Search

variable {σ : Type} [LT σ] [DecidableLT σ] [Zero σ] [Add σ]

/-- After any searchable run, between any operations on other tables and with
any merges of the storage engine in between: a query without score strategies
is answered, and its page has no document that is not stored with a record that
satisfies the tree and with doc values that pass the filters, has none twice, and
has no more than the limit. It may miss documents where lists are longer than
the operator keeps; the lists have records of no more than ten million ids. -/
theorem compacted_search_sound (config : IndexConfig)
    (op : DocListMergeOperator) (table : TableID) (run : List TableOperation)
    (hrun : SearchableRun table run)
    (hfits : StaysWithin config op 10000000 table run) (db : VirtualDB)
    (h : Compacted config op run db) (a : Searcher.QueryArgs σ)
    (hscore : a.scoreStrategyList = []) (hfit : TermsFit a.query)
    (queues : CollectorQueues σ a.sorter) (offset limit : UInt64) :
    let context := quietContext config op table db
    ∃ r, Settles (fun fuel => Searcher.doQuery fuel context a queues offset
        limit []) r ∧
      SoundPage context a limit (Sought config op table db a.query) r.docs := by
  obtain ⟨calls, hcalls, hown⟩ := hrun
  obtain ⟨docs, hw⟩ := Written.runCalls op calls hcalls
    (written_empty config table)
  have hsame := sameTable_runCalls config op hown
  have hbatches : ∀ o ∈ run, o.table = table →
      ∃ c, o.operation = .writeDocuments c := by
    intro o ho htable
    have hmem : o ∈ run.filter fun o => o.table = table :=
      List.mem_filter.2 ⟨ho, decide_eq_true htable⟩
    rw [hown] at hmem
    obtain ⟨c, -, rfl⟩ := List.mem_map.1 hmem
    exact ⟨c.batch, rfl⟩
  have hsums : SumsUp op Shields Sound table
      (runCalls config op table .empty calls) db :=
    .of_sameTable hsame ((batches_disregards config op table).run sumsUp_empty h
      hfits hbatches)
  have hwithin : ListsWithin 10000000 table
      (runCalls config op table .empty calls) := by
    intro key hkey
    rw [← hsame _ key hkey]
    exact hfits.last key hkey
  obtain ⟨r, ids, hr, -, -, -, -, hsound, -⟩ := search_readable
    (hsums.readableIndex hw hwithin) (hsums.readableDocValues hw) a hscore hfit
    queues offset limit
  have hpart := sameTable_ownPart table db
  obtain ⟨r', hr', hlimit⟩ := hpart.settles hr
  refine ⟨r', hr', ?_⟩
  rw [← hlimit.docs]
  have hstored : ∀ d, storedDocument config op table db d =
      storedDocument config op table (runCalls config op table .empty calls)
        d := by
    intro d
    rw [storedDocument_eq, storedDocument_eq, VirtualDB.get, VirtualDB.get,
      hsums.records .storedFieldColumn (by decide) _
        (prefix_storedFieldKey table d)]
  refine ⟨hsound.nodup, hsound.length_le, fun d hd => ?_, fun d hd => ?_⟩
  · obtain ⟨doc, hdoc, hholds⟩ :=
      hsums.denote_subset hw hwithin hfit (hsound.sought d hd)
    exact ⟨doc, (hstored d).trans hdoc, hholds⟩
  · rw [hpart.docValues d]
    exact hsound.filtered d hd

theorem compacted_search_sound_seven :
    ∃ r, Settles (fun fuel => Searcher.doQuery fuel (quietContext spaceConfig
        millionOperator ⟨1, 2⟩ sevenCompacted) searchD plainQueues 0 10 []) r ∧
      SoundPage (quietContext spaceConfig millionOperator ⟨1, 2⟩ sevenCompacted)
        searchD 10 (Sought spaceConfig millionOperator ⟨1, 2⟩ sevenCompacted
          searchD.query) r.docs :=
  compacted_search_sound spaceConfig millionOperator ⟨1, 2⟩ sevenOperations
    ⟨[addSeven, updateSeven], searchable_seven, rfl⟩
    (fun before hbefore key hkey =>
      (staysWithin_seven before hbefore key hkey).trans (by decide))
    sevenCompacted compacted_seven searchD rfl
    (by rw [searchD, TermsFit]; decide) plainQueues 0 10

end Search

end Wwsearch.Spec
