import Wwsearch.Proofs.CellSummary
import Wwsearch.Proofs.History

/-!
# Nobody can tell whether the storage engine compacts

The database that compacts is followed by the one that does not. What they hold
of a table is the same but for the cells of its lists, and there a cell stands
for the lists that the other one has as operands (`SumsUp`). A batch adds the
same lists on both sides, a merge changes nothing of what its cell stands for,
and so the relation is kept by everything that can happen
(`follows_disregards`).

While no list has records of more ids than the operator keeps, a cell stands
for the map of its lists exactly, and then it is read like them byte for byte,
whatever was merged when (`compaction_invisible`).
-/

namespace Wwsearch.Spec

open Wwsearch.Lib Wwsearch.Ref Wwsearch.Ref.DocumentWriter

/-! ## Two ways to stand for lists -/

theorem mem_mentioned_of_stateIn {docs : List DocList}
    {lists : List (List DocList)}
    (h : ∀ d, stateIn docs d ≠ none → lastState lists d ≠ none) :
    ∀ doc ∈ docs, doc.docId ∈ mentioned lists := by
  intro doc hdoc
  refine mem_mentioned_iff.2 (h doc.docId fun hnone => ?_)
  exact stateIn_eq_none.1 hnone doc hdoc rfl

/-- Past the cap. -/
theorem shields_listSimulation (n cap : Nat) : ListSimulation n cap Shields Sound where
  simulates _ hwf _ := shields_simulation n hwf
  mention h := mem_mentioned_of_stateIn h.mention
  bottom_mention := by
    rintro docs lists ⟨hok, hlive⟩
    refine mem_mentioned_of_stateIn fun d hd => ?_
    obtain ⟨s, hs⟩ := Option.ne_none_iff_exists'.1 hd
    obtain ⟨e, he, rfl⟩ := Option.map_eq_some_iff.1 hs
    rw [hok e (List.mem_of_find?_eq_some he)] at hs
    rw [hlive d hs]
    exact Option.some_ne_none _

/-- Under the cap. -/
theorem exact_listSimulation {n cap : Nat} (hcap : cap ≤ n) :
    ListSimulation n cap Exact ExactLive where
  simulates _ _ hfits := exact_simulation (hfits.trans hcap)
  mention h := mem_mentioned_of_stateIn fun d hd => h d ▸ hd
  bottom_mention := by
    intro docs lists h
    refine mem_mentioned_of_stateIn fun d hd hnone => hd ?_
    rw [h d, hnone]
    rfl

/-! ## The same table, summed up -/

section Relation

variable (op : DocListMergeOperator)
  (Stands Bottom : List DocList → List (List DocList) → Prop)

/-- A cell of lists, and one that stands for them. -/
inductive CellsAlike : Option Cell → Option Cell → Prop
  | gone : CellsAlike none none
  | here {cell cell' : Cell} (hcell : TermCell (some cell))
      (h : CellStands op.compressionType Stands Bottom
        (cellLists (some cell)) cell') : CellsAlike (some cell) (some cell')

/-- The second database holds the same of the table, but what it has in the
cells of the lists only stands for what the first one has there. -/
structure SumsUp (u : TableID) (db db' : VirtualDB) : Prop where
  records : ∀ column ≠ .invertedIndexColumn, ∀ key, encodeMetaKey u <+: key →
    (db' column)[key]? = (db column)[key]?
  lists : ∀ key, encodeMetaKey u <+: key → CellsAlike op Stands Bottom
    (db .invertedIndexColumn)[key]? (db' .invertedIndexColumn)[key]?

end Relation

theorem TermCell.wellFormed {cell : Option Cell} (h : TermCell cell) :
    ∀ l ∈ cellLists cell, WellFormed l := by
  cases cell with
  | none => exact fun _ hl => absurd hl List.not_mem_nil
  | some x =>
      intro l hl
      obtain ⟨value, hvalue, rfl⟩ := List.mem_map.1 hl
      exact (h.stores x rfl value hvalue).wellFormed

section Steps

variable {config : IndexConfig} {op : DocListMergeOperator} {u : TableID}
  {db db' db'' : VirtualDB} {cap : Nat}
  {Stands Bottom : List DocList → List (List DocList) → Prop}
  (hs : ListSimulation op.maxDocListNum.toNat cap Stands Bottom)

include hs

/-- A list for both cells. -/
theorem CellsAlike.merge {cell cell' : Option Cell}
    (h : CellsAlike op Stands Bottom cell cell') {column : StorageColumnType}
    {key value : Bytes} (hvalue : Stores value (listOf value)) :
    CellsAlike op Stands Bottom
      (Mutation.applyCell cell (.merge column key value))
      (Mutation.applyCell cell' (.merge column key value)) := by
  have hms : ∀ m ∈ [Mutation.merge column key value], ∃ c k v,
      m = .merge c k v ∧ Stores v (listOf v) := by
    intro m hm
    exact ⟨column, key, value, List.mem_singleton.1 hm, hvalue⟩
  cases h with
  | gone =>
      have hcell := (foldl_merges _ none termCell_none hms).1
      have hstands : CellStands op.compressionType Stands Bottom [listOf value]
          ⟨none, [value]⟩ := .single hs hvalue
      exact .here hcell hstands
  | @here x y hcell hstands =>
      obtain ⟨hcell', hlists⟩ := foldl_merges _ (some x) hcell hms
      have hstands' := hstands.append hs hvalue
      rw [← show cellLists _ = cellLists (some x) ++ [listOf value] from hlists]
        at hstands'
      exact .here hcell' hstands'

theorem CellsAlike.foldl {ms : List Mutation}
    (hms : ∀ m ∈ ms, AddsLists m) {key : Bytes}
    (htouch : ∀ m ∈ ms, m.touches .invertedIndexColumn key = true) :
    ∀ {cell cell' : Option Cell}, CellsAlike op Stands Bottom cell cell' →
    CellsAlike op Stands Bottom (ms.foldl Mutation.applyCell cell)
      (ms.foldl Mutation.applyCell cell') := by
  induction ms with
  | nil => exact fun h => h
  | cons m ms ih =>
      intro cell cell' h
      refine ih (fun m' hm' => hms m' (List.mem_cons_of_mem m hm'))
        (fun m' hm' => htouch m' (List.mem_cons_of_mem m hm')) ?_
      rcases hms m List.mem_cons_self key (htouch m List.mem_cons_self) with
        hgone | ⟨column, value, rfl, hvalue⟩
      · rw [hgone, hgone]
        exact .gone
      · exact h.merge hs hvalue

/-- One batch for both. -/
theorem SumsUp.applyAll (h : SumsUp op Stands Bottom u db db')
    {ms : List Mutation} (hms : ∀ m ∈ ms, AddsLists m) :
    SumsUp op Stands Bottom u (db.applyAll ms) (db'.applyAll ms) where
  records column hcolumn key hkey := by
    rw [applyAll_getElem?, applyAll_getElem?, h.records column hcolumn key hkey]
  lists key hkey := by
    rw [applyAll_getElem?, applyAll_getElem?]
    exact CellsAlike.foldl hs (fun m hm => hms m (List.mem_of_mem_filter hm))
      (fun m hm => (List.mem_filter.1 hm).2) (h.lists key hkey)

/-- The operands by themselves. -/
theorem TermCell.stands {cell : Cell} (h : TermCell (some cell)) :
    CellStands op.compressionType Stands Bottom (cellLists (some cell)) cell := by
  obtain ⟨hbase, hne⟩ := h.merges cell rfl
  have hstores := forall₂_stores (h.stores cell rfl)
  refine ⟨⟨[], cellLists (some cell), hbase ▸ .nothing, ⟨_,
    (cellLists (some cell)).map fun l => [l], hstores, ?_, ?_⟩, rfl⟩,
    fun _ => hne⟩
  · refine List.forall₂_map_right_iff.2 (List.forall₂_same.2 fun l hl => ?_)
    exact hs.operand (h.wellFormed l hl)
  · rw [← List.flatMap_def]
    exact List.flatMap_singleton' _

variable (hcap : cap ≤ 10000000)

include hcap

/-- A merge in the second database. -/
theorem SumsUp.compaction (h : SumsUp op Stands Bottom u db db')
    (hfits : ListsWithin cap u db) (hc : Compaction op db' db'') :
    SumsUp op Stands Bottom u db db'' := by
  obtain @⟨key, cell, cell', hcell, hcompacts⟩ := hc
  refine ⟨fun column hcolumn k hk => ?_, fun k hk => ?_⟩
  · rw [setCell, if_neg hcolumn]
    exact h.records column hcolumn k hk
  · have hlists := h.lists k hk
    have hwithin := hfits k hk
    rw [setCell, if_pos rfl, Std.ExtTreeMap.getElem?_insert]
    split
    · next heq =>
        obtain rfl : key = k := Std.compare_eq_iff_eq.1 heq
        rw [hcell] at hlists
        generalize (db .invertedIndexColumn)[key]? = plain at hlists hwithin
        cases hlists with
        | here hterm hstands =>
            exact .here hterm (hstands.compacts hs hcap hterm.wellFormed hwithin
              hcompacts)
    · exact hlists

end Steps

section Runs

variable {config : IndexConfig} {op : DocListMergeOperator} {u : TableID}
  {db db' : VirtualDB} {cap : Nat}
  {Stands Bottom : List DocList → List (List DocList) → Prop}

theorem sumsUp_empty : SumsUp op Stands Bottom u .empty .empty where
  records _ _ _ _ := rfl
  lists _ _ := .gone

/-- What is done to other tables. -/
theorem SumsUp.others (h : SumsUp op Stands Bottom u db db')
    {o : TableOperation} (hne : o.table ≠ u) :
    SumsUp op Stands Bottom u (o.perform config op db)
      (o.perform config op db') := by
  have hsame := @sameTable_perform config op u db o hne
  have hsame' := @sameTable_perform config op u db' o hne
  refine ⟨fun column hcolumn key hkey => ?_, fun key hkey => ?_⟩
  · rw [hsame column key hkey, hsame' column key hkey]
    exact h.records column hcolumn key hkey
  · rw [hsame _ key hkey, hsame' _ key hkey]
    exact h.lists key hkey

/-! ## Under the cap -/

/-- Cells that stand for the same lists exactly have the same value. -/
theorem CellsAlike.value {cell cell' : Option Cell} (hcap : cap ≤ 10000000)
    (hn : cap ≤ op.maxDocListNum.toNat)
    (h : CellsAlike op Exact ExactLive cell cell')
    (hfits : (recordedIds cell).card ≤ cap) :
    cell'.map (VirtualDB.cellValue op) = cell.map (VirtualDB.cellValue op) := by
  have hs := exact_listSimulation hn
  cases h with
  | gone => rfl
  | here hterm hstands =>
      have hwf := hterm.wellFormed
      obtain ⟨value, docs, hvalue, hstores, hwrite, hlive⟩ :=
        CellStands.read hs hcap hwf hfits (hterm.stands hs)
      obtain ⟨value', docs', hvalue', hstores', hwrite', hlive'⟩ :=
        CellStands.read hs hcap hwf hfits hstands
      obtain rfl : docs = docs' := eq_of_stateIn hstores.wellFormed.desc
        hstores'.wellFormed.desc fun d => (hlive d).trans (hlive' d).symm
      obtain ⟨-, rfl⟩ := Prod.mk.inj
        (Option.some.inj (hwrite.symm.trans hwrite'))
      rw [Option.map_some, Option.map_some, hvalue, hvalue']

theorem SumsUp.butLists (hcap : cap ≤ 10000000)
    (hn : cap ≤ op.maxDocListNum.toNat)
    (h : SumsUp op Exact ExactLive u db db') (hfits : ListsWithin cap u db) :
    SameButLists op u db db' where
  reads column key hkey := by
    by_cases hcolumn : column = .invertedIndexColumn
    · subst hcolumn
      exact (h.lists key hkey).value hcap hn (hfits key hkey)
    · rw [h.records column hcolumn key hkey]
  records := h.records

/-- The list of an item that is not too long. -/
theorem addsLists_item {item : InvertIndexItem} {m : Mutation}
    (hlen : item.docList.length ≤ 10000000) (hzero : 0 ∉ item.docList)
    (h : ItemMerge config u item m) : AddsLists m := by
  obtain ⟨value, hvalue, rfl⟩ := h
  intro key htouch
  have hkey : encodeInvertedKey u item.fieldId item.term = key :=
    of_decide_eq_true (Bool.and_eq_true _ _ ▸ htouch).2
  have hwf : WellFormed item.records := by
    refine ⟨List.pairwise_map.2 item.decreasing, fun doc hdoc => ?_,
      fun doc hdoc => ?_⟩
    · obtain ⟨d, hd, rfl⟩ := List.mem_map.1 hdoc
      exact fun h0 => hzero (h0 ▸ hd)
    · obtain ⟨d, hd, rfl⟩ := List.mem_map.1 hdoc
      exact .inl rfl
  have hrecords : item.records.length ≤ 10000000 := by
    rw [InvertIndexItem.records, List.length_map]
    exact hlen
  have hnone : item.records.filter (fun doc => doc.docState ≠ 0) = [] := by
    rw [List.filter_eq_nil_iff]
    intro doc hdoc
    obtain ⟨d, -, rfl⟩ := List.mem_map.1 hdoc
    exact fun h => absurd h (by simp [kDocumentStateOK])
  have hread : docListOf value = some item.records := by
    refine docListOf_writeDocList hwf (by rw [hnone]; decide) ?_ hvalue
    intro _ p hp
    have hpos := List.length_pos_of_mem hp
    rw [length_deletePositions, hnone] at hpos
    exact absurd hpos (Nat.lt_irrefl 0)
  have hlist : listOf value = item.records := by
    rw [listOf, hread, Option.getD_some]
  have hsize := length_writeDocList_le hwf (by omega) hvalue
  exact .inr ⟨_, value, by rw [hkey], by omega, hlist ▸ hread, hlist ▸ hwf⟩

/-- The database that does not compact, and the one that does. -/
structure Follows (op : DocListMergeOperator) (u : TableID)
    (db db' : VirtualDB) : Prop where
  sums : SumsUp op Exact ExactLive u db db'
  plain : LongKeys db
  compacted : LongKeys db'

theorem LongKeys.compaction {db'' : VirtualDB} (h : LongKeys db')
    (hc : Compaction op db' db'') : LongKeys db'' := by
  obtain @⟨key, cell, cell', hcell, -⟩ := hc
  intro column k hk
  rw [setCell] at hk
  split at hk
  · next hcolumn =>
      rw [Std.ExtTreeMap.getElem?_insert] at hk
      split at hk
      · next heq =>
          obtain rfl : key = k := Std.compare_eq_iff_eq.1 heq
          exact h .invertedIndexColumn key
            (by rw [hcell]; exact Option.some_ne_none cell)
      · exact h column k hk
  · exact h column k hk

/-- Everything that can happen keeps the relation. -/
theorem follows_disregards (config : IndexConfig) (hcap : cap ≤ 10000000)
    (hn : cap ≤ op.maxDocListNum.toNat) (u : TableID) :
    Disregards (TableOperation.perform config op) (Compaction op)
      (ListsWithin cap u) (WellBehaved cap u) (Follows op u) where
  input := by
    rintro db db' ⟨table, operation⟩ hfits hgood ⟨hsums, hlong, hlong'⟩
    refine ⟨?_, hlong.perform _, hlong'.perform _⟩
    by_cases htable : table = u
    · subst htable
      have hbehaved := hgood rfl
      have hcursor : ∀ faults column startKey maxLen,
          operation = .deleteTableData faults column startKey maxLen →
          CursorOf table startKey := by
        rintro faults column startKey maxLen rfl
        exact hbehaved
      obtain ⟨⟨ms, hdb, hdb', hms⟩, -⟩ := @operate_same config op table db db'
        (hsums.butLists hcap hn hfits) hlong hlong' operation hcursor
      rw [hdb, hdb']
      refine hsums.applyAll (exact_listSimulation hn) fun m hm => ?_
      rcases hms m hm with hadds | ⟨item, hitem, hmerge⟩
      · exact hadds
      · cases operation with
        | ingestInvertIndex faults storeBuffer indices =>
            obtain ⟨hlen, hzero⟩ := hbehaved item hitem
            exact addsLists_item (hlen.trans hcap) hzero hmerge
        | writeDocuments | acquireCurrentSequence | acquireNewSequence
        | dropTable | deleteTableData => exact absurd hitem List.not_mem_nil
    · exact hsums.others htable
  silent := by
    rintro db db' db'' hfits ⟨hsums, hlong, hlong'⟩ hc
    exact ⟨hsums.compaction (exact_listSimulation hn) hcap hfits hc, hlong,
      hlong'.compaction hc⟩

/-- Whatever operations on whatever tables there were, and whichever cells the
storage engine has merged in between, in part or in full: the next call on a
table is answered as by the database that was never compacted, as long as no list
of the table has had records of more ids than the operator keeps, and of no more
than ten million. Of a query, the status of a prefix leaf at its limit is not
counted. -/
theorem compaction_invisible (σ : Type) [LT σ] [DecidableLT σ] [Zero σ]
    [Add σ] (config : IndexConfig) (op : DocListMergeOperator) (u : TableID)
    (cap : Nat) (hcap : cap ≤ 10000000) (hn : cap ≤ op.maxDocListNum.toNat)
    (run : List TableOperation) (hrun : ∀ o ∈ run, WellBehaved cap u o)
    (hfits : StaysWithin config op cap u run) (db : VirtualDB)
    (h : Compacted config op run db) (a : TableAction σ) (htable : a.table = u)
    (hown : OwnCursor a) :
    (clients config op σ).output db a =
      (clients config op σ).output (TableOperation.runAll config op .empty run)
        a := by
  have hfollows := (follows_disregards config hcap hn u).run
    ⟨sumsUp_empty, longKeys_empty, longKeys_empty⟩ h hfits hrun
  exact (output_same σ (hfollows.sums.butLists hcap hn hfits.last)
    hfollows.plain hfollows.compacted htable hown).symm

end Runs

/-! ## A merge between two calls -/

theorem throughout_of_inits {step : VirtualDB → TableOperation → VirtualDB}
    {P : VirtualDB → Prop} {db : VirtualDB} {run : List TableOperation}
    (h : ∀ before ∈ run.inits, P (before.foldl step db)) :
    Throughout step P db run :=
  fun before hbefore => h before (List.mem_inits before run |>.2 hbefore)

theorem listsWithin_of_entries {n : Nat} {u : TableID} {db : VirtualDB}
    (h : (db .invertedIndexColumn).toList.all (fun x =>
      decide ((recordedIds (some x.2)).card ≤ n)) = true) :
    ListsWithin n u db := by
  intro key _
  cases hcell : (db .invertedIndexColumn)[key]? with
  | none => exact Nat.zero_le _
  | some cell =>
      exact of_decide_eq_true (List.all_eq_true.1 h (key, cell)
        (Std.ExtTreeMap.mem_toList_iff_getElem?_eq_some.2 hcell))

/-- The calls on document 7. -/
def sevenOperations : List TableOperation :=
  [⟨⟨1, 2⟩, .writeDocuments addSeven.batch⟩,
    ⟨⟨1, 2⟩, .writeDocuments updateSeven.batch⟩]

/-- The document is added, the list of `AB` is merged, and the update takes the
document out of it. -/
def sevenCompacted : VirtualDB :=
  TableOperation.perform spaceConfig millionOperator
    (setCell (TableOperation.perform spaceConfig millionOperator .empty
        ⟨⟨1, 2⟩, .writeDocuments addSeven.batch⟩)
      (encodeInvertedKey ⟨1, 2⟩ 1 [65, 66])
      ⟨some (0 :: fixBody [⟨7, 0⟩]), []⟩)
    ⟨⟨1, 2⟩, .writeDocuments updateSeven.batch⟩

theorem compacted_seven :
    Compacted spaceConfig millionOperator sevenOperations sevenCompacted := by
  refine .input (.silent (.input .start _) (@Compaction.merge _ _ _
    ⟨none, [0 :: fixBody [⟨7, 0⟩]]⟩ _ (by decide +kernel) ?_)) _
  exact @Compacts.fullMerge millionOperator none [0 :: fixBody [⟨7, 0⟩]] [] _
    millionOperator.heap millionOperator.heap_size (List.cons_ne_nil _ _)
    (by decide +kernel)

theorem staysWithin_seven : StaysWithin spaceConfig millionOperator 1 ⟨1, 2⟩
    sevenOperations := by
  refine throughout_of_inits fun before hbefore => ?_
  have hcases : before ∈ [[], sevenOperations.take 1, sevenOperations] := hbefore
  simp only [List.mem_cons, List.not_mem_nil, or_false] at hcases
  rcases hcases with rfl | rfl | rfl
  · exact listsWithin_of_entries (by decide +kernel)
  · exact listsWithin_of_entries (by decide +kernel)
  · exact listsWithin_of_entries (by decide +kernel)

theorem compaction_invisible_seven :
    (clients spaceConfig millionOperator Nat).output sevenCompacted
        ⟨⟨1, 2⟩, .scanTableData {} .invertedIndexColumn [] 10 [] 1000⟩ =
      (clients spaceConfig millionOperator Nat).output
        (TableOperation.runAll spaceConfig millionOperator .empty
          sevenOperations)
        ⟨⟨1, 2⟩, .scanTableData {} .invertedIndexColumn [] 10 [] 1000⟩ :=
  compaction_invisible Nat spaceConfig millionOperator ⟨1, 2⟩ 1 (by decide)
    (by decide) sevenOperations (by
      intro o ho _
      simp only [sevenOperations, List.mem_cons, List.not_mem_nil, or_false] at ho
      rcases ho with rfl | rfl
      · trivial
      · trivial)
    staysWithin_seven sevenCompacted compacted_seven _ rfl (.inl rfl)

end Wwsearch.Spec
