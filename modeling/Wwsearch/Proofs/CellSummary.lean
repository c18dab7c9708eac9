import Wwsearch.Proofs.Schedules
import Wwsearch.Proofs.InvertedColumn
import Wwsearch.Spec.Compaction

/-!
# What a cell stands for

However often the operands of a cell were merged, and with whatever came in
between, the cell stands for the lists that were written to it: each operand
for some neighbouring ones, the value below them for the oldest ones
(`CellStands`). Another operand stands for itself (`CellStands.append`), a merge
stands for what it was made from (`CellStands.compacts`), and a read is a merge
of everything (`CellStands.read`). What the standing is worth is left to the
simulations of `Schedules`.

No merge makes a value that is too long for the next one: no record takes more
than 25 bytes, and there are not more records than ids.
-/

namespace Wwsearch.Spec

open Wwsearch.Lib Wwsearch.Ref

/-! ## How long a list can get -/

theorem length_putPositions_le (ps : List UInt32) : ∀ prev : UInt32,
    (DocListDelDeltaBuffer.putPositions prev [] ps).length ≤ 5 * ps.length := by
  induction ps with
  | nil => exact fun _ => Nat.zero_le _
  | cons p rest ih =>
      intro prev
      have hfirst := length_encodeVarint32_le (p - prev)
      have hrest := ih p
      rw [DocListDelDeltaBuffer.putPositions, putPositions_append, putVarint32,
        List.nil_append, List.length_append, List.length_cons]
      omega

theorem length_putDocs_le (ids : List DocumentID) : ∀ prev : DocumentID,
    (DocListDeltaBuffer.putDocs prev [] ids).length ≤ 10 * ids.length := by
  induction ids with
  | nil => exact fun _ => Nat.zero_le _
  | cons d rest ih =>
      intro prev
      have hfirst := length_encodeVarint64_le (if prev = 0 then d else prev - d)
      have hrest := ih d
      rw [DocListDeltaBuffer.putDocs, putDocs_append, putVarint64,
        List.nil_append, List.length_append, List.length_cons]
      omega

theorem length_deleteBlock_le (docs : List DocList) :
    (deleteBlock docs).length ≤ 5 + 5 * docs.length := by
  have hdeleted : (deletePositions 0 docs).length ≤ docs.length := by
    rw [length_deletePositions]
    exact List.length_filter_le _ _
  rw [deleteBlock]
  split
  · have hcount := length_encodeVarint32_le
      (UInt32.ofNat (deletePositions 0 docs).length)
    have hpositions := length_putPositions_le
      ((deletePositions 0 docs).map Nat.toUInt32) 0
    rw [putPositions_append, List.length_append]
    rw [List.length_map] at hpositions
    omega
  · exact Nat.zero_le _

theorem length_writeDocList_le {docs : List DocList} (hwf : WellFormed docs)
    {type : DocListCompressionType} {value : Bytes}
    (hlen : docs.length < 2 ^ 32)
    (h : writeDocList type docs = some (true, value)) :
    value.length ≤ 6 + 25 * docs.length := by
  cases type with
  | fixType =>
      rw [writeDocList_fix] at h
      obtain ⟨-, rfl⟩ := Prod.mk.inj (Option.some.inj h)
      rw [List.length_cons, length_fixBody]
      omega
  | varLenBlockType =>
      have hnum : (deletePositions 0 docs).length < 2 ^ 32 := by
        rw [length_deletePositions]
        exact (List.length_filter_le _ _).trans_lt hlen
      rw [writeDocList_varLen hwf.desc hnum] at h
      obtain ⟨-, rfl⟩ := Prod.mk.inj (Option.some.inj h)
      have hdeleted := length_deleteBlock_le docs
      have hdocs := length_putDocs_le (docs.map (·.docId)) 0
      rw [List.length_map] at hdocs
      rw [List.length_cons, List.length_append]
      omega

/-- Some lists have no more records than there are ids. -/
theorem length_le_card {docs : List DocList} (hwf : WellFormed docs)
    {s : Finset DocumentID} (h : ∀ doc ∈ docs, doc.docId ∈ s) :
    docs.length ≤ s.card := by
  have hnodup : (docs.map (·.docId)).Nodup :=
    List.pairwise_map.2 (hwf.desc.imp fun hlt => hlt.ne')
  rw [← List.length_map (·.docId), ← List.toFinset_card_of_nodup hnodup]
  refine Finset.card_le_card fun d hd => ?_
  obtain ⟨doc, hdoc, rfl⟩ := List.mem_map.1 (List.mem_toFinset.1 hd)
  exact h doc hdoc

/-! ## ListSimulation for lists -/

/-- A way to stand for lists: it simulates the merges of any lists with no more
than `cap` ids, and it makes up no ids. -/
structure ListSimulation (n cap : Nat)
    (Stands Bottom : List DocList → List (List DocList) → Prop) : Prop where
  simulates : ∀ all : List (List DocList), (∀ l ∈ all, WellFormed l) →
    (mentioned all).card ≤ cap → FullSimulation n all Stands Bottom
  mention : ∀ {docs lists}, Stands docs lists →
    ∀ doc ∈ docs, doc.docId ∈ mentioned lists
  bottom_mention : ∀ {docs lists}, Bottom docs lists →
    ∀ doc ∈ docs, doc.docId ∈ mentioned lists

section Cells

variable (type : DocListCompressionType)
  (Stands Bottom : List DocList → List (List DocList) → Prop)

/-- The value of a cell, and the lists that went into it. -/
inductive BaseStands : Option Bytes → List (List DocList) → Prop
  | nothing : BaseStands none []
  | below {value : Bytes} {docs : List DocList} {lists : List (List DocList)}
      (hstores : Stores value docs)
      (hwrite : writeDocList type docs = some (true, value))
      (hbottom : Bottom docs lists) : BaseStands (some value) lists

/-- Operands, and the lists that went into them. -/
def RowStands (operands : List Bytes) (lists : List (List DocList)) : Prop :=
  ∃ outs groups, List.Forall₂ Stores operands outs ∧
    List.Forall₂ Stands outs groups ∧ groups.flatten = lists

/-- A cell, and the lists that were written to it. -/
structure CellStands (lists : List (List DocList)) (cell : Cell) : Prop where
  parts : ∃ below above, BaseStands type Bottom cell.base below ∧
    RowStands Stands cell.operands above ∧ lists = below ++ above
  holds : cell.base = none → cell.operands ≠ []

end Cells

section Rows

variable {Stands : List DocList → List (List DocList) → Prop}
  {a b : List Bytes} {x y : List (List DocList)}

theorem RowStands.append (ha : RowStands Stands a x)
    (hb : RowStands Stands b y) : RowStands Stands (a ++ b) (x ++ y) := by
  obtain ⟨outs, groups, hstores, hstands, rfl⟩ := ha
  obtain ⟨outs', groups', hstores', hstands', rfl⟩ := hb
  exact ⟨outs ++ outs', groups ++ groups', List.rel_append hstores hstores',
    List.rel_append hstands hstands', List.flatten_append⟩

theorem RowStands.split (h : RowStands Stands (a ++ b) x) :
    ∃ y z, x = y ++ z ∧ RowStands Stands a y ∧ RowStands Stands b z := by
  obtain ⟨outs, groups, hstores, hstands, rfl⟩ := h
  obtain ⟨outs₁, outs₂, rfl, hstores₁, hstores₂⟩ := forall₂_append_split hstores
  obtain ⟨groups₁, groups₂, rfl, hstands₁, hstands₂⟩ :=
    forall₂_append_split hstands
  exact ⟨groups₁.flatten, groups₂.flatten, List.flatten_append,
    ⟨outs₁, groups₁, hstores₁, hstands₁, rfl⟩,
    ⟨outs₂, groups₂, hstores₂, hstands₂, rfl⟩⟩

theorem RowStands.single {value : Bytes} {docs : List DocList}
    (hstores : Stores value docs) (hstands : Stands docs x) :
    RowStands Stands [value] x :=
  ⟨[docs], [x], .cons hstores .nil, .cons hstands .nil, by simp⟩

end Rows

/-- A list of ids that are not too many has a short value. -/
theorem value_fits {type : DocListCompressionType} {cap : Nat}
    {lists : List (List DocList)} {docs : List DocList} {value : Bytes}
    (hcap : cap ≤ 10000000) (hfits : (mentioned lists).card ≤ cap)
    (hdocs : WellFormed docs)
    (hids : ∀ doc ∈ docs, doc.docId ∈ mentioned lists)
    (hwrite : writeDocList type docs = some (true, value)) :
    value.length < 2 ^ 31 := by
  have hcard := (length_le_card hdocs hids).trans hfits
  have hlen := length_writeDocList_le hdocs (by omega) hwrite
  omega

section Operands

variable {op : DocListMergeOperator} {cap : Nat}
  {Stands Bottom : List DocList → List (List DocList) → Prop}
  (hs : ListSimulation op.maxDocListNum.toNat cap Stands Bottom)
  {lists : List (List DocList)} {value : Bytes}

include hs

theorem ListSimulation.operand {docs : List DocList} (hwf : WellFormed docs) :
    Stands docs [docs] :=
  (hs.simulates [] (fun _ h => absurd h List.not_mem_nil)
    (Nat.zero_le _)).operand docs hwf

/-- Another operand. -/
theorem CellStands.append {cell : Cell} {docs : List DocList}
    (h : CellStands op.compressionType Stands Bottom lists cell)
    (hvalue : Stores value docs) :
    CellStands op.compressionType Stands Bottom (lists ++ [docs])
      { cell with operands := cell.operands ++ [value] } := by
  obtain ⟨⟨below, above, hbelow, habove, rfl⟩, hholds⟩ := h
  refine ⟨⟨below, above ++ [docs], hbelow, ?_, List.append_assoc _ _ _⟩,
    fun _ => List.append_ne_nil_of_right_ne_nil _ (List.cons_ne_nil _ _)⟩
  exact habove.append (.single hvalue (hs.operand hvalue.wellFormed))

/-- The first operand. -/
theorem CellStands.single {docs : List DocList} (hvalue : Stores value docs) :
    CellStands op.compressionType Stands Bottom [docs] ⟨none, [value]⟩ :=
  ⟨⟨[], [docs], .nothing, .single hvalue (hs.operand hvalue.wellFormed), rfl⟩,
    fun _ => List.cons_ne_nil _ _⟩

end Operands

/-- What a merge puts out has ids that went into it. -/
theorem mem_mentioned_of_partialMerge {n : Nat} {lists : List (List DocList)}
    {doc : DocList} (h : doc ∈ partialMerge n lists) :
    doc.docId ∈ mentioned lists := by
  obtain ⟨d, hd, rfl⟩ := List.mem_map.1 h
  refine mem_mentioned_iff.2 ?_
  rcases mem_partialIds.1 (mem_descending.1 hd) with hdel | hlive
  · rw [hdel]
    exact Option.some_ne_none _
  · rw [lastState_of_mem_topLive hlive]
    exact Option.some_ne_none _

theorem mem_mentioned_of_fullMerge {n : Nat} {lists : List (List DocList)}
    {doc : DocList} (h : doc ∈ fullMerge n lists) :
    doc.docId ∈ mentioned lists := by
  obtain ⟨d, hd, rfl⟩ := List.mem_map.1 h
  refine mem_mentioned_iff.2 ?_
  rw [lastState_of_mem_topLive hd]
  exact Option.some_ne_none _

theorem deletedSomewhere_subset (lists : List (List DocList)) :
    deletedSomewhere lists ⊆ mentioned lists := by
  intro d hd
  obtain ⟨l, hl, hdel⟩ := mem_deletedSomewhere.1 hd
  exact mem_mentioned.2 ⟨l, hl, _, hdel, rfl⟩

section Merges

variable {op : DocListMergeOperator} {cap : Nat}
  {Stands Bottom : List DocList → List (List DocList) → Prop}
  (hs : ListSimulation op.maxDocListNum.toNat cap Stands Bottom)
  {lists x y : List (List DocList)} {value : Bytes}

include hs

theorem ListSimulation.row_mention {outs : List (List DocList)}
    {groups : List (List (List DocList))}
    (h : List.Forall₂ Stands outs groups) (hsub : groups.flatten ⊆ lists)
    {d : DocumentID} (hd : d ∈ mentioned outs) : d ∈ mentioned lists := by
  obtain ⟨docs, hdocs, doc, hdoc, rfl⟩ := mem_mentioned.1 hd
  obtain ⟨group, hgroup, hstands⟩ := forall₂_exists_right h hdocs
  refine mentioned_mono (fun l hl => hsub ?_) (hs.mention hstands doc hdoc)
  exact List.mem_flatten.2 ⟨group, hgroup, hl⟩

variable (hcap : cap ≤ 10000000) (hwf : ∀ l ∈ lists, WellFormed l)
  (hfits : (mentioned lists).card ≤ cap)

include hcap hwf hfits

/-- A merge of neighbours. -/
theorem RowStands.merge {segment : List Bytes} (h : RowStands Stands segment x)
    (hne : segment ≠ []) (hsub : x ⊆ lists)
    (hmerge : mergeValue (op.partialMergeMulti segment) = some value) :
    RowStands Stands [value] x := by
  obtain ⟨outs, groups, hstores, hstands, rfl⟩ := h
  have sim := (hs.simulates lists hwf hfits).toPartialSimulation
  have hdeleted : (deletedSomewhere lists).card ≤ 10000000 :=
    (Finset.card_le_card (deletedSomewhere_subset lists)).trans
      (hfits.trans hcap)
  have hshort : ∀ value, mergeValue (op.partialMergeMulti segment) =
      some value → value.length < 2 ^ 31 := by
    intro value hvalue
    have hcard := (Finset.card_le_card
      (sim.deleted_subset hstands hwf hsub)).trans hdeleted
    obtain ⟨out, hout, hwrite, -⟩ := partialMergeMulti_eq op hne hstores hcard
    rw [hout] at hvalue
    obtain rfl := Option.some.inj hvalue
    refine value_fits hcap hfits (partialMerge_wellFormed
      (Stores.wellFormed_all hstores)) (fun doc hdoc => ?_) hwrite
    exact hs.row_mention hstands hsub (mem_mentioned_of_partialMerge hdoc)
  obtain ⟨out, docs, hout, hout', hdocs⟩ := sim.merge_stores groups hwf hdeleted
    hne hstores hstands hsub hshort
  obtain rfl := Option.some.inj (hout.symm.trans hmerge)
  exact .single hout' hdocs

/-- A merge of the oldest operands into what is below them. -/
theorem BaseStands.merge {base : Option Bytes} {segment : List Bytes}
    (hbase : BaseStands op.compressionType Bottom base x)
    (h : RowStands Stands segment y) (hne : segment ≠ [])
    (hsub : x ++ y ⊆ lists) :
    ∃ value docs, mergeValue (op.fullMergeV2 base segment) = some value ∧
      Stores value docs ∧
      writeDocList op.compressionType docs = some (true, value) ∧
      Bottom docs (x ++ y) := by
  obtain ⟨outs, groups, hstores, hstands, rfl⟩ := h
  have sim := hs.simulates lists hwf hfits
  have hwfo := Stores.wellFormed_all hstores
  cases hbase with
  | nothing =>
      obtain ⟨value, hvalue, hwrite, hread⟩ := fullMergeV2_eq op none hne
        hstores
      have hdocs := fullMerge_wellFormed (n := op.maxDocListNum.toNat) hwfo
      refine ⟨value, _, by rw [hvalue]; rfl, ⟨?_, hread, hdocs⟩, hwrite,
        sim.bottom hstands hwfo hsub⟩
      refine value_fits hcap hfits hdocs (fun doc hdoc => ?_) hwrite
      exact hs.row_mention hstands hsub (mem_mentioned_of_fullMerge hdoc)
  | @below old docs _ hold _ hbottom =>
      have hall : List.Forall₂ Stores ((some old).toList ++ segment)
          (docs :: outs) := .cons hold hstores
      obtain ⟨value, hvalue, hwrite, hread⟩ := fullMergeV2_eq op _ hne hall
      have hdocs := fullMerge_wellFormed (n := op.maxDocListNum.toNat)
        (Stores.wellFormed_all hall)
      refine ⟨value, _, by rw [hvalue]; rfl, ⟨?_, hread, hdocs⟩, hwrite,
        sim.bottom_onto hbottom hstands hold.wellFormed hwfo hsub⟩
      refine value_fits hcap hfits hdocs (fun doc hdoc => ?_) hwrite
      obtain ⟨l, hl, e, he, heq⟩ :=
        mem_mentioned.1 (mem_mentioned_of_fullMerge hdoc)
      rw [← heq]
      rcases List.mem_cons.1 hl with rfl | hl
      · exact mentioned_mono (fun l hl => hsub (List.mem_append_left _ hl))
          (hs.bottom_mention hbottom e he)
      · exact hs.row_mention hstands
          (fun l hl => hsub (List.mem_append_right _ hl))
          (mem_mentioned.2 ⟨l, hl, e, he, rfl⟩)

/-- A merge in a cell does not change what it stands for. -/
theorem CellStands.compacts {cell cell' : Cell}
    (h : CellStands op.compressionType Stands Bottom lists cell)
    (hc : Compacts op cell cell') :
    CellStands op.compressionType Stands Bottom lists cell' := by
  obtain ⟨⟨below, above, hbelow, habove, rfl⟩, hholds⟩ := h
  cases hc with
  | partialMerge heap hsize hne hmerge =>
      obtain ⟨x, rest, rfl, hbefore, hrest⟩ := habove.split
      obtain ⟨y, z, rfl, hsegment, hafter⟩ := hrest.split
      have hmerged := @RowStands.merge (withHeap op heap hsize) cap Stands Bottom
        hs _ _ _ hcap hwf hfits _ hsegment hne (fun l hl => by simp [hl]) hmerge
      refine ⟨⟨below, x ++ (y ++ z), hbelow,
        hbefore.append (hmerged.append hafter), rfl⟩, fun _ => ?_⟩
      exact List.append_ne_nil_of_right_ne_nil _ (List.cons_ne_nil _ _)
  | fullMerge heap hsize hne hmerge =>
      obtain ⟨y, z, rfl, hsegment, hafter⟩ := habove.split
      obtain ⟨value, docs, hvalue, hstores, hwrite, hbottom⟩ :=
        @BaseStands.merge (withHeap op heap hsize) cap Stands Bottom hs _ _ _
          hcap hwf hfits _ _ hbelow hsegment hne fun l hl => by
            rw [← List.append_assoc]
            exact List.mem_append_left _ hl
      obtain rfl := Option.some.inj (hvalue.symm.trans hmerge)
      refine ⟨⟨below ++ y, z, .below hstores hwrite hbottom, hafter,
        (List.append_assoc _ _ _).symm⟩, fun hnone => by cases hnone⟩

/-- A read merges what there is. -/
theorem CellStands.read {cell : Cell}
    (h : CellStands op.compressionType Stands Bottom lists cell) :
    ∃ value docs, VirtualDB.cellValue op cell = some value ∧
      Stores value docs ∧
      writeDocList op.compressionType docs = some (true, value) ∧
      Bottom docs lists := by
  obtain ⟨base, operands⟩ := cell
  obtain ⟨⟨below, above, hbelow, habove, rfl⟩, hholds⟩ := h
  cases operands with
  | nil =>
      cases hbelow with
      | nothing => exact absurd rfl (hholds rfl)
      | @below value docs _ hstores hwrite hbottom =>
          obtain ⟨outs, groups, hstores', hstands, rfl⟩ := habove
          cases hstores'
          cases hstands
          rw [List.flatten_nil, List.append_nil]
          exact ⟨value, docs, rfl, hstores, hwrite, hbottom⟩
  | cons v vs =>
      exact hbelow.merge hs hcap hwf hfits habove (List.cons_ne_nil _ _)
        fun l hl => hl

end Merges

end Wwsearch.Spec
