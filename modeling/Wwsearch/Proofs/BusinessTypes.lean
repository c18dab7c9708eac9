import Wwsearch.Lib.CursorPages
import Wwsearch.Proofs.KeyCodecs
import Wwsearch.Proofs.TableScan
import Wwsearch.Proofs.Scans
import Wwsearch.Spec.Tables

/-!
# A listing of partition sets is complete up to a crowded set

The key that a page starts from is that of a table, so it has the keys of its
partition set and of the greater ones (`from_iff`), and a page is a page of the
list of sets, one for each key (`scanBusinessType_eq`). So the loop of a caller
is the loop over such pages (`listing_iff_pages`), and a set with as many keys
as a page has room for ends it.
-/

namespace Wwsearch.Spec

open Wwsearch.Lib Wwsearch.Ref Wwsearch.Ref.Searcher

variable {op : DocListMergeOperator} {db : VirtualDB} {businessType : UInt8}

/-! ## The set of a key -/

/-- The partition set that a key names. -/
def setOfKey (key : Bytes) : UInt64 := (removeFixed64 (key.drop 1)).1

theorem setOfKey_append (p : UInt64) (rest : Bytes) :
    setOfKey (encodeMetaKey ⟨businessType, p⟩ ++ rest) = p :=
  congrArg Prod.fst (removeFixed64_append p rest)

theorem exists_rest {key : Bytes} (hpre : [businessType] <+: key)
    (hlong : 9 ≤ key.length) :
    ∃ rest, key = encodeMetaKey ⟨businessType, setOfKey key⟩ ++ rest := by
  obtain ⟨tail, rfl⟩ := hpre
  have hlen : (tail.take 8).reverse.length = 8 := by
    rw [List.length_reverse, List.length_take]
    simp only [List.length_append, List.length_singleton] at hlong
    omega
  have hword := Word.toLE_ofLE (tail.take 8).reverse
  rw [hlen, ← Word.toLE_mod] at hword
  have hset : (Word.toLE 8 (UInt64.ofNat
      (Word.ofLE (tail.take 8).reverse)).toNat).reverse = tail.take 8 := by
    rw [UInt64.toNat_ofNat']
    exact (congrArg List.reverse hword).trans (List.reverse_reverse _)
  have hkey : [businessType] ++ tail = encodeMetaKey ⟨businessType,
      UInt64.ofNat (Word.ofLE (tail.take 8).reverse)⟩ ++ tail.drop 8 := by
    rw [encodeMetaKey_eq, hset, List.cons_append, List.cons_append,
      List.take_append_drop, List.nil_append]
  refine ⟨tail.drop 8, ?_⟩
  rw [hkey, setOfKey_append]

theorem compare_setOfKey {key key' : Bytes} (hpre : [businessType] <+: key)
    (hlong : 9 ≤ key.length) (hpre' : [businessType] <+: key')
    (hlong' : 9 ≤ key'.length) (h : compare key key' ≠ .gt) :
    setOfKey key ≤ setOfKey key' := by
  obtain ⟨rest, hkey⟩ := exists_rest hpre hlong
  obtain ⟨rest', hkey'⟩ := exists_rest hpre' hlong'
  rw [hkey, hkey', compare_table_append, compareTable, Std.compare_self] at h
  refine Std.isLE_compare.1 (Ordering.isLE_iff_ne_gt.2 fun hgt => h ?_)
  rw [hgt]
  rfl

/-- The start key of a page comes before the keys of its set and of the greater
ones. -/
theorem from_iff {key : Bytes} (hpre : [businessType] <+: key)
    (hlong : 9 ≤ key.length) (s : UInt64) :
    compare (encodeMetaKey ⟨businessType, s⟩) key ≠ .gt ↔ s ≤ setOfKey key := by
  obtain ⟨rest, hkey⟩ := exists_rest hpre hlong
  have hsplit := compare_table_append ⟨businessType, s⟩
    ⟨businessType, setOfKey key⟩ [] rest
  rw [List.append_nil, ← hkey, compareTable, Std.compare_self] at hsplit
  rw [hsplit, ← Std.isLE_compare, Ordering.isLE_iff_ne_gt]
  cases compare s (setOfKey key) with
  | lt => simp
  | gt => simp
  | eq =>
      exact iff_of_true (KeyOrder.compare_prefix_ne_gt [] rest) (by simp)

/-! ## A page -/

theorem keys_of_readable {cells : List (Bytes × Cell)}
    (hread : ∀ x ∈ cells, (VirtualDB.cellValue op x.2).isSome) :
    (readableEntries op cells).map Prod.fst = cells.map Prod.fst := by
  induction cells with
  | nil => rfl
  | cons x cells ih =>
      obtain ⟨key, cell⟩ := x
      obtain ⟨value, hvalue⟩ := Option.isSome_iff_exists.1
        (hread (key, cell) List.mem_cons_self)
      have hvalue : VirtualDB.cellValue op cell = some value := hvalue
      rw [readableEntries, hvalue, List.map_cons, List.map_cons,
        ih fun x hx => hread x (List.mem_cons_of_mem _ hx)]

/-- A page takes the sets of the first entries, and what is not of the business
type ends it. -/
theorem scanSets_append {others : List (Bytes × Bytes)}
    (hothers : ∀ x ∈ others, [businessType].isPrefixOf x.1 = false)
    {entries : List (Bytes × Bytes)}
    (hentries : ∀ x ∈ entries, [businessType] <+: x.1 ∧ 9 ≤ x.1.length) :
    ∀ (maxLen : Nat) (last : UInt64) (sets : List UInt64),
    let page := (entries.map fun x => setOfKey x.1).take maxLen
    scanSets [businessType] (entries ++ others) maxLen last sets =
      some (page.getLast?.getD last, sets ++ page) := by
  induction entries with
  | nil =>
      intro maxLen last sets page
      have hpage : page = [] := List.take_nil
      rw [hpage, List.append_nil, List.nil_append]
      clear hentries
      induction others with
      | nil => rfl
      | cons x others ih =>
          rw [scanSets]
          simp only [hothers x List.mem_cons_self, Bool.not_false, if_true]
          rw [ih fun x hx => hothers x (List.mem_cons_of_mem _ hx)]
          split_ifs <;> rfl
  | cons x entries ih =>
      intro maxLen last sets page
      obtain ⟨hpre, hlong⟩ := hentries x List.mem_cons_self
      rw [List.cons_append, scanSets]
      cases maxLen with
      | zero =>
          rw [if_pos rfl]
          exact congrArg some (Prod.ext rfl (List.append_nil sets).symm)
      | succ maxLen =>
          have hshort : ¬ x.1.length < [businessType].length := by
            rw [List.length_singleton]
            omega
          have hset : ¬ (x.1.drop 1).length < 8 := by
            rw [List.length_drop]
            omega
          rw [if_neg (Nat.succ_ne_zero _), if_neg hshort,
            List.isPrefixOf_iff_prefix.2 hpre]
          simp only [Bool.not_true, Bool.false_eq_true, if_false, removeFixed8,
            if_neg hset, Nat.add_sub_cancel]
          rw [ih fun y hy => hentries y (List.mem_cons_of_mem _ hy)]
          have hpage : page = setOfKey x.1 ::
            (entries.map fun x => setOfKey x.1).take maxLen := rfl
          rw [hpage, List.getLast?_cons, Option.getD_some,
            List.append_assoc]
          rfl

section Listing

variable (hnames : NamesSets op db businessType)

/-- The set of every key of the business type, in the order of the keys. -/
def setsInOrder (db : VirtualDB) (businessType : UInt8) : List UInt64 :=
  (prefixEntries (db .paxosLogMetaColumn) [businessType]).map fun x =>
    setOfKey x.1

include hnames

theorem NamesSets.long_of_mem {x : Bytes × Cell}
    (hx : x ∈ prefixEntries (db .paxosLogMetaColumn) [businessType]) :
    [businessType] <+: x.1 ∧ 9 ≤ x.1.length := by
  obtain ⟨hpre, hcell⟩ := mem_prefixEntries.1 (show (x.1, x.2) ∈ _ from hx)
  exact ⟨hpre, hnames.long x.1 hpre (by rw [hcell]; exact Option.some_ne_none _)⟩

theorem NamesSets.readable_of_mem {x : Bytes × Cell}
    (hx : x ∈ prefixEntries (db .paxosLogMetaColumn) [businessType]) :
    (VirtualDB.cellValue op x.2).isSome := by
  obtain ⟨hpre, hcell⟩ := mem_prefixEntries.1 (show (x.1, x.2) ∈ _ from hx)
  have hsome := hnames.readable x.1 hpre
    (by rw [hcell]; exact Option.some_ne_none _)
  rwa [VirtualDB.get, hcell] at hsome

theorem setsInOrder_sorted :
    (setsInOrder db businessType).Pairwise (· ≤ ·) := by
  refine List.pairwise_map.2 (List.Pairwise.imp_of_mem ?_
    ((sorted_toList (db .paxosLogMetaColumn)).filter _))
  intro x y hx hy hlt
  obtain ⟨hpre, hlong⟩ := hnames.long_of_mem hx
  obtain ⟨hpre', hlong'⟩ := hnames.long_of_mem hy
  exact compare_setOfKey hpre hlong hpre' hlong' (by rw [hlt]; decide)

theorem count_setsInOrder (p : UInt64) :
    (setsInOrder db businessType).count p = setKeys db businessType p := by
  rw [setsInOrder, List.count, List.countP_map, setKeys, prefixEntries,
    prefixEntries, List.countP_filter, ← List.countP_eq_length_filter]
  refine List.countP_congr fun x hx => ?_
  rw [Bool.and_eq_true, List.isPrefixOf_iff_prefix, List.isPrefixOf_iff_prefix,
    Function.comp_apply, beq_iff_eq]
  constructor
  · rintro ⟨rfl, hpre⟩
    obtain ⟨rest, hkey⟩ := exists_rest hpre (hnames.long_of_mem
      (List.mem_filter.2 ⟨hx, List.isPrefixOf_iff_prefix.2 hpre⟩)).2
    exact ⟨rest, hkey.symm⟩
  · rintro ⟨rest, hkey⟩
    rw [← hkey]
    exact ⟨setOfKey_append p rest, List.cons_prefix_cons.2 ⟨rfl, List.nil_prefix⟩⟩

/-- The sets of what a page starts with. -/
theorem seek_sets (s : UInt64) :
    ∃ shown others, db.seek op .paxosLogMetaColumn
        (encodeMetaKey ⟨businessType, s⟩) = shown ++ others ∧
      (∀ x ∈ others, [businessType].isPrefixOf x.1 = false) ∧
      (∀ x ∈ shown, [businessType] <+: x.1 ∧ 9 ≤ x.1.length) ∧
      shown.map (fun x => setOfKey x.1) =
        (setsInOrder db businessType).filter fun p => s ≤ p := by
  have hpre : [businessType] <+: encodeMetaKey ⟨businessType, s⟩ :=
    List.cons_prefix_cons.2 ⟨rfl, List.nil_prefix⟩
  obtain ⟨others, hothers, hseek⟩ :=
    @seek_split op db .paxosLogMetaColumn _ _ hpre
  rw [seek_takeWhile op db _ hpre] at hseek
  refine ⟨_, others, hseek, hothers, fun x hx => ?_, ?_⟩
  · obtain ⟨cell, hmem, -⟩ := mem_readableEntries hx
    exact hnames.long_of_mem (List.mem_filter.1 hmem).1
  · have hkeys := congrArg (List.map setOfKey) (@keys_of_readable op
      ((prefixEntries (db .paxosLogMetaColumn) [businessType]).filter
        fun x => compare (encodeMetaKey ⟨businessType, s⟩) x.1 != .gt)
      fun x hx => hnames.readable_of_mem (List.mem_filter.1 hx).1)
    rw [List.map_map, List.map_map] at hkeys
    refine hkeys.trans ?_
    rw [setsInOrder, List.filter_map]
    refine congrArg _ (List.filter_congr fun x hx => ?_)
    obtain ⟨hpre, hlong⟩ := hnames.long_of_mem hx
    have hiff := from_iff hpre hlong s
    rw [Function.comp_apply, Bool.eq_iff_iff, bne_iff_ne, decide_eq_true_eq]
    exact hiff

/-- **A page is a page of the list of sets.** -/
theorem scanBusinessType_eq {maxLen : Nat} (hlen : 1 < maxLen) (s : UInt64)
    (sets : List UInt64) :
    let page := pageAt (setsInOrder db businessType) maxLen s
    scanBusinessType op db businessType s maxLen sets =
      some ⟨nextCursor 0 s page, sets ++ page, {}⟩ := by
  intro page
  obtain ⟨shown, others, hseek, hothers, hshown, hsets⟩ :=
    seek_sets hnames s
  rw [scanBusinessType, if_neg (Nat.not_le.2 hlen)]
  have hstart : appendFixed64 (appendFixed8 [] businessType) s =
      encodeMetaKey ⟨businessType, s⟩ := rfl
  have hscan := scanSets_append hothers hshown maxLen 0 sets
  rw [hsets] at hscan
  dsimp only
  rw [hstart, hseek]
  have htype : appendFixed8 [] businessType = [businessType] := rfl
  rw [htype, hscan]
  rfl

/-! ## The loop -/

theorem listing_iff_pages {maxLen : Nat} (hlen : 1 < maxLen) {s : UInt64}
    {sets out : List UInt64} :
    SetListing op db businessType maxLen s sets out ↔
      ∃ shown, Pages 0 (setsInOrder db businessType) maxLen s shown ∧
        out = sets ++ shown := by
  constructor
  · intro h
    induction h with
    | last hscan _ hend =>
        rw [scanBusinessType_eq hnames hlen] at hscan
        cases hscan
        exact ⟨_, .last hend, rfl⟩
    | next hscan _ hmore _ ih =>
        rw [scanBusinessType_eq hnames hlen] at hscan
        cases hscan
        obtain ⟨shown, hpages, rfl⟩ := ih
        exact ⟨_, .next hmore hpages, List.append_assoc _ _ _⟩
  · rintro ⟨shown, hpages, rfl⟩
    induction hpages generalizing sets with
    | last hend =>
        exact .last (scanBusinessType_eq hnames hlen _ sets) rfl hend
    | next hmore _ ih =>
        refine .next (scanBusinessType_eq hnames hlen _ sets) rfl hmore ?_
        rw [← List.append_assoc]
        exact ih

end Listing

/-- **What a listing of the tables of a business type lists.** The loop of a
caller comes to its end, and a partition set is listed exactly where it has a
key and no smaller one has as many as a page has room for. -/
theorem listing_complete (op : DocListMergeOperator) (db : VirtualDB)
    (businessType : UInt8) (hnames : NamesSets op db businessType)
    (maxLen : Nat) (hlen : 1 < maxLen) :
    (∃ sets, SetListing op db businessType maxLen 0 [] sets) ∧
    ∀ sets, SetListing op db businessType maxLen 0 [] sets →
      ∀ p, p ∈ sets ↔ 0 < setKeys db businessType p ∧
        ∀ q < p, setKeys db businessType q < maxLen := by
  have hsorted := setsInOrder_sorted hnames
  have hleast : ∀ a : UInt64, 0 ≤ a := fun a => UInt64.zero_le
  refine ⟨?_, fun sets hsets p => ?_⟩
  · obtain ⟨shown, hpages⟩ := @exists_pages _ _ _ 0 _ maxLen hsorted 0
    exact ⟨_, (listing_iff_pages hnames hlen).2 ⟨shown, hpages, rfl⟩⟩
  · obtain ⟨shown, hpages, rfl⟩ := (listing_iff_pages hnames hlen).1 hsets
    rw [mem_pages_iff hleast hsorted (by omega) hpages,
      ← count_setsInOrder hnames p, List.count_pos_iff, Unfilled]
    refine and_congr_right fun _ => ⟨fun h q hq => ?_, fun h => ?_⟩
    · rw [← count_setsInOrder hnames q]
      exact h.2 q (hleast q) hq
    · refine ⟨hleast p, fun q _ hq => ?_⟩
      rw [count_setsInOrder hnames q]
      exact h q hq

/-- Three sets of one business type, the second with two keys. -/
def threeSets : VirtualDB :=
  VirtualDB.empty.applyAll
    [.put .paxosLogMetaColumn (encodeMetaKey ⟨7, 1⟩) [],
      .put .paxosLogMetaColumn (encodeMetaKey ⟨7, 2⟩) [],
      .put .paxosLogMetaColumn (encodeMetaKey ⟨7, 2⟩ ++ [0]) [],
      .put .paxosLogMetaColumn (encodeMetaKey ⟨7, 3⟩) []]

theorem namesSets_threeSets : NamesSets millionOperator threeSets 7 := by
  have hall : ∀ x ∈ (threeSets .paxosLogMetaColumn).toList,
      9 ≤ x.1.length ∧ (VirtualDB.cellValue millionOperator x.2).isSome := by
    decide +kernel
  have hcell : ∀ key, (threeSets .paxosLogMetaColumn)[key]? ≠ none →
      9 ≤ key.length ∧
        (threeSets.get millionOperator .paxosLogMetaColumn key).isSome := by
    intro key hkey
    obtain ⟨cell, hcell⟩ := Option.ne_none_iff_exists'.1 hkey
    obtain ⟨hlong, hvalue⟩ := hall (key, cell)
      (Std.ExtTreeMap.mem_toList_iff_getElem?_eq_some.2 hcell)
    refine ⟨hlong, ?_⟩
    rw [VirtualDB.get, hcell]
    exact hvalue
  exact ⟨fun key _ hkey => (hcell key hkey).1,
    fun key _ hkey => (hcell key hkey).2⟩

/-- In pages of two the third set is not listed. -/
theorem listing_complete_threeSets :
    ∃ sets, SetListing millionOperator threeSets 7 2 0 [] sets ∧
      2 ∈ sets ∧ 3 ∉ sets := by
  obtain ⟨⟨sets, hsets⟩, hall⟩ := listing_complete millionOperator threeSets 7
    namesSets_threeSets 2 (by decide)
  have hkeys : setKeys threeSets 7 1 = 1 ∧ setKeys threeSets 7 2 = 2 := by
    decide +kernel
  refine ⟨sets, hsets, (hall sets hsets 2).2 ⟨?_, fun q hq => ?_⟩, fun h => ?_⟩
  · rw [hkeys.2]
    decide
  · have hq : q = 0 ∨ q = 1 := by
      have hlt : q.toNat < 2 := UInt64.lt_iff_toNat_lt.1 hq
      rcases Nat.lt_or_ge q.toNat 1 with h | h
      · exact .inl (UInt64.toNat_inj.1 (Nat.lt_one_iff.1 h))
      · exact .inr (UInt64.toNat_inj.1 (Nat.le_antisymm
          (Nat.le_of_lt_succ hlt) h))
    rcases hq with rfl | rfl
    · decide +kernel
    · rw [hkeys.1]
      decide
  · have hless := ((hall sets hsets 3).1 h).2 2 (by decide)
    rw [hkeys.2] at hless
    exact absurd hless (by decide)

end Wwsearch.Spec
