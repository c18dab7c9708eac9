import Wwsearch.Proofs.StoreWire
import Wwsearch.Proofs.TableScan
import Wwsearch.Spec.PrefixLimit
import Wwsearch.Spec.Query

/-!
# A limit that is met at the end

The loop of a prefix query asks two questions of every key, and the first one
is whether the lists so far have reached the limit. Whether the key has the
prefix is only asked if they have not. So the loop finds out that nothing was
left out only while there is room; where the last list uses it up, the next key
of the column, whatever it belongs to, looks like a term that is left out.

`prefixValues_initial`, `prefixValues_all` and `prefixValues_reached` are the
loop on a run of keys with the prefix and what comes behind the run, each by
induction on the run with the size so far as a parameter. `getScorer_status` is
what follows for a tree, by induction on it.
-/

namespace Wwsearch.Spec

open Wwsearch.Lib Wwsearch.Ref

/-! ## The loop -/

section Loop

variable {limit : UInt32} {p : Bytes} {others : List (Bytes × Bytes)}

/-- The size so far after some lists, counted in 32 bits. -/
def sizeAfter (total : UInt32) (entries : List (Bytes × Bytes)) : UInt32 :=
  entries.foldl (fun total x => total + x.2.length.toUInt32) total

theorem prefixValues_others (hothers : ∀ x ∈ others, p.isPrefixOf x.1 = false)
    (total : UInt32) : (prefixValues limit p others total).1 = [] ∧
      ((prefixValues limit p others total).2 ≠ none ↔
        others ≠ [] ∧ limit ≤ total) := by
  cases others with
  | nil => exact ⟨rfl, fun h => absurd rfl h, fun h => absurd rfl h.1⟩
  | cons x others =>
      obtain ⟨key, value⟩ := x
      have hp : p.isPrefixOf key = false := hothers _ List.mem_cons_self
      rw [prefixValues]
      by_cases hlimit : limit ≤ total
      · rw [if_pos hlimit]
        exact ⟨rfl, fun _ => ⟨List.cons_ne_nil _ _, hlimit⟩,
          fun _ => Option.some_ne_none _⟩
      · rw [if_neg hlimit, hp]
        exact ⟨rfl, fun h => absurd rfl h, fun h => absurd h.2 hlimit⟩

/-- All lists are collected if and only if there is room before each. -/
theorem prefixValues_all (entries : List (Bytes × Bytes)) : ∀ total,
    (∀ x ∈ entries, p.isPrefixOf x.1 = true) →
    (entries.length ≤ (prefixValues limit p (entries ++ others) total).1.length ↔
      ∀ k < entries.length, sizeAfter total (entries.take k) < limit) := by
  induction entries with
  | nil => intro total _; simp
  | cons x entries ih =>
      intro total hentries
      have hp : p.isPrefixOf x.1 = true := hentries x List.mem_cons_self
      have hrest := ih (total + x.2.length.toUInt32)
        fun y hy => hentries y (List.mem_cons_of_mem _ hy)
      rw [List.cons_append, prefixValues]
      by_cases hlimit : limit ≤ total
      · rw [if_pos hlimit]
        refine ⟨fun h => absurd h (by simp), fun h => ?_⟩
        exact absurd (h 0 (Nat.succ_pos _)) (UInt32.not_lt.2 hlimit)
      · rw [if_neg hlimit, hp]
        refine (Nat.succ_le_succ_iff.trans hrest).trans ⟨?_, ?_⟩
        · intro h k hk
          cases k with
          | zero => exact UInt32.not_le.1 hlimit
          | succ k => exact h k (Nat.lt_of_succ_lt_succ hk)
        · exact fun h k hk => h (k + 1) (Nat.succ_lt_succ hk)

variable (hothers : ∀ x ∈ others, p.isPrefixOf x.1 = false)

include hothers

theorem prefixValues_initial (entries : List (Bytes × Bytes)) : ∀ total,
    (∀ x ∈ entries, p.isPrefixOf x.1 = true) →
    (prefixValues limit p (entries ++ others) total).1 = (entries.take
      (prefixValues limit p (entries ++ others) total).1.length).map (·.2) := by
  induction entries with
  | nil =>
      intro total _
      rw [List.nil_append, (prefixValues_others hothers total).1]
      rfl
  | cons x entries ih =>
      intro total hentries
      have hp : p.isPrefixOf x.1 = true := hentries x List.mem_cons_self
      rw [List.cons_append, prefixValues]
      by_cases hlimit : limit ≤ total
      · rw [if_pos hlimit]
        rfl
      · have hrest := ih (total + x.2.length.toUInt32)
          fun y hy => hentries y (List.mem_cons_of_mem _ hy)
        rw [if_neg hlimit, hp]
        exact congrArg (x.2 :: ·) hrest

/-- The limit is reported where a list is left out, and where the last one
reaches it in front of another key. -/
theorem prefixValues_reached (entries : List (Bytes × Bytes)) : ∀ total,
    (∀ x ∈ entries, p.isPrefixOf x.1 = true) →
    ((prefixValues limit p (entries ++ others) total).2 ≠ none ↔
      (prefixValues limit p (entries ++ others) total).1.length <
        entries.length ∨
      others ≠ [] ∧ limit ≤ sizeAfter total entries) := by
  induction entries with
  | nil =>
      intro total _
      obtain ⟨hnil, hreached⟩ := @prefixValues_others limit _ _
        hothers total
      rw [List.nil_append, hreached, hnil]
      exact ⟨.inr, fun h => h.resolve_left (Nat.lt_irrefl 0)⟩
  | cons x entries ih =>
      intro total hentries
      have hp : p.isPrefixOf x.1 = true := hentries x List.mem_cons_self
      have hrest := ih (total + x.2.length.toUInt32)
        fun y hy => hentries y (List.mem_cons_of_mem _ hy)
      rw [List.cons_append, prefixValues]
      by_cases hlimit : limit ≤ total
      · rw [if_pos hlimit]
        exact ⟨fun _ => .inl (Nat.succ_pos _), fun _ => Option.some_ne_none _⟩
      · rw [if_neg hlimit, hp]
        refine hrest.trans (or_congr_left ?_)
        exact Nat.succ_lt_succ_iff.symm

omit hothers

theorem toNat_sizeAfter (entries : List (Bytes × Bytes)) : ∀ total,
    (sizeAfter total entries).toNat =
      (total.toNat + (entries.map (·.2.length)).sum) % 2 ^ 32 := by
  induction entries with
  | nil =>
      intro total
      exact (Nat.mod_eq_of_lt total.toNat_lt).symm
  | cons x entries ih =>
      intro total
      have hstep : sizeAfter total (x :: entries) =
          sizeAfter (total + x.2.length.toUInt32) entries := rfl
      rw [hstep, ih, UInt32.toNat_add, Nat.toUInt32, UInt32.toNat_ofNat',
        List.map_cons, List.sum_cons]
      omega

end Loop

/-! ## The keys -/

section Keys

variable {op : DocListMergeOperator} {table : TableID} {db : VirtualDB}
  {f : FieldID} {start : Bytes}

theorem append_prefix_iff {α : Type} (a b l : List α) :
    a ++ b <+: l ↔ a <+: l ∧ b <+: l.drop a.length := by
  constructor
  · rintro ⟨r, rfl⟩
    refine ⟨⟨b ++ r, (List.append_assoc a b r).symm⟩, ⟨r, ?_⟩⟩
    rw [List.append_assoc, List.drop_left]
  · rintro ⟨⟨r, rfl⟩, hb⟩
    rw [List.drop_left] at hb
    exact (List.prefix_append_right_inj a).2 hb

section Cells

variable (col : Column) (key : Bytes)

/-- The cells from a key on. -/
def cellsFrom : List (Bytes × Cell) :=
  col.toList.filter fun x => compare key x.1 != .gt

theorem takeWhile_cellsFrom :
    (cellsFrom col key).takeWhile (fun x => key.isPrefixOf x.1) =
      (cellsFrom col key).filter fun x => key.isPrefixOf x.1 :=
  KeyOrder.takeWhile_prefix ((sorted_toList col).filter _) fun x hx => by
    simpa using (List.mem_filter.1 hx).2

/-- The keys with the prefix come first. -/
theorem takeWhile_cellsFrom_eq :
    (cellsFrom col key).takeWhile (fun x => key.isPrefixOf x.1) =
      prefixEntries col key := by
  rw [takeWhile_cellsFrom, ← prefixEntries_from, cellsFrom, prefixEntries,
    List.filter_filter, List.filter_filter]
  exact List.filter_congr fun x _ => Bool.and_comm _ _

/-- Behind them are the greater keys without it. -/
theorem mem_dropWhile_cellsFrom {x : Bytes × Cell} :
    x ∈ (cellsFrom col key).dropWhile (fun x => key.isPrefixOf x.1) ↔
      x ∈ col.toList ∧ compare key x.1 = .lt ∧ ¬ key <+: x.1 := by
  have hsplit : x ∈ cellsFrom col key ↔
      x ∈ (cellsFrom col key).takeWhile (fun x => key.isPrefixOf x.1) ∨
      x ∈ (cellsFrom col key).dropWhile (fun x => key.isPrefixOf x.1) := by
    rw [← List.mem_append, List.takeWhile_append_dropWhile]
  constructor
  · intro hx
    obtain ⟨hmem, hle⟩ := List.mem_filter.1 (hsplit.2 (.inr hx))
    have hnot := not_of_mem_dropWhile (takeWhile_cellsFrom col key) x hx
    have hbegins : ¬ key <+: x.1 := fun h =>
      Bool.false_ne_true (hnot.symm.trans (List.isPrefixOf_iff_prefix.2 h))
    refine ⟨hmem, ?_, hbegins⟩
    cases hcompare : compare key x.1 with
    | lt => rfl
    | eq =>
        have heq := Std.LawfulEqOrd.eq_of_compare hcompare
        exact absurd (heq ▸ List.prefix_refl key) hbegins
    | gt => simp [hcompare] at hle
  · rintro ⟨hmem, hlt, hbegins⟩
    refine (hsplit.1 (List.mem_filter.2 ⟨hmem, by simp [hlt]⟩)).resolve_left ?_
    intro hx
    rw [takeWhile_cellsFrom_eq] at hx
    exact hbegins (List.isPrefixOf_iff_prefix.1 (List.mem_filter.1 hx).2)

end Cells

/-- A term that fits into a key begins with `start` if its key does with that
of `start`. -/
theorem termCells_eq (hstart : start.length < 2 ^ 32) :
    termCells table db f start = prefixEntries (db .invertedIndexColumn)
      (encodeInvertedKey table f start) := by
  have hkey : encodeInvertedKey table f start =
      encodeInvertedKey table f [] ++ start := by
    rw [encodeInvertedKey_eq hstart, encodeInvertedKey_eq (by simp),
      List.append_assoc]
    rfl
  refine List.filter_congr fun x _ => ?_
  rw [Bool.eq_iff_iff, Bool.and_eq_true, List.isPrefixOf_iff_prefix,
    List.isPrefixOf_iff_prefix, List.isPrefixOf_iff_prefix, hkey,
    append_prefix_iff]

/-- No key has room for a longer one. -/
theorem termCells_eq_nil
    (hkeys : ∀ key ∈ db .invertedIndexColumn, key.length < 2 ^ 32)
    (hstart : 2 ^ 32 ≤ start.length) : termCells table db f start = [] := by
  refine List.filter_eq_nil_iff.2 fun x hx hterm => ?_
  have hlen := hkeys x.1 (Std.ExtTreeMap.mem_iff_isSome_getElem?.2 (by
    rw [Std.ExtTreeMap.mem_toList_iff_getElem?_eq_some.1 hx]
    rfl))
  obtain ⟨-, hbegins⟩ := (Bool.and_eq_true _ _).mp hterm
  have hle := (List.isPrefixOf_iff_prefix.1 hbegins).length_le
  rw [List.length_drop] at hle
  omega

/-- The lists of cells that can all be read. -/
theorem map_readableEntries {cells : List (Bytes × Cell)}
    (hread : ∀ x ∈ cells, (VirtualDB.cellValue op x.2).isSome) :
    (readableEntries op cells).map (fun x => some x.2) =
      cells.map fun x => VirtualDB.cellValue op x.2 := by
  induction cells with
  | nil => rfl
  | cons x cells ih =>
      obtain ⟨key, cell⟩ := x
      obtain ⟨value, hvalue⟩ := Option.isSome_iff_exists.1
        (hread (key, cell) List.mem_cons_self)
      have hvalue : VirtualDB.cellValue op cell = some value := hvalue
      rw [readableEntries, hvalue, List.map_cons, List.map_cons, hvalue,
        ih fun x hx => hread x (List.mem_cons_of_mem _ hx)]

/-- What the iterator shows of the prefix, and what it shows behind. -/
theorem seek_run (hmerge : ∀ x ∈ scanCells table db f start,
      (VirtualDB.cellValue op x.2).isSome) :
    ∃ entries others, db.seek op .invertedIndexColumn
        (encodeInvertedKey table f start) = entries ++ others ∧
      (∀ x ∈ entries,
        (encodeInvertedKey table f start).isPrefixOf x.1 = true) ∧
      (∀ x ∈ others,
        (encodeInvertedKey table f start).isPrefixOf x.1 = false) ∧
      entries.map (fun x => some x.2) =
        (prefixEntries (db .invertedIndexColumn)
          (encodeInvertedKey table f start)).map
            (fun x => VirtualDB.cellValue op x.2) ∧
      (others ≠ [] ↔ ∃ key ∈ db .invertedIndexColumn,
        compare (encodeInvertedKey table f start) key = .lt ∧
          ¬ encodeInvertedKey table f start <+: key) := by
  obtain ⟨key, hkey⟩ : ∃ key, encodeInvertedKey table f start = key := ⟨_, rfl⟩
  obtain ⟨col, hcol⟩ : ∃ col, db .invertedIndexColumn = col := ⟨_, rfl⟩
  obtain ⟨behind, hbehind⟩ : ∃ behind, (cellsFrom col key).dropWhile
      (fun x => key.isPrefixOf x.1) = behind := ⟨_, rfl⟩
  have hcells : cellsFrom col key = prefixEntries col key ++ behind := by
    rw [← takeWhile_cellsFrom_eq, ← hbehind, List.takeWhile_append_dropWhile]
  have hscan : scanCells table db f start =
      prefixEntries col key ++ behind.take 1 := by
    rw [← takeWhile_cellsFrom_eq, ← hbehind, ← hkey, ← hcol]
    rfl
  rw [hscan] at hmerge
  have hrun := fun x hx => hmerge x (List.mem_append_left _ hx)
  have hmem : ∀ x, x ∈ behind ↔
      x ∈ col.toList ∧ compare key x.1 = .lt ∧ ¬ key <+: x.1 := fun x => by
    rw [← hbehind, mem_dropWhile_cellsFrom]
  rw [hkey, hcol]
  refine ⟨readableEntries op (prefixEntries col key), readableEntries op behind,
    ?_, fun x hx => ?_, fun x hx => ?_, map_readableEntries hrun, ?_⟩
  · rw [VirtualDB.seek, hcol, ← readableEntries_append hrun, ← hcells]
    rfl
  · obtain ⟨cell, hcell, -⟩ := mem_readableEntries hx
    exact List.isPrefixOf_iff_prefix.2 (mem_prefixEntries.1 hcell).1
  · obtain ⟨cell, hcell, -⟩ := mem_readableEntries hx
    exact Bool.eq_false_iff.2 fun h =>
      ((hmem _).1 hcell).2.2 (List.isPrefixOf_iff_prefix.1 h)
  · constructor
    · intro hne
      obtain ⟨x, hx⟩ := List.exists_mem_of_ne_nil _ hne
      obtain ⟨cell, hcell, -⟩ := mem_readableEntries hx
      obtain ⟨hcol', hgt, hnot⟩ := (hmem _).1 hcell
      refine ⟨x.1, Std.ExtTreeMap.mem_iff_isSome_getElem?.2 ?_, hgt, hnot⟩
      rw [Std.ExtTreeMap.mem_toList_iff_getElem?_eq_some.1 hcol']
      rfl
    · rintro ⟨k, hk, hgt, hnot⟩
      obtain ⟨cell, hcell⟩ := Option.isSome_iff_exists.1
        (Std.ExtTreeMap.mem_iff_isSome_getElem?.1 hk)
      have hin : (k, cell) ∈ behind := (hmem _).2
        ⟨Std.ExtTreeMap.mem_toList_iff_getElem?_eq_some.2 hcell, hgt, hnot⟩
      cases hb : behind with
      | nil => rw [hb] at hin; exact absurd hin List.not_mem_nil
      | cons x rest =>
          obtain ⟨value, hvalue⟩ := Option.isSome_iff_exists.1 (hmerge x
            (List.mem_append_right _ (by rw [hb]; exact List.mem_cons_self)))
          obtain ⟨key', cell'⟩ := x
          have hvalue : VirtualDB.cellValue op cell' = some value := hvalue
          rw [readableEntries, hvalue]
          exact List.cons_ne_nil _ _

/-! ## The status -/

/-- What `GetScorer` hands on is what its scan came to. -/
theorem prefixScorer_eq (context : SearchContext) (f : FieldID) (start : Bytes)
    (limit : UInt32) (st : ContextState) :
    prefixScorer context f start limit st =
      let scan := prefixScan context.op context.table context.snapshot f start
        limit
      (scan.1.mapM fun value => newDocListReaderCodec value f.toNat).map
        fun readers => (some (.prefixScorer
          (DocIdSetIterator.finishOr (readers.map .reader))),
          { st with status := prefixStatus limit st.status scan.2 }) := by
  rw [prefixScorer]
  show Option.bind _ _ = Option.map _ _
  rw [Option.map_eq_bind]
  rfl

theorem prefixStatus_code (limit : UInt32) (reached : Option UInt32) :
    (prefixStatus limit {} reached).code = kReachMaxDocListSizeLimit ↔
      reached ≠ none := by
  cases reached with
  | none =>
      refine ⟨fun h => ?_, fun h => absurd rfl h⟩
      exact absurd (show (0 : Int) = 18538 from h) (by decide)
  | some size => exact ⟨fun _ => Option.some_ne_none _, fun _ => rfl⟩

theorem sizeAfter_eq {entries : List (Bytes × Bytes)}
    {cells : List (Bytes × Cell)}
    (h : entries.map (fun x => some x.2) =
      cells.map fun x => VirtualDB.cellValue op x.2) (k : Nat) :
    (sizeAfter 0 (entries.take k)).toNat = listsSize op (cells.take k) := by
  have htake : (entries.take k).map (fun x => some x.2) =
      (cells.take k).map fun x => VirtualDB.cellValue op x.2 := by
    rw [List.map_take, h, List.map_take]
  have hlengths := congrArg (List.map fun o => (Option.getD o []).length) htake
  rw [List.map_map, List.map_map] at hlengths
  rw [toNat_sizeAfter, listsSize]
  show (0 + _) % _ = _
  rw [Nat.zero_add]
  exact congrArg (fun l : List Nat => l.sum % 2 ^ 32) hlengths

/-- The scan of a database whose keys have the prefix in the cells `run`. -/
theorem prefixScan_run {limit : UInt32}
    (hmerge : ∀ x ∈ scanCells table db f start,
      (VirtualDB.cellValue op x.2).isSome) :
    let run := prefixEntries (db .invertedIndexColumn)
      (encodeInvertedKey table f start)
    let scan := prefixScan op table db f start limit
    scan.1.map some =
        (run.take scan.1.length).map (fun x => VirtualDB.cellValue op x.2) ∧
      (run.length ≤ scan.1.length ↔
        ∀ k < run.length, listsSize op (run.take k) < limit.toNat) ∧
      (scan.2 ≠ none ↔ scan.1.length < run.length ∨
        (∃ key ∈ db .invertedIndexColumn,
          compare (encodeInvertedKey table f start) key = .lt ∧
            ¬ encodeInvertedKey table f start <+: key) ∧
        limit.toNat ≤ listsSize op run) := by
  obtain ⟨entries, others, hseek, hentries, hothers, hlists, hbehind⟩ :=
    seek_run hmerge
  have hlength : entries.length = (prefixEntries (db .invertedIndexColumn)
      (encodeInvertedKey table f start)).length := by
    simpa using congrArg List.length hlists
  have hsize := sizeAfter_eq hlists
  have hinitial := @prefixValues_initial limit _ _ hothers entries 0 hentries
  have hreached := @prefixValues_reached limit _ _ hothers entries 0 hentries
  have hall := @prefixValues_all limit _ others entries 0 hentries
  have hwhole := hsize entries.length
  rw [List.take_length, hlength, List.take_length] at hwhole
  rw [← hseek, hbehind, UInt32.le_iff_toNat_le, hwhole] at hreached
  rw [← hseek] at hinitial hall
  simp only [UInt32.lt_iff_toNat_lt, hsize] at hall
  rw [hlength] at hall hreached
  refine ⟨?_, hall, hreached⟩
  have hsome := congrArg (List.map some) hinitial
  rw [List.map_map] at hsome
  refine hsome.trans ?_
  show (entries.take _).map (fun x => some x.2) = _
  rw [List.map_take, hlists, ← List.map_take]
  rfl

/-- A prefix that fits into a key. -/
theorem reportsTruncation_short {limit : UInt32} (hstart : start.length < 2 ^ 32)
    (hmerge : ∀ x ∈ scanCells table db f start,
      (VirtualDB.cellValue op x.2).isSome) :
    ReportsTruncation op table db f start limit ↔
      ¬ MetAtTheEnd op table db f start limit := by
  obtain ⟨hinitial, hall, hreached⟩ :=
    @prefixScan_run op table db f start limit hmerge
  rw [← termCells_eq hstart] at hinitial hall hreached
  constructor
  · rintro ⟨-, hstatus⟩ ⟨hbefore, hsize, hbehind⟩
    rw [prefixStatus_code] at hstatus
    exact absurd (hstatus.1 (hreached.2 (.inr ⟨hbehind, hsize⟩)))
      (not_lt.2 (hall.2 hbefore))
  · intro hnot
    refine ⟨hinitial, ?_⟩
    rw [prefixStatus_code, hreached]
    refine ⟨fun h => h.elim id fun ⟨hbehind, hsize⟩ => ?_, .inl⟩
    by_contra hmore
    exact hnot ⟨hall.1 (not_lt.1 hmore), hsize, hbehind⟩

/-- A longer one, which the key cuts. -/
theorem reportsTruncation_long {limit : UInt32} (hlimit : 0 < limit)
    (hkeys : ∀ key ∈ db .invertedIndexColumn, key.length < 2 ^ 32)
    (hstart : 2 ^ 32 ≤ start.length)
    (hmerge : ∀ x ∈ scanCells table db f start,
      (VirtualDB.cellValue op x.2).isSome) :
    ReportsTruncation op table db f start limit ↔
      ∀ key ∈ db .invertedIndexColumn,
        ¬ encodeInvertedKey table f start <+: key := by
  obtain ⟨hinitial, hall, hreached⟩ :=
    @prefixScan_run op table db f start limit hmerge
  have hnil := @termCells_eq_nil table db f start hkeys hstart
  constructor
  · rintro ⟨hvalues, hstatus⟩ key hkey hbegins
    rw [hnil, List.take_nil, List.map_nil, List.map_eq_nil_iff] at hvalues
    rw [prefixStatus_code, hnil, hvalues, hreached, hvalues] at hstatus
    obtain ⟨cell, hcell⟩ := Option.isSome_iff_exists.1
      (Std.ExtTreeMap.mem_iff_isSome_getElem?.1 hkey)
    have hpos := List.length_pos_of_mem (mem_prefixEntries.2 ⟨hbegins, hcell⟩)
    exact absurd (hstatus.1 (.inl hpos)) (Nat.lt_irrefl 0)
  · intro hnone
    have hrun : prefixEntries (db .invertedIndexColumn)
        (encodeInvertedKey table f start) = [] := by
      refine List.eq_nil_iff_forall_not_mem.2 fun x hx => ?_
      obtain ⟨hbegins, hcell⟩ := mem_prefixEntries.1 hx
      refine hnone x.1 (Std.ExtTreeMap.mem_iff_isSome_getElem?.2 ?_) hbegins
      rw [hcell]
      rfl
    rw [hrun] at hinitial hreached
    rw [List.take_nil, List.map_nil, List.map_eq_nil_iff] at hinitial
    have hroom : ¬ limit.toNat ≤ listsSize op [] :=
      not_le.2 (UInt32.lt_iff_toNat_lt.1 hlimit)
    refine ⟨?_, ?_⟩
    · rw [hnil, hinitial]
      rfl
    · rw [prefixStatus_code, hnil, hreached, hinitial]
      exact ⟨fun h => h.elim id fun ⟨_, hsize⟩ => absurd hsize hroom, .inl⟩

/-- **A prefix query reports a term that it leaves out, and more.** It collects
the first lists of the prefix that a key has room for. The status is right
except where the limit is met with the last list and a key stands behind. -/
theorem reportsTruncation_iff {limit : UInt32} (hlimit : 0 < limit)
    (hkeys : ∀ key ∈ db .invertedIndexColumn, key.length < 2 ^ 32)
    (hmerge : ∀ x ∈ scanCells table db f start,
      (VirtualDB.cellValue op x.2).isSome) :
    ReportsTruncation op table db f start limit ↔
      (2 ^ 32 ≤ start.length → ∀ key ∈ db .invertedIndexColumn,
        ¬ encodeInvertedKey table f start <+: key) ∧
      ¬ MetAtTheEnd op table db f start limit := by
  by_cases hstart : start.length < 2 ^ 32
  · rw [reportsTruncation_short hstart hmerge]
    exact ⟨fun h => ⟨fun hlong => absurd hstart (not_lt.2 hlong), h⟩, (·.2)⟩
  · rw [reportsTruncation_long hlimit hkeys (not_lt.1 hstart) hmerge]
    refine ⟨fun h => ⟨fun _ => h, fun hmet => ?_⟩, fun h => h.1 (not_lt.1 hstart)⟩
    have hreached := hmet.reached
    rw [termCells_eq_nil hkeys (not_lt.1 hstart)] at hreached
    exact absurd hreached (not_le.2 (UInt32.lt_iff_toNat_lt.1 hlimit))

end Keys

/-! ## The status of a tree -/

section Trees

variable {config : IndexConfig} {op : DocListMergeOperator} {table : TableID}
  {db : VirtualDB} {f : FieldID} {st st' : ContextState} {scorer : Scorer}

/-- A scan that reaches no limit is one with room for all it comes to. -/
theorem prefixScan_eq_none {start : Bytes} {limit : UInt32}
    (hstart : start.length < 2 ^ 32)
    (hmerge : ∀ x ∈ scanCells table db f start,
      (VirtualDB.cellValue op x.2).isSome) :
    (prefixScan op table db f start limit).2 = none ↔
      StaysUnder op table db f start limit := by
  obtain ⟨-, hall, hreached⟩ := @prefixScan_run op table db f start limit hmerge
  rw [← termCells_eq hstart] at hall hreached
  rw [← not_iff_not, ← ne_eq, hreached]
  constructor
  · rintro (hmore | ⟨⟨key, hkey, hlt, hnot⟩, hsize⟩) hunder
    · exact absurd (hall.2 hunder.before) (not_le.2 hmore)
    · exact absurd (hunder.behind key hkey hlt hnot) (not_lt.2 hsize)
  · intro hnot
    by_contra hnone
    obtain ⟨hfull, hroom⟩ := not_or.1 hnone
    refine hnot ⟨hall.1 (not_lt.1 hfull), fun key hkey hlt hbegins => ?_⟩
    exact not_le.1 fun hsize => hroom ⟨⟨key, hkey, hlt, hbegins⟩, hsize⟩

theorem ReadableIndex.isSome_cellValue (h : ReadableIndex op db)
    {x : Bytes × Cell} (hx : x ∈ (db .invertedIndexColumn).toList) :
    (VirtualDB.cellValue op x.2).isSome := by
  obtain ⟨value, -, hvalue, -⟩ :=
    h.list x.1 x.2 (Std.ExtTreeMap.mem_toList_iff_getElem?_eq_some.1 hx)
  rw [hvalue]
  rfl

theorem mem_scanCells {start : Bytes} {x : Bytes × Cell}
    (hx : x ∈ scanCells table db f start) :
    x ∈ (db .invertedIndexColumn).toList := by
  rcases List.mem_append.1 hx with hx | hx
  · exact (List.mem_filter.1 ((List.takeWhile_sublist _).subset hx)).1
  · exact (List.mem_filter.1 ((List.dropWhile_sublist _).subset
      (List.mem_of_mem_take hx))).1

theorem prefixScorer_status (h : ReadableIndex op db) {start : Bytes}
    {limit : UInt32} (hstart : start.length < 2 ^ 32)
    (hr : prefixScorer (quietContext config op table db) f start limit st =
      some (some scorer, st')) :
    st'.status.ok = true ↔
      st.status.ok = true ∧ StaysUnder op table db f start limit := by
  rw [prefixScorer_eq] at hr
  obtain ⟨readers, -, hr⟩ := Option.map_eq_some_iff.1 hr
  obtain ⟨-, rfl⟩ := Prod.mk.inj hr
  rw [← prefixScan_eq_none hstart fun x hx =>
    h.isSome_cellValue (mem_scanCells hx)]
  show (prefixStatus limit st.status
    (prefixScan op table db f start limit).2).ok = true ↔ _
  cases (prefixScan op table db f start limit).2 with
  | none => exact (and_iff_left rfl).symm
  | some size =>
      refine ⟨fun hok => ?_, fun hnone =>
        absurd hnone.2 (Option.some_ne_none _)⟩
      exact absurd (show (18538 == (0 : Int)) = true from hok) (by decide)

theorem booleanScorer_status {context : SearchContext} {value : MatchValue}
    (hr : booleanScorer context f value st = some (some scorer, st')) :
    st'.status = st.status := by
  simp only [booleanScorer] at hr
  split at hr
  · obtain ⟨reader, -, hr⟩ := Option.bind_eq_some_iff.1 hr
    rw [← (Prod.mk.inj (Option.some.inj hr)).2]
  · exact absurd (Prod.mk.inj (Option.some.inj hr)).1 (by simp)

/-- Behind the parts of a tree the status is OK if it was so before and each part
leaves it. -/
theorem addScorers_status {fuel : Nat} {context : SearchContext}
    {P : Query → Prop} : ∀ {sub : List Query} {st st' : ContextState}
    {its : List DocIdSetIterator},
    (∀ q ∈ sub, ∀ {st st' : ContextState} {scorer : Scorer},
      getScorer fuel context q st = some (some scorer, st') →
        (st'.status.ok = true ↔ st.status.ok = true ∧ P q)) →
    addScorers fuel context sub st = some (some its, st') →
    (st'.status.ok = true ↔ st.status.ok = true ∧ ∀ q ∈ sub, P q)
  | [], st, st', its, _, h => by
      rw [addScorers] at h
      cases h
      exact (and_iff_left fun q hq => absurd hq List.not_mem_nil).symm
  | q :: sub, st, st', its, hsub, h => by
      rw [addScorers] at h
      obtain ⟨⟨_ | scorer, st₁⟩, hq, h⟩ := Option.bind_eq_some_iff.1 h
      · cases h
      · obtain ⟨it, -, h⟩ := Option.bind_eq_some_iff.1 h
        obtain ⟨⟨its', st₂⟩, hrest, h⟩ := Option.bind_eq_some_iff.1 h
        cases its' with
        | none => cases h
        | some its' =>
            cases h
            rw [addScorers_status (fun q hq => hsub q
              (List.mem_cons_of_mem _ hq)) hrest, hsub q List.mem_cons_self hq,
              List.forall_mem_cons, and_assoc]

/-- **When the status of a tree is OK.** A tree that gets a scorer leaves an OK
status if and only if no prefix leaf of it reaches its limit. -/
theorem getScorer_status (h : ReadableIndex op db) {fuel : Nat} : ∀ q,
    PrefixesFit q → ∀ {st st' : ContextState} {scorer : Scorer},
    getScorer fuel (quietContext config op table db) q st =
      some (some scorer, st') →
    (st'.status.ok = true ↔
      st.status.ok = true ∧ WithinLimits op table db q)
  | .booleanQuery f value, _, st, st', scorer, hr => by
      rw [getScorer] at hr
      rw [booleanScorer_status hr, WithinLimits, and_true]
  | .prefixQuery f start limit, hfit, st, st', scorer, hr => by
      rw [getScorer] at hr
      rw [PrefixesFit] at hfit
      rw [prefixScorer_status h hfit hr, WithinLimits]
  | .andQuery sub, hfit, st, st', scorer, hr => by
      rw [PrefixesFit] at hfit
      rw [getScorer] at hr
      obtain ⟨⟨its, st₁⟩, hits, hr⟩ := Option.bind_eq_some_iff.1 hr
      cases its with
      | none => cases hr
      | some its =>
          cases hr
          rw [WithinLimits]
          exact addScorers_status (fun q hq => getScorer_status h q (hfit q hq))
            hits
  | .orQuery sub, hfit, st, st', scorer, hr => by
      rw [PrefixesFit] at hfit
      rw [getScorer] at hr
      obtain ⟨⟨its, st₁⟩, hits, hr⟩ := Option.bind_eq_some_iff.1 hr
      cases its with
      | none => cases hr
      | some its =>
          cases hr
          rw [WithinLimits]
          exact addScorers_status (fun q hq => getScorer_status h q (hfit q hq))
            hits

theorem withinLimits_booleanQuery (f : FieldID) (value : MatchValue) :
    WithinLimits op table db (.booleanQuery f value) := by
  rw [WithinLimits]
  trivial

end Trees

theorem readableIndex_of_entries {op : DocListMergeOperator} {db : VirtualDB}
    (h : (db .invertedIndexColumn).toList.all (readableEntry op) = true) :
    ReadableIndex op db := by
  have hentry : ∀ key cell, (db .invertedIndexColumn)[key]? = some cell →
      readableEntry op (key, cell) = true := fun key cell hcell =>
    List.all_eq_true.1 h _
      (Std.ExtTreeMap.mem_toList_iff_getElem?_eq_some.2 hcell)
  constructor
  · intro key hkey
    obtain ⟨cell, hcell⟩ := Option.isSome_iff_exists.1
      (Std.ExtTreeMap.mem_iff_isSome_getElem?.1 hkey)
    exact of_decide_eq_true (Bool.and_eq_true_iff.1 (hentry key cell hcell)).1
  · intro key cell hcell
    have hlist := (Bool.and_eq_true_iff.1 (hentry key cell hcell)).2
    split at hlist
    · next reader hreader =>
        obtain ⟨value, hvalue, hnew⟩ := Option.bind_eq_some_iff.1 hreader
        obtain ⟨hdesc, hne⟩ := Bool.and_eq_true_iff.1 hlist
        refine ⟨value, reader, hvalue, hnew, of_decide_eq_true hdesc, ?_⟩
        exact fun doc hdoc => bne_iff_ne.1 (List.all_eq_true.1 hne doc hdoc)
    · exact absurd hlist Bool.false_ne_true

/-- A term of one table, whose list takes ten bytes, and one of another. -/
def neighbours : VirtualDB := VirtualDB.empty.applyAll
  [.put .invertedIndexColumn (encodeInvertedKey ⟨1, 2⟩ 3 [97])
    [0, 7, 0, 0, 0, 0, 0, 0, 0, 0],
   .put .invertedIndexColumn (encodeInvertedKey ⟨1, 3⟩ 3 [98])
    [0, 5, 0, 0, 0, 0, 0, 0, 0, 0]]

theorem readableIndex_neighbours : ReadableIndex millionOperator neighbours :=
  readableIndex_of_entries (by decide +kernel)

theorem reportsTruncation_iff_neighbours :
    ReportsTruncation millionOperator ⟨1, 2⟩ neighbours 3 [97] 11 :=
  (reportsTruncation_iff (by decide) readableIndex_neighbours.key_length
    (by decide +kernel)).2
      ⟨fun h => absurd h (by decide), fun h => absurd h.reached (by decide +kernel)⟩

/-- With a limit of ten bytes the one list of the prefix is collected, and what
is reported as left out is the other table's. -/
theorem nothing_left_out_neighbours :
    ¬ ReportsTruncation millionOperator ⟨1, 2⟩ neighbours 3 [97] 10 := by
  intro h
  have hlength : (termCells ⟨1, 2⟩ neighbours 3 [97]).length ≤ (prefixScan
      millionOperator ⟨1, 2⟩ neighbours 3 [97] 10).1.length := by decide +kernel
  have hcode : (prefixStatus 10 {} (prefixScan millionOperator ⟨1, 2⟩
      neighbours 3 [97] 10).2).code = kReachMaxDocListSizeLimit := by
    decide +kernel
  exact absurd (h.status.1 hcode) (not_lt.2 hlength)

end Wwsearch.Spec
