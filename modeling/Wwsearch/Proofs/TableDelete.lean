import Wwsearch.Proofs.TableScan

/-!
# A table is deleted, page by page

A page deletes the first entries of what is left of the table, and its cursor
is the key of the last of them (`deleteKeys_page`). That key is gone at the next
call, but all that is left comes behind it, so an iterator that is put there
shows what is left from its first entry on (`seek_left`). A page that deletes
nothing is the last one, and every other leaves less, so the loop ends
(`delete_from`). What is left then is what no iterator shows, and that is
nothing, since the keys that are left have their old values.
-/

namespace Wwsearch.Spec

open Wwsearch.Lib Wwsearch.Ref Wwsearch.Ref.IndexWriter

variable {faults : Faults} {op : DocListMergeOperator} {table : TableID}
  {db : VirtualDB} {column : StorageColumnType}

/-! ## One page -/

/-- The deletions of some entries. -/
def entryDeletes (column : StorageColumnType)
    (entries : List (Bytes × Bytes)) : List Mutation :=
  entries.map fun x => .delete column x.1

/-- A page that succeeds has no keys behind the table's. -/
theorem deleteKeys_others {others : List (Bytes × Bytes)}
    (h : ∀ x ∈ others, (encodeMetaKey table).isPrefixOf x.1 = false)
    {maxLen : Nat} {lastKey : Bytes} {buffer : WriteBuffer}
    (hok : (deleteKeys faults column (encodeMetaKey table) others maxLen lastKey
      buffer).2.2.ok = true) :
    deleteKeys faults column (encodeMetaKey table) others maxLen lastKey
      buffer = (lastKey, buffer, {}) := by
  cases others with
  | nil => rfl
  | cons x others =>
      rw [deleteKeys] at hok ⊢
      split at hok
      · next hzero => rw [if_pos hzero]
      · next hzero =>
          rw [if_neg hzero]
          split at hok
          · exact absurd hok Bool.false_ne_true
          · next hlen =>
              rw [if_neg hlen, h x List.mem_cons_self]
              rfl

/-- A page takes some of the entries, from the first on. -/
theorem deleteKeys_page {others : List (Bytes × Bytes)}
    (hothers : ∀ x ∈ others, (encodeMetaKey table).isPrefixOf x.1 = false)
    (entries : List (Bytes × Bytes)) :
    ∀ {maxLen : Nat} {lastKey : Bytes} {buffer : WriteBuffer},
    (∀ x ∈ entries, (encodeMetaKey table).isPrefixOf x.1 = true) →
    (deleteKeys faults column (encodeMetaKey table) (entries ++ others) maxLen
      lastKey buffer).2.2.ok = true →
    ∃ taken left, entries = taken ++ left ∧
      deleteKeys faults column (encodeMetaKey table) (entries ++ others) maxLen
        lastKey buffer = (lastKeyOf taken lastKey,
          { mutations := buffer.mutations ++ entryDeletes column taken }, {}) ∧
      (entries ≠ [] → 0 < maxLen → taken ≠ []) := by
  induction entries with
  | nil =>
      intro maxLen lastKey buffer _ hok
      refine ⟨[], [], rfl, (deleteKeys_others hothers hok).trans ?_,
        fun h => absurd rfl h⟩
      rw [entryDeletes, List.map_nil, List.append_nil]
      rfl
  | cons x entries ih =>
      intro maxLen lastKey buffer hpre hok
      have hx := hpre x List.mem_cons_self
      have hlen : ¬ x.1.length < (encodeMetaKey table).length :=
        Nat.not_lt.2 (List.isPrefixOf_iff_prefix.1 hx).length_le
      rw [List.cons_append, deleteKeys] at hok ⊢
      by_cases hzero : maxLen = 0
      · rw [if_pos hzero]
        refine ⟨[], x :: entries, rfl, ?_, fun _ hpos => absurd hzero
          (Nat.pos_iff_ne_zero.1 hpos)⟩
        rw [entryDeletes, List.map_nil, List.append_nil]
        rfl
      · simp only [if_neg hzero, if_neg hlen, hx, Bool.not_true,
          Bool.false_eq_true, if_false] at hok ⊢
        split at hok
        · next happend =>
            obtain ⟨hbuffer, -, -⟩ := append_ok happend
            rw [if_pos happend, hbuffer]
            rw [hbuffer] at hok
            obtain ⟨taken, left, hsplit, hpage, -⟩ := ih
              (fun y hy => hpre y (List.mem_cons_of_mem _ hy)) hok
            refine ⟨x :: taken, left, by rw [hsplit]; rfl, ?_,
              fun _ _ => List.cons_ne_nil _ _⟩
            rw [hpage, lastKeyOf_cons, List.append_assoc]
            rfl
        · next happend => exact absurd hok happend

/-! ## What is left -/

theorem getElem?_entryDeletes (entries : List (Bytes × Bytes)) :
    ∀ (db : VirtualDB) (c : StorageColumnType) (key : Bytes),
    (db.applyAll (entryDeletes column entries) c)[key]? =
      if c = column ∧ key ∈ entries.map Prod.fst then none
      else (db c)[key]? := by
  induction entries with
  | nil => intro db c key; rw [if_neg fun h => List.not_mem_nil h.2]; rfl
  | cons x entries ih =>
      intro db c key
      refine (ih ((Mutation.delete column x.1).apply db) c key).trans ?_
      rw [Mutation.apply_getElem?]
      by_cases hc : c = column
      · subst hc
        by_cases hkey : x.1 = key
        · have htouch : (Mutation.delete c x.1).touches c key = true := by
            simp [Mutation.touches, Mutation.column, hkey]
          have hin : c = c ∧ key ∈ (x :: entries).map Prod.fst :=
            ⟨rfl, List.mem_cons.2 (.inl hkey.symm)⟩
          rw [htouch, if_pos rfl, if_pos hin]
          exact ite_self none
        · have htouch : (Mutation.delete c x.1).touches c key = false := by
            simp [Mutation.touches, hkey]
          rw [htouch, if_neg Bool.false_ne_true, List.map_cons]
          refine if_congr (and_congr_right' ?_) rfl rfl
          rw [List.mem_cons, or_iff_right (Ne.symm hkey)]
      · have htouch : (Mutation.delete column x.1).touches c key = false := by
          have hcol : (Mutation.delete column x.1).column = column := rfl
          rw [Mutation.touches, hcol, decide_eq_false (Ne.symm hc),
            Bool.false_and]
        rw [htouch, if_neg Bool.false_ne_true, if_neg fun h => hc h.1,
          if_neg fun h => hc h.1]

/-- Two runs of entries in order with the same entries are one. -/
theorem eq_of_sorted {l l' : List (Bytes × Cell)}
    (h : l.Pairwise fun x y => compare x.1 y.1 = .lt)
    (h' : l'.Pairwise fun x y => compare x.1 y.1 = .lt)
    (hmem : ∀ x, x ∈ l ↔ x ∈ l') : l = l' := by
  have hnodup : ∀ {m : List (Bytes × Cell)}, (m.Pairwise fun x y =>
      compare x.1 y.1 = .lt) → m.Nodup := fun hm => hm.imp fun {x y} hlt heq => by
    rw [heq, Std.compare_self] at hlt
    cases hlt
  refine ((List.perm_ext_iff_of_nodup (hnodup h) (hnodup h')).2
    hmem).eq_of_pairwise (fun x y _ _ hxy hyx => ?_) h h'
  rw [@Std.OrientedCmp.eq_swap _ compare, hyx] at hxy
  cases hxy

/-- What a page leaves is what it did not delete. -/
theorem prefixEntries_entryDeletes {p : Bytes} {taken : List (Bytes × Bytes)}
    {gone rest : List (Bytes × Cell)}
    (h : prefixEntries (db column) p = gone ++ rest)
    (hkeys : gone.map Prod.fst = taken.map Prod.fst) :
    prefixEntries (db.applyAll (entryDeletes column taken) column) p = rest := by
  have hsorted : (gone ++ rest).Pairwise fun x y => compare x.1 y.1 = .lt :=
    h ▸ (sorted_toList _).filter _
  obtain ⟨-, hrest, hacross⟩ := List.pairwise_append.1 hsorted
  refine eq_of_sorted ((sorted_toList _).filter _) hrest fun x => ?_
  obtain ⟨key, cell⟩ := x
  rw [mem_prefixEntries, getElem?_entryDeletes, ← hkeys]
  have hold : p <+: key ∧ (db column)[key]? = some cell ↔
      (key, cell) ∈ gone ++ rest := by
    rw [← h, mem_prefixEntries]
  constructor
  · rintro ⟨hp, hcell⟩
    split at hcell
    · cases hcell
    · next hno =>
        refine (List.mem_append.1 (hold.1 ⟨hp, hcell⟩)).resolve_left fun hgone =>
          hno ⟨rfl, List.mem_map_of_mem hgone⟩
  · intro hmem
    obtain ⟨hp, hcell⟩ := hold.2 (List.mem_append_right _ hmem)
    refine ⟨hp, (if_neg ?_).trans hcell⟩
    rintro ⟨-, hgone⟩
    obtain ⟨y, hy, hkey⟩ := List.mem_map.1 hgone
    have hlt := hacross y hy (key, cell) hmem
    rw [hkey, Std.compare_self] at hlt
    cases hlt

/-- What is shown of some cells is what is shown of the first of them, and of
the others. -/
theorem readableEntries_take (taken : List (Bytes × Bytes)) :
    ∀ {cells : List (Bytes × Cell)} {left : List (Bytes × Bytes)},
    readableEntries op cells = taken ++ left →
    (cells.take taken.length).map Prod.fst = taken.map Prod.fst := by
  intro cells left h
  have hkeys := @keys_readableEntries op cells
  rw [h, List.map_append] at hkeys
  have hpre := (List.prefix_append _ _).trans hkeys
  rw [List.map_take, List.prefix_iff_eq_take.1 hpre, List.length_map]

/-- The cursor is before everything that is left. -/
def BeforeAll (table : TableID) (db : VirtualDB) (column : StorageColumnType)
    (startKey : Bytes) : Prop :=
  startKey = [] ∨ encodeMetaKey table <+: startKey ∧
    ∀ x ∈ prefixEntries (db column) (encodeMetaKey table),
      compare startKey x.1 = .lt

/-- An iterator on the cursor shows what is left, and then others. -/
theorem seek_left {startKey : Bytes} (h : BeforeAll table db column startKey) :
    ∃ others, (∀ x ∈ others, (encodeMetaKey table).isPrefixOf x.1 = false) ∧
      db.seek op column
          (if startKey = [] then encodeMetaKey table else startKey) =
        tableEntries op table db column ++ others := by
  rcases h with rfl | ⟨hkey, hbefore⟩
  · obtain ⟨others, hothers, hseek⟩ := @seek_split op db
      column _ _ (List.prefix_refl (encodeMetaKey table))
    refine ⟨others, hothers, ?_⟩
    rw [if_pos rfl, hseek, seek_prefix_eq, tableEntries]
  · have hne : startKey ≠ [] := key_ne_nil (Nat.not_lt.2 hkey.length_le)
    obtain ⟨others, hothers, hseek⟩ := @seek_split op db
      column _ _ hkey
    refine ⟨others, hothers, ?_⟩
    have hall : (prefixEntries (db column) (encodeMetaKey table)).filter
        (fun x => compare startKey x.1 != .gt) =
          prefixEntries (db column) (encodeMetaKey table) :=
      List.filter_eq_self.2 fun x hx => by rw [hbefore x hx]; rfl
    rw [if_neg hne, hseek, seek_takeWhile op db column hkey, hall, tableEntries]

/-- A call that succeeds deletes the first entries of what is left, and at
least one of them if there is any. -/
theorem delete_page {c : DeleteCall} {startKey : Bytes}
    (h : BeforeAll table db column startKey) (hlen : 1 < c.maxLen)
    (hok : (c.perform op table column db startKey).status.ok = true) :
    ∃ taken left, tableEntries op table db column = taken ++ left ∧
      (c.perform op table column db startKey).db =
        db.applyAll (entryDeletes column taken) ∧
      (c.perform op table column db startKey).startKey = lastKeyOf taken [] ∧
      (tableEntries op table db column ≠ [] → taken ≠ []) := by
  obtain ⟨others, hothers, hseek⟩ := @seek_left op _ _ _ _ h
  have hpre : ∀ x ∈ tableEntries op table db column,
      (encodeMetaKey table).isPrefixOf x.1 = true := fun x hx =>
    List.isPrefixOf_iff_prefix.2 (prefix_of_mem_tableEntries hx)
  rw [DeleteCall.perform, deleteTableData, if_neg (Nat.not_le.2 hlen)] at hok ⊢
  simp only [hseek] at hok ⊢
  by_cases hloop : (deleteKeys c.faults column (encodeMetaKey table)
      (tableEntries op table db column ++ others) c.maxLen [] {}).2.2.ok = true
  · obtain ⟨taken, left, hsplit, hpage, hsome⟩ :=
      deleteKeys_page hothers _ hpre hloop
    simp only [hpage] at hok ⊢
    have hmutations : ({} : WriteBuffer).mutations ++ entryDeletes column taken =
        entryDeletes column taken := List.nil_append _
    simp only [hmutations, VirtualDB.flushBuffer] at hok ⊢
    cases hflush : c.faults.flush (entryDeletes column taken) with
    | none =>
        exact ⟨taken, left, hsplit, rfl, rfl, fun hne =>
          hsome hne (Nat.lt_of_succ_lt hlen)⟩
    | some msg =>
        rw [hflush] at hok
        exact absurd hok Bool.false_ne_true
  · rw [if_neg hloop] at hok
    exact absurd hok hloop

theorem lastKeyOf_mem {taken : List (Bytes × Bytes)} (h : taken ≠ []) :
    ∃ last, lastKeyOf taken [] = last.1 ∧ last ∈ taken := by
  refine ⟨taken.getLast h, ?_, List.getLast_mem h⟩
  rw [lastKeyOf, List.getLast?_eq_some_getLast h]
  rfl

section Page

variable {taken left : List (Bytes × Bytes)}
  (h : tableEntries op table db column = taken ++ left)

include h

/-- Behind the page is the rest of the table. -/
theorem prefixEntries_page :
    prefixEntries (db.applyAll (entryDeletes column taken) column)
        (encodeMetaKey table) =
      (prefixEntries (db column) (encodeMetaKey table)).drop taken.length :=
  prefixEntries_entryDeletes (List.take_append_drop taken.length _).symm
    (readableEntries_take taken h)

theorem length_prefixEntries_page (hne : taken ≠ []) :
    (prefixEntries (db.applyAll (entryDeletes column taken) column)
        (encodeMetaKey table)).length <
      (prefixEntries (db column) (encodeMetaKey table)).length := by
  have hpos := List.length_pos_iff.2 hne
  have hkeys := congrArg List.length (readableEntries_take taken h)
  rw [List.length_map, List.length_map, List.length_take] at hkeys
  rw [prefixEntries_page h, List.length_drop]
  omega

/-- The last key of the page comes before it. -/
theorem beforeAll_page (hne : taken ≠ []) :
    BeforeAll table (db.applyAll (entryDeletes column taken)) column
      (lastKeyOf taken []) := by
  obtain ⟨last, hlast, hmem⟩ := lastKeyOf_mem hne
  refine .inr ⟨?_, fun x hx => ?_⟩
  · rw [hlast]
    exact prefix_of_mem_tableEntries (h ▸ List.mem_append_left left hmem)
  · rw [prefixEntries_page h] at hx
    have hgone := List.mem_map_of_mem (f := Prod.fst) hmem
    rw [← readableEntries_take taken h] at hgone
    obtain ⟨y, hy, hkey⟩ := List.mem_map.1 hgone
    have hsorted : (prefixEntries (db column) (encodeMetaKey table)).Pairwise
        fun x y => compare x.1 y.1 = .lt := (sorted_toList _).filter _
    rw [← List.take_append_drop taken.length (prefixEntries (db column)
      (encodeMetaKey table))] at hsorted
    rw [hlast, ← hkey]
    exact (List.pairwise_append.1 hsorted).2.2 y hy x hx

end Page

/-! ## The loop -/

/-- What the loop has left of the database it began with. -/
structure Deleting (table : TableID) (column : StorageColumnType)
    (db db' : VirtualDB) : Prop where
  others : ∀ (c : StorageColumnType) (key : Bytes),
    ¬ (c = column ∧ encodeMetaKey table <+: key) →
    (db' c)[key]? = (db c)[key]?
  cells : ∀ key : Bytes, (db' column)[key]? = none ∨
    (db' column)[key]? = (db column)[key]?

theorem Deleting.refl (table : TableID) (column : StorageColumnType)
    (db : VirtualDB) : Deleting table column db db :=
  ⟨fun _ _ _ => rfl, fun _ => .inr rfl⟩

theorem Deleting.page {db' : VirtualDB} (h : Deleting table column db db')
    {taken left : List (Bytes × Bytes)}
    (htaken : tableEntries op table db' column = taken ++ left) :
    Deleting table column db
      (db'.applyAll (entryDeletes column taken)) := by
  constructor
  · intro c key hother
    refine (getElem?_entryDeletes taken db' c key).trans ((if_neg ?_).trans
      (h.others c key hother))
    rintro ⟨hc, hkey⟩
    obtain ⟨x, hx, rfl⟩ := List.mem_map.1 hkey
    exact hother ⟨hc, prefix_of_mem_tableEntries
      (htaken ▸ List.mem_append_left left hx)⟩
  · intro key
    rw [getElem?_entryDeletes]
    split
    · exact .inl rfl
    · exact h.cells key

section Loop

variable {calls : Nat → DeleteCall}

/-- The loop from a page on: it ends with nothing that an iterator shows. -/
theorem delete_from (hlen : ∀ n, 1 < (calls n).maxLen)
    (hok : ∀ n, (∀ m < n, (deleteState op table column db calls (m + 1)).2 ≠
        []) → (deleteCall op table column db calls n).status.ok = true)
    (n : Nat) (hrun : ∀ m < n,
      (deleteState op table column db calls (m + 1)).2 ≠ [])
    (hbefore : BeforeAll table (deleteState op table column db calls n).1 column
      (deleteState op table column db calls n).2)
    (hdeleting : Deleting table column db
      (deleteState op table column db calls n).1) :
    ∃ k, k ≤ n + (prefixEntries ((deleteState op table column db calls n).1
        column) (encodeMetaKey table)).length ∧
      (deleteState op table column db calls (k + 1)).2 = [] ∧
      (∀ m < k, (deleteState op table column db calls (m + 1)).2 ≠ []) ∧
      Deleting table column db
        (deleteState op table column db calls (k + 1)).1 ∧
      tableEntries op table (deleteState op table column db calls (k + 1)).1
        column = [] := by
  -- a page that deletes nothing is the last one, every other leaves less
  induction hsize : (prefixEntries ((deleteState op table column db calls n).1
      column) (encodeMetaKey table)).length using Nat.strong_induction_on
    generalizing n with
  | _ size ih =>
      obtain ⟨taken, left, hentries, hdb, hkey, hsome⟩ :=
        delete_page hbefore (hlen n) (hok n hrun)
      have hnext : deleteState op table column db calls (n + 1) =
          ((deleteState op table column db calls n).1.applyAll
            (entryDeletes column taken), lastKeyOf taken []) :=
        Prod.ext hdb hkey
      have hdeleting' := hdeleting.page hentries
      by_cases htaken : taken = []
      · refine ⟨n, Nat.le_add_right _ _, ?_, hrun, ?_, ?_⟩
        · rw [hnext, htaken]
          rfl
        · rw [hnext]
          exact hdeleting'
        · rw [hnext, htaken]
          by_contra hne
          exact hsome hne htaken
      · have hrun' : ∀ m < n + 1,
            (deleteState op table column db calls (m + 1)).2 ≠ [] := by
          intro m hm
          rcases Nat.lt_succ_iff_lt_or_eq.1 hm with hm | rfl
          · exact hrun m hm
          · rw [hnext]
            exact lastKeyOf_ne_nil
              (show _ = [] ++ (taken ++ left) from hentries) htaken
        have hless := length_prefixEntries_page hentries htaken
        have hbefore' := beforeAll_page hentries htaken
        obtain ⟨k, hkn, hend, hbefore', hall⟩ := ih _ (hsize ▸ hless) (n + 1)
          hrun' (by rw [hnext]; exact hbefore')
          (by rw [hnext]; exact hdeleting') (by rw [hnext])
        exact ⟨k, by omega, hend, hbefore', hall⟩

end Loop

end Wwsearch.Spec
