import Wwsearch.Proofs.SequenceCalls

/-!
# The meta column and the ledger

One put of a mapping is one step of the numbering (`storesNumbers_put`), and so
a call that goes through adds its new users to the ledger and does nothing else
(`Numbered.write`). A number that the database has, or that a call gives back,
is a place in the ledger where the user stands.
-/

namespace Wwsearch.Spec

open Wwsearch.Lib Wwsearch.Ref Wwsearch.Ref.DocumentWriter

theorem sequenceOf_sequenceBytes (sequence : UInt64) :
    sequenceOf (sequenceBytes sequence) = some sequence := by
  have hlen : (sequenceBytes sequence).length = 8 := by
    rw [sequenceBytes, Internal.appendFixed64, List.nil_append,
      Word.toLE_length]
  rw [sequenceOf, if_pos hlen, sequenceBytes, Internal.appendFixed64,
    List.nil_append, Word.ofNat_ofLE_toLE]

/-- A put is read back, and nothing else is changed. -/
theorem get_apply_put (op : DocListMergeOperator) (db : VirtualDB)
    (column : StorageColumnType) (key value key' : Bytes) :
    ((Mutation.put column key value).apply db).get op column key' =
      if key = key' then some value else db.get op column key' := by
  rw [VirtualDB.get, Mutation.apply_getElem?, Mutation.touches,
    Mutation.column, decide_eq_true rfl, Bool.true_and]
  by_cases h : key = key'
  · rw [decide_eq_true h, if_pos rfl, if_pos h]
    rfl
  · rw [decide_eq_false h, if_neg Bool.false_ne_true, if_neg h]
    rfl

section Ledger

variable {op : DocListMergeOperator} {table : TableID} {db : VirtualDB}
  {ledger : List Bytes}

/-! ## Writing -/

theorem storesNumbers_put {s : Numbering Bytes}
    (h : StoresNumbers op table db s) (userId : Bytes) :
    StoresNumbers op table ((Mutation.put .metaColumn
      (encodeSequenceMappingKey table userId)
      (sequenceBytes (UInt64.ofNat s.max + 1))).apply db)
        (s.assign userId) := by
  intro v
  rw [get_apply_put, Numbering.number_assign]
  by_cases hv : v = userId
  · rw [if_pos (encodeSequenceMappingKey_inj.2 hv.symm), if_pos hv,
      Option.map_some, UInt64.ofNat_add]
    rfl
  · rw [if_neg fun hkey => hv (encodeSequenceMappingKey_inj.1 hkey).symm,
      if_neg hv]
    exact h v

theorem storesNumbers_mappingPuts (users : List Bytes) :
    ∀ (db : VirtualDB) (s : Numbering Bytes), StoresNumbers op table db s →
    StoresNumbers op table
      (db.applyAll (mappingPuts table users (UInt64.ofNat s.max)))
      (users.foldl Numbering.assign s) := by
  induction users with
  | nil => intro db s h; exact h
  | cons userId rest ih =>
      intro db s h
      have hrest := ih _ _ (storesNumbers_put h userId)
      rw [Numbering.assign, UInt64.ofNat_add] at hrest
      exact hrest

/-- The puts of some users touch the keys of these users only. -/
theorem get_mappingPuts_of_ne {users : List Bytes} : ∀ (db : VirtualDB)
    (next : UInt64) {key : Bytes},
    (∀ userId ∈ users, encodeSequenceMappingKey table userId ≠ key) →
    (db.applyAll (mappingPuts table users next)).get op .metaColumn key =
      db.get op .metaColumn key := by
  induction users with
  | nil => intro db next key _; rfl
  | cons userId rest ih =>
      intro db next key hkey
      rw [mappingPuts, VirtualDB.applyAll, List.foldl_cons]
      refine (ih _ _ fun v hv => hkey v (List.mem_cons_of_mem userId hv)).trans
        ?_
      rw [get_apply_put, if_neg (hkey userId List.mem_cons_self)]

theorem nextMaximum_eq {n : Nat} {users : List Bytes} :
    nextMaximum (UInt64.ofNat n) users = UInt64.ofNat (n + users.length) := by
  rw [nextMaximum, UInt64.ofNat_add]

theorem newUsers_length_le (items : List AllocSequence) :
    (newUsers items).length ≤ items.length := by
  rw [newUsers, List.length_map]
  exact List.length_filter_le _ items

/-- New users raise the maximum, unless there are so many that it comes round. -/
theorem nextMaximum_ne {currentMax : UInt64} {users : List Bytes}
    (hpos : 0 < users.length) (hlt : users.length < 2 ^ 64) :
    nextMaximum currentMax users ≠ currentMax := by
  intro heq
  have heq := congrArg UInt64.toNat heq
  have hmax := currentMax.toNat_lt
  rw [nextMaximum, UInt64.toNat_add, UInt64.toNat_ofNat_of_lt' hlt] at heq
  omega

/-- A call adds its new users to the ledger. -/
theorem Numbered.write (h : Numbered op table db ledger)
    {current : CurrentSequence}
    (hmax : current.currentMax = UInt64.ofNat ledger.length)
    (hfits : (ledger ++ newUsers current.sequenceList).length < 2 ^ 64) :
    Numbered op table (db.applyAll (sequenceWrites table current))
      (ledger ++ newUsers current.sequenceList) := by
  have hlen := List.length_append ▸ hfits
  have hnumbers := storesNumbers_mappingPuts
    (newUsers current.sequenceList) db _ h.number
  rw [Numbering.max_ofLedger, ← Numbering.ofLedger_append, ← hmax] at hnumbers
  rw [sequenceWrites]
  by_cases hnil : newUsers current.sequenceList = []
  · rw [hnil, if_neg (not_not.2 (by simp [nextMaximum])), List.append_nil]
    exact h
  · have hpos := List.length_pos_iff.2 hnil
    have hnext : nextMaximum current.currentMax
        (newUsers current.sequenceList) ≠ current.currentMax :=
      nextMaximum_ne hpos (Nat.lt_of_le_of_lt (Nat.le_add_left _ _) hlen)
    rw [if_pos hnext]
    simp only [applyAll_append]
    refine ⟨hfits, ?_, fun userId => ?_⟩
    · refine (get_apply_put _ _ _ _ _ _).trans ?_
      rw [if_pos rfl, if_neg (List.append_ne_nil_of_right_ne_nil _ hnil), hmax,
        nextMaximum_eq, List.length_append]
    · refine (get_apply_put _ _ _ _ _ _).trans ?_
      rw [if_neg (encodeSequenceMetaKey_ne table userId)]
      exact hnumbers userId

/-! ## Reading -/

theorem Numbered.storedMaximum_eq (h : Numbered op table db ledger) :
    storedMaximum op table db = UInt64.ofNat ledger.length := by
  rw [storedMaximum, h.max]
  split
  · next hnil => rw [hnil]; rfl
  · rw [Option.bind_some, sequenceOf_sequenceBytes]
    rfl

theorem Numbered.storedMaximum_toNat (h : Numbered op table db ledger) :
    (storedMaximum op table db).toNat = ledger.length := by
  rw [h.storedMaximum_eq, UInt64.toNat_ofNat_of_lt' h.fits]

theorem Numbered.storedNumber_eq (h : Numbered op table db ledger)
    (userId : Bytes) : storedNumber op table db userId =
      ((Numbering.ofLedger ledger).number userId).map UInt64.ofNat := by
  rw [storedNumber, h.number userId]
  cases (Numbering.ofLedger ledger).number userId with
  | none => rfl
  | some n => exact sequenceOf_sequenceBytes _

theorem Numbered.hasNumber (h : Numbered op table db ledger) {userId : Bytes}
    {sequence : UInt64}
    (hstored : storedNumber op table db userId = some sequence) :
    HasNumber ledger userId sequence := by
  rw [h.storedNumber_eq, Option.map_eq_some_iff] at hstored
  obtain ⟨n, hn, rfl⟩ := hstored
  obtain ⟨hpos, hplace⟩ := Numbering.getElem?_of_number hn
  have hlt : n < 2 ^ 64 := (Numbering.number_le hn).trans_lt h.fits
  constructor
  · rwa [UInt64.toNat_ofNat_of_lt' hlt]
  · rwa [UInt64.toNat_ofNat_of_lt' hlt]

/-! ## Places -/

theorem HasNumber.le {userId : Bytes} {sequence : UInt64}
    (h : HasNumber ledger userId sequence) :
    sequence.toNat ≤ ledger.length := by
  have hlt := (List.getElem?_eq_some_iff.1 h.place).1
  have hpos := h.pos
  omega

theorem HasNumber.append {userId : Bytes} {sequence : UInt64}
    (h : HasNumber ledger userId sequence) (new : List Bytes) :
    HasNumber (ledger ++ new) userId sequence :=
  ⟨h.pos, (List.getElem?_append_left
    (List.getElem?_eq_some_iff.1 h.place).1).trans h.place⟩

theorem HasNumber.unique {later : List Bytes} {u v : Bytes}
    {sequence : UInt64} (hle : ledger <+: later)
    (hu : HasNumber ledger u sequence) (hv : HasNumber later v sequence) :
    u = v :=
  Numbering.name_unique hle hu.place hv.place

/-! ## Items -/

/-- An item of the result was there before, or it is the item of a new user. -/
theorem mem_numberedItems {items : List AllocSequence} {item : AllocSequence} :
    ∀ {next : UInt64}, item ∈ numberedItems items next →
    (item ∈ items ∧ item.status.documentNotExist = false) ∨
      ∃ i, (newUsers items)[i]? = some item.userId ∧
        item.sequence = next + UInt64.ofNat (i + 1) := by
  induction items with
  | nil => intro next h; exact absurd h List.not_mem_nil
  | cons first rest ih =>
      intro next h
      rw [numberedItems] at h
      split at h
      · next habsent =>
          rw [newUsers_cons_of_absent habsent]
          rcases List.mem_cons.1 h with rfl | h
          · exact .inr ⟨0, rfl, rfl⟩
          · rcases ih h with ⟨hmem, hstatus⟩ | ⟨i, hi, hsequence⟩
            · exact .inl ⟨List.mem_cons_of_mem _ hmem, hstatus⟩
            · refine .inr ⟨i + 1, hi, ?_⟩
              rw [hsequence, UInt64.ofNat_add (i + 1), UInt64.add_assoc,
                UInt64.add_comm (UInt64.ofNat (i + 1))]
              rfl
      · next hpresent =>
          rw [newUsers_cons_of_present hpresent]
          rcases List.mem_cons.1 h with rfl | h
          · exact .inl ⟨List.mem_cons_self, Bool.eq_false_iff.2 hpresent⟩
          · exact (ih h).imp_left fun hitem =>
              ⟨List.mem_cons_of_mem _ hitem.1, hitem.2⟩

/-- What a call gives back are places in the ledger after it. -/
theorem Numbered.hasNumber_items (h : Numbered op table db ledger)
    {given : List AllocSequence} {item : AllocSequence} :
    let items := given.map (readItem op table db)
    (ledger ++ newUsers items).length < 2 ^ 64 →
    item ∈ numberedItems items (UInt64.ofNat ledger.length) →
    HasNumber (ledger ++ newUsers items) item.userId item.sequence := by
  intro items hfits hitem
  rcases mem_numberedItems hitem with ⟨hmem, hstatus⟩ | ⟨i, hi, hsequence⟩
  · obtain ⟨first, -, rfl⟩ := List.mem_map.1 hmem
    rw [readItem] at hstatus ⊢
    split at hstatus
    · next sequence hstored =>
        exact (h.hasNumber hstored).append _
    · exact absurd hstatus.symm Bool.false_ne_true
  · have hlt := (List.getElem?_eq_some_iff.1 hi).1
    rw [List.length_append] at hfits
    have hplace : ledger.length + (i + 1) < 2 ^ 64 := by omega
    have hnat : item.sequence.toNat = ledger.length + (i + 1) := by
      rw [hsequence, ← UInt64.ofNat_add, UInt64.toNat_ofNat_of_lt' hplace]
    refine ⟨by omega, ?_⟩
    rw [hnat, List.getElem?_append_right (by omega)]
    rw [← hi]
    congr 1
    omega

end Ledger

end Wwsearch.Spec
