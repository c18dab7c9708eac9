import Wwsearch.Proofs.Operations

/-!
# Serial runs of the allocator

In a serial run every call adds its new users to the ledger, and nothing else
that goes on comes near it. So a number has one user for good
(`sequence_unique`), and what a user has is at most the maximum.

Whether a user keeps its number is another question. The allocator goes by the
status of an item, and a status that was set by an earlier read is still there
when the user has got a number since; and of two items of one user both get a
number. Where neither happens, the numbers stay, and every item of a call has
the number that is stored (`sequence_stable`).
-/

namespace Wwsearch.Spec

open Wwsearch.Lib Wwsearch.Ref Wwsearch.Ref.DocumentWriter

variable {config : IndexConfig} {op : DocListMergeOperator} {table : TableID}
  {db db' : VirtualDB} {ledger : List Bytes}

/-! ## The keys of the numbers -/

/-- The keys of the table's numbers are the same in both. -/
def SameSequences (table : TableID) (db db' : VirtualDB) : Prop :=
  ∀ key, encodeMetaKey table <+: key → key ≠ encodeMetaKey table →
    (db' .metaColumn)[key]? = (db .metaColumn)[key]?

theorem SameSequences.get_mapping (h : SameSequences table db db')
    (userId : Bytes) :
    db'.get op .metaColumn (encodeSequenceMappingKey table userId) =
      db.get op .metaColumn (encodeSequenceMappingKey table userId) := by
  rw [VirtualDB.get, VirtualDB.get, h _ (prefix_sequenceMappingKey table userId)]
  intro heq
  have hlen := congrArg List.length heq
  rw [encodeSequenceMappingKey_eq, List.length_append, List.length_cons] at hlen
  omega

theorem SameSequences.get_meta (h : SameSequences table db db') :
    db'.get op .metaColumn (encodeSequenceMetaKey table) =
      db.get op .metaColumn (encodeSequenceMetaKey table) := by
  rw [VirtualDB.get, VirtualDB.get, h _ (prefix_sequenceMetaKey table)]
  intro heq
  have hlen := congrArg List.length heq
  rw [encodeSequenceMetaKey_eq, List.length_append, List.length_cons] at hlen
  omega

theorem Numbered.congr (h : Numbered op table db ledger)
    (hsame : SameSequences table db db') : Numbered op table db' ledger where
  fits := h.fits
  max := hsame.get_meta.trans h.max
  number userId := (hsame.get_mapping userId).trans (h.number userId)

theorem Applies.sameSequences_of_ofData {t : TableID}
    (h : Applies (OfData t) db db') : SameSequences table db db' := by
  obtain ⟨ms, rfl, hms⟩ := h
  intro key hkey hne
  refine applyAll_getElem?_of_untouched fun m hm => ?_
  by_contra htouch
  have htouch := Bool.not_eq_false _ ▸ htouch
  have heq := (hms m hm).metaKey key htouch
  subst heq
  obtain rfl := table_unique (List.prefix_refl (encodeMetaKey t)) hkey
  exact hne rfl

theorem Applies.sameSequences_of_other {t : TableID} (hne : t ≠ table)
    (h : Applies (OfTable t) db db') : SameSequences table db db' := by
  obtain ⟨ms, rfl, hms⟩ := h
  exact fun key hkey _ =>
    applyAll_other_table hne (fun m hm => (hms m hm).within) hkey

/-- Either the operation is a call of the allocator on this table, or it leaves
the numbers of the table as they are. -/
theorem TableOperation.acquires_or_same (o : TableOperation)
    (hdelete : ¬ o.IsDelete) :
    (∃ c, o = ⟨table, .acquireNewSequence c⟩) ∨
      SameSequences table db (o.perform config op db) ∧
        o.allocated op table db = [] := by
  obtain ⟨t, operation⟩ := o
  by_cases hdata : IsData ⟨t, operation⟩
  · refine .inr ⟨(perform_ofData hdata).sameSequences_of_ofData, ?_⟩
    cases operation with
    | acquireNewSequence c => exact absurd hdata id
    | writeDocuments c => rfl
    | ingestInvertIndex faults storeBuffer indices => rfl
    | acquireCurrentSequence faults currentMax sequenceList => rfl
    | dropTable faults storeBuffer => rfl
    | deleteTableData faults column startKey maxLen => rfl
  · cases operation with
    | acquireNewSequence c =>
        by_cases ht : t = table
        · exact .inl ⟨c, by rw [ht]⟩
        · exact .inr ⟨(perform_ofTable _).sameSequences_of_other ht, if_neg ht⟩
    | deleteTableData faults column startKey maxLen =>
        exact absurd ⟨faults, column, startKey, maxLen, rfl⟩ hdelete
    | writeDocuments c => exact absurd trivial hdata
    | ingestInvertIndex faults storeBuffer indices => exact absurd trivial hdata
    | acquireCurrentSequence faults currentMax sequenceList =>
        exact absurd trivial hdata
    | dropTable faults storeBuffer => exact absurd trivial hdata

/-! ## The ledger of a run -/

theorem numbered_empty : Numbered op table .empty [] where
  fits := by decide
  max := rfl
  number _ := rfl

theorem SequenceCall.read_eq {c : SequenceCall}
    (h : (c.read op table db).status.ok = true) :
    c.read op table db =
      { currentMax := storedMaximum op table db
        sequenceList := c.sequenceList.map (readItem op table db)
        status := {} } :=
  acquireCurrentSequence_ok h

/-- A call adds the users it stores a number for. -/
theorem Numbered.acquire (h : Numbered op table db ledger) (c : SequenceCall)
    (hfits : (ledger ++ c.allocated op table db).length < 2 ^ 64) :
    Numbered op table (c.perform op table db).db
      (ledger ++ c.allocated op table db) := by
  rw [SequenceCall.allocated] at hfits ⊢
  split at hfits
  · next hok =>
      have hwrote := writeNewSequence_ok hok.1
      have hread := c.read_eq hwrote.read_ok
      rw [if_pos hok, SequenceCall.perform]
      refine (hwrote.direct hok.2) ▸ h.write ?_ hfits
      show (c.read op table db).currentMax = _
      rw [hread]
      exact h.storedMaximum_eq
  · next hnot =>
      rw [if_neg hnot, List.append_nil]
      rcases @TableOperation.perform_acquireNew op table db c with hdb | ⟨hok, -⟩
      · rw [hdb]
        exact h
      · exact absurd hok hnot

theorem Numbered.perform (h : Numbered op table db ledger)
    {o : TableOperation} (hdelete : ¬ o.IsDelete)
    (hfits : (ledger ++ o.allocated op table db).length < 2 ^ 64) :
    Numbered op table (o.perform config op db)
      (ledger ++ o.allocated op table db) := by
  rcases @TableOperation.acquires_or_same config op table db o
    hdelete with ⟨c, rfl⟩ | ⟨hsame, hnone⟩
  · have hallocated : TableOperation.allocated op table db
        ⟨table, .acquireNewSequence c⟩ = c.allocated op table db := if_pos rfl
    rw [hallocated] at hfits ⊢
    exact h.acquire c hfits
  · rw [hnone, List.append_nil]
    exact h.congr hsame

theorem Numbered.runAll (run : List TableOperation) :
    ∀ {db : VirtualDB} {ledger : List Bytes}, Numbered op table db ledger →
    (∀ o ∈ run, ¬ o.IsDelete) →
    (ledger ++ TableOperation.allocatedAll config op table db run).length <
      2 ^ 64 →
    Numbered op table (TableOperation.runAll config op db run)
      (ledger ++ TableOperation.allocatedAll config op table db run) := by
  induction run with
  | nil =>
      intro db ledger h _ _
      rw [TableOperation.allocatedAll, List.append_nil]
      exact h
  | cons o run ih =>
      intro db ledger h hdelete hfits
      rw [TableOperation.allocatedAll, ← List.append_assoc] at hfits ⊢
      refine ih (h.perform (hdelete o List.mem_cons_self) ?_)
        (fun o' ho' => hdelete o' (List.mem_cons_of_mem o ho')) hfits
      rw [List.length_append] at hfits
      omega

theorem allocatedAll_append (before after : List TableOperation) :
    ∀ db : VirtualDB,
    TableOperation.allocatedAll config op table db (before ++ after) =
      TableOperation.allocatedAll config op table db before ++
        TableOperation.allocatedAll config op table
          (TableOperation.runAll config op db before) after := by
  induction before with
  | nil => intro db; rfl
  | cons o before ih =>
      intro db
      rw [List.cons_append, TableOperation.allocatedAll, ih,
        TableOperation.allocatedAll, List.append_assoc]
      rfl

/-- Any run of calls of the allocator, of writes of documents, of reads of the
numbers and of drops, on any tables, in which the table gives out fewer than
`2 ^ 64` numbers. After every part of it no two users have one number, every
number lies between one and the stored maximum, and the maximum has not got
smaller by the end. A number that one user has had at some time is not another
user's later. -/
theorem sequence_unique (config : IndexConfig) (op : DocListMergeOperator)
    (table : TableID) (before after : List TableOperation)
    (hrun : ∀ o ∈ before ++ after, ¬ o.IsDelete)
    (hcount : (TableOperation.allocatedAll config op table .empty
      (before ++ after)).length < 2 ^ 64) :
    let db := TableOperation.runAll config op .empty before
    let later := TableOperation.runAll config op .empty (before ++ after)
    (∀ u v n, storedNumber op table db u = some n →
      storedNumber op table db v = some n → u = v) ∧
    (∀ u n, storedNumber op table db u = some n →
      1 ≤ n ∧ n ≤ storedMaximum op table db) ∧
    storedMaximum op table db ≤ storedMaximum op table later ∧
    ∀ u v n, storedNumber op table db u = some n →
      storedNumber op table later v = some n → u = v := by
  intro db later
  have hlater := Numbered.runAll (before ++ after) numbered_empty hrun hcount
  rw [allocatedAll_append] at hcount hlater
  have hdb := @Numbered.runAll config op table before _ _
    numbered_empty
    (fun o ho => hrun o (List.mem_append_left after ho))
    (by rw [List.nil_append]; rw [List.length_append] at hcount; omega)
  rw [List.nil_append] at hdb hlater
  refine ⟨?_, ?_, ?_, ?_⟩
  · intro u v n hu hv
    exact (hdb.hasNumber hu).unique (List.prefix_refl _) (hdb.hasNumber hv)
  · intro u n hu
    have hnumber := hdb.hasNumber hu
    refine ⟨UInt64.le_iff_toNat_le.2 hnumber.pos, UInt64.le_iff_toNat_le.2 ?_⟩
    rw [hdb.storedMaximum_toNat]
    exact hnumber.le
  · rw [UInt64.le_iff_toNat_le, hdb.storedMaximum_toNat,
      hlater.storedMaximum_toNat, List.length_append]
    exact Nat.le_add_right _ _
  · intro u v n hu hv
    exact (hdb.hasNumber hu).unique (List.prefix_append _ _)
      (hlater.hasNumber hv)

/-- One user and then another, and a drop of the table between them. -/
def twoUsers : List TableOperation :=
  [⟨⟨1, 2⟩, .acquireNewSequence
      { sequenceList := [{ userId := [65] }], length_lt := by decide }⟩,
    ⟨⟨1, 2⟩, .dropTable {} none⟩,
    ⟨⟨1, 2⟩, .acquireNewSequence
      { sequenceList := [{ userId := [66] }], length_lt := by decide }⟩]

/-- The drop leaves the numbers, and the second user gets the second one. -/
theorem sequence_unique_twoUsers :
    let db := TableOperation.runAll spaceConfig millionOperator .empty twoUsers
    storedNumber millionOperator ⟨1, 2⟩ db [65] = some 1 ∧
      storedNumber millionOperator ⟨1, 2⟩ db [66] = some 2 ∧
      storedMaximum millionOperator ⟨1, 2⟩ db = 2 ∧
      ∀ u, storedNumber millionOperator ⟨1, 2⟩ db u = some 1 → u = [65] := by
  intro db
  have hfirst : storedNumber millionOperator ⟨1, 2⟩ db [65] = some 1 := by
    decide +kernel
  have hmain := sequence_unique spaceConfig millionOperator ⟨1, 2⟩ twoUsers []
    (by
      intro o ho
      simp only [twoUsers, List.append_nil, List.mem_cons, List.not_mem_nil,
        or_false] at ho
      rcases ho with rfl | rfl | rfl
      · exact fun ⟨_, _, _, _, h⟩ => nomatch h
      · exact fun ⟨_, _, _, _, h⟩ => nomatch h
      · exact fun ⟨_, _, _, _, h⟩ => nomatch h)
    (by decide +kernel)
  exact ⟨hfirst, by decide +kernel, by decide +kernel,
    fun u hu => hmain.1 u [65] 1 hu hfirst⟩

/-! ## Users that ask once -/

section AsksOnce

variable {items : List AllocSequence}

/-- Who gets a number, where everybody asks once. -/
theorem AsksOnce.newUsers_eq (h : AsksOnce op table db items) :
    newUsers (items.map (readItem op table db)) = (items.filter fun item =>
      (storedNumber op table db item.userId).isNone).map (·.userId) := by
  have hstatus : ∀ item ∈ items,
      (readItem op table db item).status.documentNotExist =
        (storedNumber op table db item.userId).isNone := by
    intro item hitem
    have hkept := h.numbered item hitem
    rw [readItem]
    split
    · next sequence hstored =>
        rw [hstored] at hkept ⊢
        exact hkept rfl
    · next hstored => rw [hstored]; rfl
  rw [newUsers, List.filter_map, List.map_map]
  refine (congrArg _ (List.filter_congr hstatus)).trans ?_
  refine List.map_congr_left fun item _ => ?_
  exact readItem_userId item

theorem AsksOnce.not_mem_newUsers (h : AsksOnce op table db items)
    {userId : Bytes} {sequence : UInt64}
    (hstored : storedNumber op table db userId = some sequence) :
    userId ∉ newUsers (items.map (readItem op table db)) := by
  rw [h.newUsers_eq]
  intro hmem
  obtain ⟨item, hitem, rfl⟩ := List.mem_map.1 hmem
  have hnone := (List.mem_filter.1 hitem).2
  rw [hstored] at hnone
  exact Bool.false_ne_true hnone

/-- The mappings after a call are those of its puts. -/
theorem get_sequenceWrites {current : CurrentSequence}
    (hlen : current.sequenceList.length < 2 ^ 64) (userId : Bytes) :
    (db.applyAll (sequenceWrites table current)).get op .metaColumn
        (encodeSequenceMappingKey table userId) =
      (db.applyAll (mappingPuts table (newUsers current.sequenceList)
        current.currentMax)).get op .metaColumn
          (encodeSequenceMappingKey table userId) := by
  simp only [sequenceWrites]
  split
  · rw [applyAll_append]
    refine (get_apply_put _ _ _ _ _ _).trans ?_
    rw [if_neg (encodeSequenceMetaKey_ne table userId)]
  · next hnext =>
      have hnil : newUsers current.sequenceList = [] := by
        by_contra hne
        have hpos := List.length_pos_iff.2 hne
        have hle := newUsers_length_le current.sequenceList
        exact hnext (nextMaximum_ne hpos (hle.trans_lt hlen))
      rw [hnil]
      rfl

/-- The number of the user at a place of the list. -/
theorem storedNumber_mappingPuts (users : List Bytes) :
    ∀ (db : VirtualDB) (next : UInt64) (i : Nat) (userId : Bytes),
    users.Nodup → users[i]? = some userId →
    (db.applyAll (mappingPuts table users next)).get op .metaColumn
      (encodeSequenceMappingKey table userId) =
        some (sequenceBytes (next + UInt64.ofNat (i + 1))) := by
  induction users with
  | nil => intro db next i userId _ hi; cases hi
  | cons first rest ih =>
      intro db next i userId hnodup hi
      obtain ⟨hfirst, hnodup⟩ := List.nodup_cons.1 hnodup
      rw [mappingPuts, VirtualDB.applyAll, List.foldl_cons]
      cases i with
      | zero =>
          obtain rfl := Option.some.inj hi
          refine (get_mappingPuts_of_ne _ _ fun v hv heq => ?_).trans ?_
          · exact hfirst (encodeSequenceMappingKey_inj.1 heq ▸ hv)
          · rw [get_apply_put, if_pos rfl]
            rfl
      | succ i =>
          refine (ih _ _ i userId hnodup hi).trans ?_
          rw [UInt64.add_assoc, UInt64.add_comm 1, UInt64.ofNat_add (i + 1)]
          rfl

/-- A call in which everybody asks once: numbers stay, and every item has the
number that is stored. -/
theorem AsksOnce.acquire {c : SequenceCall}
    (h : AsksOnce op table db c.sequenceList) :
    (∀ userId sequence, storedNumber op table db userId = some sequence →
      storedNumber op table (c.perform op table db).db userId =
        some sequence) ∧
    (c.storeBuffer = none → (c.perform op table db).status.ok = true →
      ∀ item ∈ (c.perform op table db).sequenceList,
        storedNumber op table (c.perform op table db).db item.userId =
          some item.sequence) := by
  have hkept : ∀ current : CurrentSequence, current.sequenceList =
      c.sequenceList.map (readItem op table db) →
      ∀ userId sequence, storedNumber op table db userId = some sequence →
      storedNumber op table (db.applyAll (sequenceWrites table current))
        userId = some sequence := by
    intro current hcurrent userId sequence hstored
    have hlen : current.sequenceList.length < 2 ^ 64 := by
      rw [hcurrent, List.length_map]
      exact c.length_lt
    rw [storedNumber, get_sequenceWrites hlen, get_mappingPuts_of_ne]
    · exact hstored
    · intro v hv heq
      rw [hcurrent] at hv
      exact h.not_mem_newUsers hstored (encodeSequenceMappingKey_inj.1 heq ▸ hv)
  constructor
  · intro userId sequence hstored
    rcases @TableOperation.perform_acquireNew op table db c with hdb | ⟨hok, hdb⟩
    · rw [hdb]
      exact hstored
    · rw [hdb]
      refine hkept _ ?_ userId sequence hstored
      rw [c.read_eq (writeNewSequence_ok hok.1).read_ok]
  · intro hdirect hok item hitem
    have hwrote := writeNewSequence_ok hok
    have hread := c.read_eq hwrote.read_ok
    have hdb : (c.perform op table db).db =
        db.applyAll (sequenceWrites table (c.read op table db)) :=
      hwrote.direct hdirect
    have hitem : item ∈ numberedItems (c.read op table db).sequenceList
        (c.read op table db).currentMax := hwrote.items ▸ hitem
    rw [hdb]
    have hlen : (c.read op table db).sequenceList.length < 2 ^ 64 := by
      rw [hread, List.length_map]
      exact c.length_lt
    rcases mem_numberedItems hitem with ⟨hmem, hstatus⟩ | ⟨i, hi, hsequence⟩
    · refine hkept _ (by rw [hread]) _ _ ?_
      rw [hread] at hmem
      obtain ⟨first, -, rfl⟩ := List.mem_map.1 hmem
      rw [readItem] at hstatus ⊢
      split at hstatus
      · next sequence hstored => exact hstored
      · exact absurd hstatus.symm Bool.false_ne_true
    · have hnodup : (newUsers (c.read op table db).sequenceList).Nodup := by
        rw [hread, h.newUsers_eq]
        exact h.distinct
      rw [storedNumber, get_sequenceWrites hlen,
        storedNumber_mappingPuts _ _ _ i _ hnodup hi, ← hsequence]
      exact sequenceOf_sequenceBytes _

end AsksOnce

theorem stable_runAll (run : List TableOperation) : ∀ {db : VirtualDB},
    (∀ o ∈ run, ¬ o.IsDelete) →
    TableOperation.AsksOnceAll config op table db run →
    ∀ userId sequence, storedNumber op table db userId = some sequence →
      storedNumber op table (TableOperation.runAll config op db run) userId =
        some sequence := by
  induction run with
  | nil => intro db _ _ userId sequence h; exact h
  | cons o run ih =>
      intro db hdelete hasks userId sequence hstored
      refine ih (fun o' ho' => hdelete o' (List.mem_cons_of_mem o ho')) hasks.2
        userId sequence ?_
      rcases @TableOperation.acquires_or_same config op table db o
        (hdelete o List.mem_cons_self) with
        ⟨c, rfl⟩ | ⟨hsame, -⟩
      · exact (hasks.1 c rfl).acquire.1 userId sequence hstored
      · rw [storedNumber, hsame.get_mapping]
        exact hstored

theorem asksOnceAll_append (before after : List TableOperation) :
    ∀ {db : VirtualDB}, TableOperation.AsksOnceAll config op table db
      (before ++ after) → TableOperation.AsksOnceAll config op table
        (TableOperation.runAll config op db before) after := by
  induction before with
  | nil => exact fun h => h
  | cons o before ih => exact fun h => ih h.2

/-- Any run in which every call of the allocator on the table asks once: no
item that comes in with the status of a user without a number is of a user with
one, and no user without a number is in the list twice. From every state of the
run on, a number that is stored stays; and after a call that goes through every
item has the number that is stored for its user. -/
theorem sequence_stable (config : IndexConfig) (op : DocListMergeOperator)
    (table : TableID) (start : VirtualDB) (before after : List TableOperation)
    (hrun : ∀ o ∈ before ++ after, ¬ o.IsDelete)
    (hasks : TableOperation.AsksOnceAll config op table start
      (before ++ after)) :
    let db := TableOperation.runAll config op start before
    (∀ u n, storedNumber op table db u = some n →
      storedNumber op table
        (TableOperation.runAll config op start (before ++ after)) u =
          some n) ∧
    ∀ (c : SequenceCall) (rest : List TableOperation),
      after = ⟨table, .acquireNewSequence c⟩ :: rest → c.storeBuffer = none →
      (c.perform op table db).status.ok = true →
      ∀ item ∈ (c.perform op table db).sequenceList,
        storedNumber op table (c.perform op table db).db item.userId =
          some item.sequence := by
  intro db
  have hafter := asksOnceAll_append before after hasks
  constructor
  · intro u n hu
    rw [TableOperation.runAll, List.foldl_append]
    exact stable_runAll after
      (fun o ho => hrun o (List.mem_append_right before ho)) hafter u n hu
  · rintro c rest rfl hdirect hok
    exact (hafter.1 c rfl).acquire.2 hdirect hok

/-- The first of the two users keeps its number when both ask. -/
theorem sequence_stable_askAgain :
    let before : List TableOperation := [⟨⟨1, 2⟩, .acquireNewSequence
      { sequenceList := [{ userId := [65] }], length_lt := by decide }⟩]
    let again : SequenceCall :=
      { sequenceList := [{ userId := [66] }, { userId := [65] }]
        length_lt := by decide }
    let db := TableOperation.runAll spaceConfig millionOperator .empty before
    ∀ item ∈ (again.perform millionOperator ⟨1, 2⟩ db).sequenceList,
      storedNumber millionOperator ⟨1, 2⟩
        (again.perform millionOperator ⟨1, 2⟩ db).db item.userId =
          some item.sequence := by
  intro before again db
  have hempty : ∀ u, storedNumber millionOperator ⟨1, 2⟩ .empty u = none :=
    fun _ => rfl
  refine (sequence_stable spaceConfig millionOperator ⟨1, 2⟩ .empty before
    [⟨⟨1, 2⟩, .acquireNewSequence again⟩] ?_ ⟨?_, ?_, trivial⟩).2 again [] rfl
      rfl (by decide +kernel)
  · intro o ho
    simp only [before, List.cons_append, List.nil_append, List.mem_cons,
      List.not_mem_nil, or_false] at ho
    rcases ho with rfl | rfl
    · exact fun ⟨_, _, _, _, h⟩ => nomatch h
    · exact fun ⟨_, _, _, _, h⟩ => nomatch h
  · rintro c h
    cases h
    exact ⟨by decide, by decide +kernel⟩
  · rintro c h
    cases h
    exact ⟨by decide, by decide +kernel⟩

/-- An item of user `A`, as `AcquireCurrentSequence` leaves it on an empty
table. -/
def staleItem : AllocSequence where
  userId := [65]
  status := ⟨kDocumentNotExistStatus, ""⟩

/-- User `A` twice in one list gets the numbers 1 and 2, and 2 is stored. And
an item that was read before `A` got the number 1 gets `A` the number 2. -/
theorem sequences_change :
    ¬ (∀ c : SequenceCall, c.storeBuffer = none →
      (c.perform millionOperator ⟨1, 2⟩ .empty).status.ok = true →
      ∀ item ∈ (c.perform millionOperator ⟨1, 2⟩ .empty).sequenceList,
        storedNumber millionOperator ⟨1, 2⟩
          (c.perform millionOperator ⟨1, 2⟩ .empty).db item.userId =
            some item.sequence) ∧
    (acquireCurrentSequence {} millionOperator ⟨1, 2⟩ .empty 0
      [{ userId := [65] }]).sequenceList = [staleItem] ∧
    ¬ (∀ c d : SequenceCall, c.storeBuffer = none → d.storeBuffer = none →
      let db := (c.perform millionOperator ⟨1, 2⟩ .empty).db
      ∀ u n, storedNumber millionOperator ⟨1, 2⟩ db u = some n →
        storedNumber millionOperator ⟨1, 2⟩
          (d.perform millionOperator ⟨1, 2⟩ db).db u = some n) := by
  refine ⟨fun h => ?_, by decide +kernel, fun h => ?_⟩
  · have hboth := h { sequenceList := [{ userId := [65] }, { userId := [65] }]
                      length_lt := by decide } rfl (by decide +kernel)
    revert hboth
    decide +kernel
  · have hkept := h
      { sequenceList := [{ userId := [65] }], length_lt := by decide }
      { sequenceList := [staleItem], length_lt := by decide } rfl rfl [65] 1
      (by decide +kernel)
    revert hkept
    decide +kernel

end Wwsearch.Spec
