import Wwsearch.Proofs.Outcome
import Wwsearch.Proofs.TableKeys
import Wwsearch.Spec.Sequence

/-!
# What a call of the allocator reads and writes

`allocateSequences` is a loop over the items with a write buffer; where it
ends in an OK status it has put the new numbers one after the other
(`mappingPuts`) and set them in the items (`numberedItems`). A call that goes
through applies these puts and the new maximum, and a call that does not leaves
the database as it was (`writeNewSequence_ok`, `writeNewSequence_failed`).
-/

namespace Wwsearch.Spec

open Wwsearch.Lib Wwsearch.Ref Wwsearch.Ref.DocumentWriter

/-- The new numbers of some users, from `nextSequence` on. -/
def mappingPuts (table : TableID) : List Bytes → UInt64 → List Mutation
  | [], _ => []
  | userId :: rest, nextSequence =>
      .put .metaColumn (encodeSequenceMappingKey table userId)
        (sequenceBytes (nextSequence + 1)) ::
          mappingPuts table rest (nextSequence + 1)

/-- The items with their new numbers. -/
def numberedItems : List AllocSequence → UInt64 → List AllocSequence
  | [], _ => []
  | item :: rest, nextSequence =>
      if item.status.documentNotExist then
        { item with status := {}, sequence := nextSequence + 1 } ::
          numberedItems rest (nextSequence + 1)
      else item :: numberedItems rest nextSequence

/-- The maximum after a list of users. -/
def nextMaximum (currentMax : UInt64) (users : List Bytes) : UInt64 :=
  currentMax + UInt64.ofNat users.length

/-- What a call writes, by what it has read. -/
def sequenceWrites (table : TableID) (current : CurrentSequence) :
    List Mutation :=
  let users := newUsers current.sequenceList
  let next := nextMaximum current.currentMax users
  if next ≠ current.currentMax then
    mappingPuts table users current.currentMax ++
      [.put .metaColumn (encodeSequenceMetaKey table) (sequenceBytes next)]
  else []

section Loop

variable {faults : Faults} {table : TableID}

theorem newUsers_cons_of_absent {item : AllocSequence}
    (h : item.status.documentNotExist = true) (rest : List AllocSequence) :
    newUsers (item :: rest) = item.userId :: newUsers rest := by
  rw [newUsers, List.filter_cons, if_pos h, List.map_cons]
  rfl

theorem newUsers_cons_of_present {item : AllocSequence}
    (h : ¬ item.status.documentNotExist = true) (rest : List AllocSequence) :
    newUsers (item :: rest) = newUsers rest := by
  rw [newUsers, List.filter_cons, if_neg h]
  rfl

theorem nextMaximum_cons (currentMax : UInt64) (userId : Bytes)
    (rest : List Bytes) : nextMaximum currentMax (userId :: rest) =
      nextMaximum (currentMax + 1) rest := by
  rw [nextMaximum, nextMaximum, List.length_cons, UInt64.ofNat_add,
    UInt64.add_assoc, UInt64.add_comm (UInt64.ofNat rest.length)]
  rfl

theorem allocateSequences_ok (items : List AllocSequence) :
    ∀ (next : UInt64) (buffer : WriteBuffer),
    (allocateSequences faults table items next buffer).2.2.2.ok = true →
    allocateSequences faults table items next buffer =
      (numberedItems items next, nextMaximum next (newUsers items),
        ⟨buffer.mutations ++ mappingPuts table (newUsers items) next⟩, {}) := by
  induction items with
  | nil =>
      intro next buffer _
      rw [allocateSequences, newUsers, List.filter_nil, List.map_nil,
        mappingPuts, List.append_nil, numberedItems, nextMaximum]
      simp
  | cons item rest ih =>
      intro next buffer h
      rw [allocateSequences] at h ⊢
      split at h
      · next habsent =>
          rw [if_pos habsent, newUsers_cons_of_absent habsent,
            numberedItems, if_pos habsent, nextMaximum_cons]
          simp only at h ⊢
          split at h
          · next hput =>
              obtain ⟨hbuf, -, -⟩ := append_ok hput
              rw [if_pos hput, ih _ _ h, hbuf, mappingPuts, List.append_assoc,
                List.singleton_append]
          · next hput => exact absurd h hput
      · next hpresent =>
          rw [if_neg hpresent, newUsers_cons_of_present hpresent,
            numberedItems, if_neg hpresent]
          simp only at h ⊢
          rw [ih _ _ h]

end Loop

/-! ## The reading half -/

section Read

variable {faults : Faults} {op : DocListMergeOperator} {table : TableID}
  {db : VirtualDB}

/-- The answer to a read that did not fail. -/
def answer (value : Option Bytes) : SearchStatus × Bytes :=
  match value with
  | some value => ({}, value)
  | none => (⟨kDocumentNotExistStatus, ""⟩, [])

theorem getStatus_answered {column : StorageColumnType} {key : Bytes}
    (h : (!(db.getStatus faults op column key).1.ok &&
      !(db.getStatus faults op column key).1.documentNotExist) = false) :
    db.getStatus faults op column key = answer (db.get op column key) := by
  rw [VirtualDB.getStatus] at h ⊢
  split
  · next msg hmsg => rw [hmsg] at h; exact absurd h Bool.noConfusion
  · next hread =>
      split
      · next value hget => rw [hget]; rfl
      · next hget => rw [hget]; rfl

/-- An item after a read that went through. -/
def readItem (op : DocListMergeOperator) (table : TableID) (db : VirtualDB)
    (item : AllocSequence) : AllocSequence :=
  match storedNumber op table db item.userId with
  | some sequence => { item with sequence }
  | none => { item with status := ⟨kDocumentNotExistStatus, ""⟩ }

@[simp] theorem readItem_userId (item : AllocSequence) :
    (readItem op table db item).userId = item.userId := by
  rw [readItem]
  split
  · rfl
  · rfl

/-- An item with what the database has for its user. -/
def answered (op : DocListMergeOperator) (table : TableID) (db : VirtualDB)
    (item : AllocSequence) : AllocSequence × SearchStatus × Bytes :=
  (item, answer (db.get op .metaColumn
    (encodeSequenceMappingKey table item.userId)))

theorem parseItems_ok (items : List AllocSequence)
    (h : (parseItems (items.map (answered op table db))).2.ok = true) :
    parseItems (items.map (answered op table db)) =
      (items.map (readItem op table db), {}) := by
  induction items with
  | nil => rfl
  | cons item rest ih =>
      rw [List.map_cons] at h
      rw [List.map_cons, List.map_cons, readItem, storedNumber]
      cases hget : db.get op .metaColumn
          (encodeSequenceMappingKey table item.userId) with
      | none =>
          have hitem : answered op table db item = (item, answer none) := by
            rw [answered, hget]
          rw [hitem] at h
          rw [hitem, parseItems, if_neg (by decide), ih h]
          rfl
      | some value =>
          have hitem : answered op table db item = (item, {}, value) := by
            rw [answered, hget]
            rfl
          rw [hitem, parseItems, if_pos (by decide)] at h
          rw [hitem, parseItems, if_pos (by decide)]
          cases hvalue : sequenceOf value with
          | none => rw [hvalue] at h; exact absurd h Bool.false_ne_true
          | some sequence =>
              rw [hvalue] at h
              rw [Option.bind_some, hvalue]
              simp only
              rw [ih h]

theorem acquireCurrentSequence_ok {currentMax : UInt64}
    {items : List AllocSequence}
    (h : (acquireCurrentSequence faults op table db currentMax
      items).status.ok = true) :
    acquireCurrentSequence faults op table db currentMax items =
      { currentMax := storedMaximum op table db
        sequenceList := items.map (readItem op table db)
        status := {} } := by
  simp only [acquireCurrentSequence] at h ⊢
  split at h
  · next status hfind =>
      have hstatus := List.find?_some hfind
      rw [h] at hstatus
      exact absurd hstatus Bool.false_ne_true
  · next hfind =>
      have hall := List.find?_eq_none.1 hfind
      have hmeta := getStatus_answered (Bool.not_eq_true _ ▸
        hall _ List.mem_cons_self)
      have hrows : (items.map fun item => (item, db.getStatus faults op
          .metaColumn (encodeSequenceMappingKey table item.userId))) =
          items.map (answered op table db) := by
        refine List.map_congr_left fun item hitem => ?_
        rw [answered, getStatus_answered (Bool.not_eq_true _ ▸ hall _
          (List.mem_cons_of_mem _ (List.mem_map_of_mem
            (List.mem_map_of_mem hitem))))]
      rw [hmeta, hrows] at h ⊢
      split at h
      · next currentMax hmax =>
          rw [parseItems_ok items h]
          refine congrArg (CurrentSequence.mk · _ _) ?_
          rw [storedMaximum]
          cases hget : db.get op .metaColumn (encodeSequenceMetaKey table) with
          | none => rw [hget] at hmax; exact (Option.some.inj hmax).symm
          | some value =>
              rw [hget] at hmax
              rw [Option.bind_some, show sequenceOf value = some currentMax
                from hmax]
              rfl
      · exact absurd h Bool.false_ne_true

end Read

/-! ## The writing half -/

section Finish

variable {faults : Faults} {db : VirtualDB} {storeBuffer : Option StoreBuffer}
  {r : WriteBuffer × SearchStatus}

/-- A batch that was flushed, or left in the store buffer. -/
structure Finished (db : VirtualDB) (storeBuffer : Option StoreBuffer)
    (mutations : List Mutation) (r : BatchResult) : Prop where
  direct : storeBuffer = none → r.db = db.applyAll mutations
  buffered : storeBuffer ≠ none → r.db = db
  left : r.storeBuffer = storeBuffer.map fun _ => .batch mutations

theorem finishBuffer_ok {mutations : List Mutation}
    (hr : r.2.ok = true → r.1 = ⟨mutations⟩)
    (h : (finishBuffer faults db storeBuffer r).status.ok = true) :
    Finished db storeBuffer mutations
      (finishBuffer faults db storeBuffer r) := by
  simp only [finishBuffer] at h ⊢
  split at h
  · next hok =>
      rw [if_pos hok, hr hok]
      cases storeBuffer with
      | none =>
          refine ⟨fun _ => ?_, fun hn => absurd rfl hn, rfl⟩
          rw [hr hok] at h
          exact flushBuffer_ok h
      | some sb => exact ⟨(nomatch ·), fun _ => rfl, rfl⟩
  · next hno => exact absurd h hno

theorem finishBuffer_failed
    (h : (finishBuffer faults db storeBuffer r).status.ok = false) :
    (finishBuffer faults db storeBuffer r).db = db ∧
      (finishBuffer faults db storeBuffer r).storeBuffer = storeBuffer := by
  simp only [finishBuffer] at h ⊢
  split at h
  · next hr =>
      rw [if_pos hr]
      cases storeBuffer with
      | none => exact ⟨flushBuffer_failed h, rfl⟩
      | some sb => exact absurd hr (Bool.eq_false_iff.1 h)
  · next hr => rw [if_neg hr]; exact ⟨rfl, rfl⟩

end Finish

section Write

variable {faults : Faults} {table : TableID} {db : VirtualDB}
  {storeBuffer : Option StoreBuffer} {current : CurrentSequence}

/-- What a call that went through has done, by what it had read. -/
structure Wrote (table : TableID) (db : VirtualDB)
    (storeBuffer : Option StoreBuffer) (current : CurrentSequence)
    (r : SequenceResult) : Prop where
  read_ok : current.status.ok = true
  items : r.sequenceList = numberedItems current.sequenceList current.currentMax
  direct : storeBuffer = none →
    r.db = db.applyAll (sequenceWrites table current)
  buffered : storeBuffer ≠ none → r.db = db
  left : r.storeBuffer = storeBuffer.map fun _ =>
    if sequenceWrites table current = [] then .empty
    else .batch ((WriteBuffer.new storeBuffer).mutations ++
      sequenceWrites table current)

theorem writeNewSequence_ok
    (h : (writeNewSequence faults table db storeBuffer current).status.ok =
      true) : Wrote table db storeBuffer current
        (writeNewSequence faults table db storeBuffer current) := by
  simp only [writeNewSequence] at h ⊢
  by_cases hread : current.status.ok = true
  · rw [if_pos hread] at h ⊢
    by_cases hloop : (allocateSequences faults table current.sequenceList
        current.currentMax (WriteBuffer.new storeBuffer)).2.2.2.ok = true
    · rw [if_pos hloop] at h ⊢
      rw [allocateSequences_ok _ _ _ hloop] at h ⊢
      by_cases hnext : nextMaximum current.currentMax
          (newUsers current.sequenceList) ≠ current.currentMax
      · have hwrites : sequenceWrites table current = _ := if_pos hnext
        have hne : sequenceWrites table current ≠ [] := by
          rw [hwrites]
          exact List.append_ne_nil_of_right_ne_nil _ (List.cons_ne_nil _ _)
        rw [if_pos hnext] at h ⊢
        have hfinished := finishBuffer_ok (fun hput => (append_ok hput).1) h
        rw [List.append_assoc, ← hwrites] at hfinished
        refine ⟨hread, rfl, fun hn => ?_, hfinished.buffered, ?_⟩
        · refine (hfinished.direct hn).trans ?_
          rw [hn]
          rfl
        · rw [if_neg hne]
          exact hfinished.left
      · have hwrites : sequenceWrites table current = [] := if_neg hnext
        rw [if_neg hnext]
        refine ⟨hread, rfl, fun _ => ?_, fun _ => rfl, ?_⟩
        · rw [hwrites]
          rfl
        · rw [if_pos hwrites]
    · rw [if_neg hloop] at h
      exact absurd h hloop
  · rw [if_neg hread] at h
    exact absurd h hread

theorem writeNewSequence_failed
    (h : (writeNewSequence faults table db storeBuffer current).status.ok =
      false) :
    (writeNewSequence faults table db storeBuffer current).db = db ∧
      (writeNewSequence faults table db storeBuffer current).storeBuffer =
        storeBuffer := by
  simp only [writeNewSequence] at h ⊢
  split
  · next hread =>
      rw [if_pos hread] at h
      split
      · next hloop =>
          rw [if_pos hloop] at h
          split
          · next hnext =>
              rw [if_pos hnext] at h
              exact finishBuffer_failed h
          · next hnext =>
              rw [if_neg hnext] at h
              exact absurd hloop (Bool.eq_false_iff.1 h)
      · exact ⟨rfl, rfl⟩
  · exact ⟨rfl, rfl⟩

end Write

end Wwsearch.Spec
