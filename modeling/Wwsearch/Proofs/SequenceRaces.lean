import Wwsearch.Proofs.Sequences

/-!
# Clients that allocate at the same time

A call writes the numbers that follow the maximum it has read, whatever the
maximum is by then. Where nothing that a call has read has changed before its
flush, the calls are a serial run in the order of their flushes, and every
number that was given out is a place in one ledger (`undisturbed_unique`).
Where two calls read one maximum, both of them give out the number behind it
(`racingUsers_share`).
-/

namespace Wwsearch.Spec

open Wwsearch.Lib Wwsearch.Ref Wwsearch.Ref.DocumentWriter

variable {ι : Type} {op : DocListMergeOperator} {table : TableID}
  {db : VirtualDB} {ledger : List Bytes} {calls : ι → SequenceCall}

theorem sameSequences_applyAll {ms : List Mutation}
    (h : ∀ m ∈ ms, LeavesNumbers table m) :
    SameSequences table db (db.applyAll ms) :=
  fun key hkey hne =>
    applyAll_getElem?_of_untouched fun m hm => h m hm key hkey hne

/-- A flush leaves the database as it was, or it has written what was in the
store buffer before, and the numbers. -/
theorem flush_cases (c : SequenceCall) (current : CurrentSequence) :
    let r := c.flush table db current
    r.2.ok = false ∧ r.1 = db ∨
    r.2.ok = true ∧ current.status.ok = true ∧
      r.2.sequenceList =
        numberedItems current.sequenceList current.currentMax ∧
      ∃ ms, (∀ m ∈ ms, m ∈ (WriteBuffer.new c.storeBuffer).mutations) ∧
        r.1 = (db.applyAll ms).applyAll (sequenceWrites table current) := by
  simp only [SequenceCall.flush]
  split
  · next hok =>
      have hwrote := writeNewSequence_ok hok
      have hleft := hwrote.left
      cases hbuffer : c.storeBuffer with
      | none =>
          rw [hbuffer] at hwrote hleft
          simp only [Option.map_none] at hleft
          rw [hleft]
          exact .inr ⟨rfl, hwrote.read_ok, hwrote.items, [],
            fun m hm => absurd hm List.not_mem_nil, hwrote.direct rfl⟩
      | some sb =>
          rw [hbuffer] at hwrote hleft
          simp only [Option.map_some] at hleft
          rw [hleft, hwrote.buffered (Option.some_ne_none sb)]
          simp only
          by_cases hstatus : (db.flushBuffer c.faults (WriteBuffer.new
            (some (if sequenceWrites table current = [] then .empty
              else .batch ((WriteBuffer.new (some sb)).mutations ++
                sequenceWrites table current))))).2.ok = true
          · refine .inr ⟨hstatus, hwrote.read_ok, hwrote.items, ?_⟩
            rw [flushBuffer_ok hstatus]
            split
            · next hnil =>
                refine ⟨[], fun m hm => absurd hm List.not_mem_nil, ?_⟩
                rw [hnil]
                rfl
            · exact ⟨_, fun m hm => hm, applyAll_append _ _ _⟩
          · have hno := Bool.eq_false_iff.2 hstatus
            exact .inl ⟨hno, flushBuffer_failed hno⟩
  · next hok =>
      exact .inl ⟨rfl, (writeNewSequence_failed (Bool.not_eq_true _ ▸ hok)).1⟩

/-! ## The ledger of a serial run -/

/-- Both steps of a call at once, on a table with a ledger. -/
structure Flushed (op : DocListMergeOperator) (table : TableID)
    (ledger new : List Bytes) (r : VirtualDB × SequenceReturn) : Prop where
  numbered : Numbered op table r.1 (ledger ++ new)
  gave : r.2.ok = true → ∀ item ∈ r.2.sequenceList,
    HasNumber (ledger ++ new) item.userId item.sequence

theorem Numbered.flush (h : Numbered op table db ledger) (c : SequenceCall)
    (hbuffer : ∀ m ∈ (WriteBuffer.new c.storeBuffer).mutations,
      LeavesNumbers table m)
    (hfits : (ledger ++ c.stores op table db).length < 2 ^ 64) :
    Flushed op table ledger (c.stores op table db)
      (c.flush table db (c.read op table db)) := by
  rcases @flush_cases table db c (c.read op table db) with
    ⟨hno, hdb⟩ | ⟨hok, hread, hitems, ms, hms, hdb⟩
  · have hnone : c.stores op table db = [] := if_neg (by rw [hno]; decide)
    rw [hnone]
    refine ⟨?_, fun htrue => ?_⟩
    · rw [hdb, List.append_nil]
      exact h
    · exact absurd (hno.symm.trans htrue) Bool.false_ne_true
  · have hstores : c.stores op table db =
        newUsers (c.read op table db).sequenceList := if_pos hok
    have hread := c.read_eq hread
    have hmax : (c.read op table db).currentMax =
        UInt64.ofNat ledger.length := by
      rw [hread]
      exact h.storedMaximum_eq
    rw [hstores] at hfits ⊢
    constructor
    · rw [hdb]
      exact (h.congr (sameSequences_applyAll fun m hm =>
        hbuffer m (hms m hm))).write hmax hfits
    · intro _ item hitem
      rw [hitems, hmax] at hitem
      rw [hread] at hfits hitem ⊢
      exact h.hasNumber_items hfits hitem

theorem storedAll_append (before after : List ι) : ∀ db : VirtualDB,
    storedAll op table calls db (before ++ after) =
      storedAll op table calls db before ++ storedAll op table calls
        ((allocators op table calls).serial db before) after := by
  induction before with
  | nil => intro db; rfl
  | cons i before ih =>
      intro db
      rw [List.cons_append, storedAll, ih, storedAll, List.append_assoc]
      rfl

theorem Numbered.serial
    (hbuffers : ∀ i, ∀ m ∈ (WriteBuffer.new (calls i).storeBuffer).mutations,
      LeavesNumbers table m) (order : List ι) :
    ∀ {db : VirtualDB} {ledger : List Bytes}, Numbered op table db ledger →
    (ledger ++ storedAll op table calls db order).length < 2 ^ 64 →
    Numbered op table ((allocators op table calls).serial db order)
      (ledger ++ storedAll op table calls db order) := by
  induction order with
  | nil =>
      intro db ledger h _
      rw [storedAll, List.append_nil]
      exact h
  | cons i order ih =>
      intro db ledger h hfits
      rw [storedAll, ← List.append_assoc] at hfits ⊢
      refine ih (h.flush (calls i) (hbuffers i) ?_).numbered hfits
      rw [List.length_append] at hfits
      omega

/-- A call of a serial run gives out places of the ledger of the whole run. -/
theorem hasNumber_serial (h : Numbered op table db ledger)
    (hbuffers : ∀ i, ∀ m ∈ (WriteBuffer.new (calls i).storeBuffer).mutations,
      LeavesNumbers table m) {before after : List ι} {i : ι}
    (hfits : (ledger ++ storedAll op table calls db
      (before ++ i :: after)).length < 2 ^ 64) {item : AllocSequence}
    (hok : ((allocators op table calls).perform i
      ((allocators op table calls).serial db before)).2.ok = true)
    (hitem : item ∈ ((allocators op table calls).perform i
      ((allocators op table calls).serial db before)).2.sequenceList) :
    HasNumber (ledger ++ storedAll op table calls db (before ++ i :: after))
      item.userId item.sequence := by
  rw [storedAll_append, storedAll, ← List.append_assoc, ← List.append_assoc]
    at hfits ⊢
  have hlen := List.length_append ▸ hfits
  have hlen' := List.length_append ▸ (Nat.lt_of_le_of_lt
    (Nat.le_add_right _ _) hlen)
  have hbefore := Numbered.serial hbuffers before h
    (Nat.lt_of_le_of_lt (Nat.le_add_right _ _) hlen')
  exact ((hbefore.flush (calls i) (hbuffers i)
    (Nat.lt_of_le_of_lt (Nat.le_add_right _ _) hlen)).gave hok item
      hitem).append _

variable [DecidableEq ι]

/-- Any number of clients that allocate on one table, directly or by a store
buffer of their own, in any order of their steps in which every flush still
finds the maximum and the numbers that its call has read, and in which fewer
than `2 ^ 64` numbers are stored. In every state no two users have one number,
and no number that was given out by flushes that took effect was given to two
users. -/
theorem undisturbed_unique (op : DocListMergeOperator) (table : TableID)
    (calls : ι → SequenceCall) (db : VirtualDB) (ledger : List Bytes)
    (hdb : Numbered op table db ledger)
    (hbuffers : ∀ i, ∀ m ∈ (WriteBuffer.new (calls i).storeBuffer).mutations,
      LeavesNumbers table m)
    (es : List (TwoPhase.Event ι))
    (hes : (allocators op table calls).Undisturbed (.start db) es)
    (hcount : (ledger ++ storedAll op table calls db
      ((allocators op table calls).run (.start db) es).flushed).length <
        2 ^ 64) :
    let w := (allocators op table calls).run (.start db) es
    (∀ u v n, storedNumber op table w.store u = some n →
      storedNumber op table w.store v = some n → u = v) ∧
    ∀ i j item item', Gave w i item → Gave w j item' →
      item.sequence = item'.sequence → item.userId = item'.userId := by
  intro w
  have hser := TwoPhase.serializes_run hes
  have hstore := Numbered.serial hbuffers _ hdb hcount
  rw [← hser.store] at hstore
  have hgave : ∀ i item, Gave w i item → HasNumber
      (ledger ++ storedAll op table calls db w.flushed) item.userId
        item.sequence := by
    rintro i item ⟨r, hr, hok, hitem⟩
    obtain ⟨before, after, hflushed, rfl⟩ := hser.result i r hr
    have hflushed : w.flushed = before ++ i :: after := hflushed
    rw [show ((allocators op table calls).run (.start db) es).flushed = _ from
      hflushed] at hcount
    rw [hflushed]
    exact hasNumber_serial hdb hbuffers hcount hok hitem
  constructor
  · intro u v n hu hv
    exact (hstore.hasNumber hu).unique (List.prefix_refl _)
      (hstore.hasNumber hv)
  · intro i j item item' hi hj hsequence
    have hitem' := hgave j item' hj
    rw [← hsequence] at hitem'
    exact (hgave i item hi).unique (List.prefix_refl _) hitem'

/-- Two clients, one with user `A` and one with user `B` and a store buffer. -/
def racingUsers (second : Bool) : SequenceCall where
  storeBuffer := if second then some .empty else none
  sequenceList := [{ userId := if second then [66] else [65] }]
  length_lt := by cases second <;> decide

/-- One after the other is undisturbed. -/
theorem undisturbed_unique_racingUsers :
    let w := (allocators millionOperator ⟨1, 2⟩ racingUsers).run
      (.start .empty) [.read false, .flush false, .read true, .flush true]
    storedNumber millionOperator ⟨1, 2⟩ w.store [66] = some 2 ∧
      ∀ u, storedNumber millionOperator ⟨1, 2⟩ w.store u = some 2 →
        u = [66] := by
  intro w
  have hundisturbed : (allocators millionOperator ⟨1, 2⟩
      racingUsers).Undisturbed (.start .empty)
        [.read false, .flush false, .read true, .flush true] :=
    ⟨fun _ h => (TwoPhase.Phase.pending.inj h).symm,
      fun _ h => (TwoPhase.Phase.pending.inj h).symm, trivial⟩
  have hmain := undisturbed_unique millionOperator ⟨1, 2⟩ racingUsers .empty []
    numbered_empty
    (fun second m hm => by cases second <;> exact absurd hm List.not_mem_nil)
    _ hundisturbed (by decide +kernel)
  have hsecond : storedNumber millionOperator ⟨1, 2⟩ w.store [66] = some 2 := by
    decide +kernel
  exact ⟨hsecond, fun u hu => hmain.1 u [66] 2 hu hsecond⟩

/-- Both clients read before either flushes. Both users get the number 1. -/
theorem racingUsers_share :
    ¬ (∀ (es : List (TwoPhase.Event Bool)) u v n,
      let w := (allocators millionOperator ⟨1, 2⟩ racingUsers).run
        (.start .empty) es
      storedNumber millionOperator ⟨1, 2⟩ w.store u = some n →
        storedNumber millionOperator ⟨1, 2⟩ w.store v = some n → u = v) ∧
    ¬ (∀ (es : List (TwoPhase.Event Bool)) i j item item',
      let w := (allocators millionOperator ⟨1, 2⟩ racingUsers).run
        (.start .empty) es
      Gave w i item → Gave w j item' → item.sequence = item'.sequence →
        item.userId = item'.userId) := by
  let es : List (TwoPhase.Event Bool) :=
    [.read false, .read true, .flush false, .flush true]
  constructor
  · intro h
    have hsame := h es [65] [66] 1 (by decide +kernel) (by decide +kernel)
    exact absurd hsame (by decide)
  · intro h
    have hsame := h es false true
      { userId := [65], sequence := 1 } { userId := [66], sequence := 1 }
      ⟨_, rfl, by decide +kernel, by decide +kernel⟩
      ⟨_, rfl, by decide +kernel, by decide +kernel⟩ rfl
    exact absurd hsame (by decide)

end Wwsearch.Spec
