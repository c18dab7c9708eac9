import Wwsearch.Lib.Ledger
import Wwsearch.Lib.TwoPhase
import Wwsearch.Ref.Sequence
import Wwsearch.Spec.Keys

/-!
# The users of a table, in the order in which they got their numbers

What the meta column says of a table is what a ledger says: its length is the
stored maximum, and the number of a user is the last place of the user in it.
A call of `AcquireNewSequence` adds to the ledger the users of the items that
get a number.
-/

namespace Wwsearch.Spec

open Wwsearch.Lib Wwsearch.Ref Wwsearch.Ref.DocumentWriter

section Stored

variable (op : DocListMergeOperator) (table : TableID) (db : VirtualDB)

/-- The number that is stored for the user. -/
def storedNumber (userId : Bytes) : Option UInt64 :=
  (db.get op .metaColumn (encodeSequenceMappingKey table userId)).bind
    sequenceOf

/-- The stored maximum, zero where there is none. -/
def storedMaximum : UInt64 :=
  ((db.get op .metaColumn (encodeSequenceMetaKey table)).bind
    sequenceOf).getD 0

/-- The numbers of the users are those of the numbering. -/
def StoresNumbers (s : Numbering Bytes) : Prop :=
  ∀ userId, db.get op .metaColumn (encodeSequenceMappingKey table userId) =
    (s.number userId).map fun n => sequenceBytes (UInt64.ofNat n)

/-- The meta column says of the table what the ledger says. -/
structure Numbered (ledger : List Bytes) : Prop where
  fits : ledger.length < 2 ^ 64
  max : db.get op .metaColumn (encodeSequenceMetaKey table) =
    if ledger = [] then none
    else some (sequenceBytes (UInt64.ofNat ledger.length))
  number : StoresNumbers op table db (.ofLedger ledger)

end Stored

/-- The number is a place of the ledger, and the user stands there. -/
structure HasNumber (ledger : List Bytes) (userId : Bytes)
    (sequence : UInt64) : Prop where
  pos : 0 < sequence.toNat
  place : ledger[sequence.toNat - 1]? = some userId

/-! ## Calls -/

/-- A call of `AcquireNewSequence`, with whatever items its client has. The
items are in a vector, so their number is a `size_t`. -/
structure SequenceCall where
  faults : Faults := {}
  storeBuffer : Option StoreBuffer := none
  sequenceList : List AllocSequence
  length_lt : sequenceList.length < 2 ^ 64

/-- The users of the items that get a number, in their order. -/
def newUsers (sequenceList : List AllocSequence) : List Bytes :=
  (sequenceList.filter (·.status.documentNotExist)).map (·.userId)

namespace SequenceCall

variable (op : DocListMergeOperator) (table : TableID) (db : VirtualDB)
  (c : SequenceCall)

def read : CurrentSequence :=
  acquireCurrentSequence c.faults op table db 0 c.sequenceList

def perform : SequenceResult :=
  acquireNewSequence c.faults op table db c.storeBuffer c.sequenceList

/-- The users that the call stores a number for: none where it fails, and none
where it leaves its batch in a store buffer. -/
def allocated : List Bytes :=
  if (c.perform op table db).status.ok ∧ c.storeBuffer = none then
    newUsers (c.read op table db).sequenceList
  else []

end SequenceCall

/-- No item with a number has the status of one without, and no user without a
number is in the list twice. -/
structure AsksOnce (op : DocListMergeOperator) (table : TableID)
    (db : VirtualDB) (sequenceList : List AllocSequence) : Prop where
  numbered : ∀ item ∈ sequenceList,
    (storedNumber op table db item.userId).isSome →
      item.status.documentNotExist = false
  distinct : ((sequenceList.filter fun item =>
    (storedNumber op table db item.userId).isNone).map (·.userId)).Nodup

/-! ## Clients that run at the same time -/

/-- What a client has after the flush: whether it took effect, and the items. -/
structure SequenceReturn where
  ok : Bool
  sequenceList : List AllocSequence
  deriving DecidableEq

/-- The flush of a call, by what it has read: its own flush, or the flush of
the store buffer that it leaves. -/
def SequenceCall.flush (table : TableID) (db : VirtualDB)
    (current : CurrentSequence) (c : SequenceCall) :
    VirtualDB × SequenceReturn :=
  let r := writeNewSequence c.faults table db c.storeBuffer current
  let sequenceList := r.sequenceList
  if r.status.ok then
    match r.storeBuffer with
    | none => (r.db, { ok := true, sequenceList })
    | some storeBuffer =>
        let (db, status) := r.db.flushBuffer c.faults
          (WriteBuffer.new (some storeBuffer))
        (db, { ok := status.ok, sequenceList })
  else (r.db, { ok := false, sequenceList })

/-- Any number of clients that allocate on one table. -/
def allocators {ι : Type} (op : DocListMergeOperator) (table : TableID)
    (calls : ι → SequenceCall) :
    TwoPhase ι VirtualDB CurrentSequence SequenceReturn where
  read i db := (calls i).read op table db
  flush i plan db := (calls i).flush table db plan

/-- The users that a call stores a number for when nothing comes between its
steps. -/
def SequenceCall.stores (op : DocListMergeOperator) (table : TableID)
    (db : VirtualDB) (c : SequenceCall) : List Bytes :=
  let current := c.read op table db
  if (c.flush table db current).2.ok then newUsers current.sequenceList else []

/-- The same for some calls, one after the other. -/
def storedAll {ι : Type} (op : DocListMergeOperator) (table : TableID)
    (calls : ι → SequenceCall) : VirtualDB → List ι → List Bytes
  | _, [] => []
  | db, i :: rest =>
      (calls i).stores op table db ++
        storedAll op table calls ((allocators op table calls).perform i db).1
          rest

/-- The items that the flushes of the clients have given out. -/
def Gave {ι : Type}
    (w : TwoPhase.World ι VirtualDB CurrentSequence SequenceReturn) (i : ι)
    (item : AllocSequence) : Prop :=
  ∃ r, w.phase i = .done r ∧ r.ok = true ∧ item ∈ r.sequenceList

/-- The mutation is not one of the table's numbers. -/
def LeavesNumbers (table : TableID) (m : Mutation) : Prop :=
  ∀ key, encodeMetaKey table <+: key → key ≠ encodeMetaKey table →
    m.touches .metaColumn key = false

end Wwsearch.Spec
