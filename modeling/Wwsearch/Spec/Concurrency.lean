import Wwsearch.Lib.TwoPhase
import Wwsearch.Spec.Index

/-!
# Writers that run at the same time

`InnerWriteDocuments` reads the records of its batch with two `MultiGet`s and
later flushes one write batch; it holds nothing in between, and the flush
compares nothing. `writers` are the calls of any number of clients in these
two steps.
-/

namespace Wwsearch.Spec

open Wwsearch.Lib Wwsearch.Ref

/-- A call of the index writer with whatever updaters its client has. -/
structure BatchCall where
  mode : DocumentUpdaterType
  faults : Faults := {}
  storeBuffer : Option StoreBuffer := none
  updaters : List DocumentUpdater

namespace BatchCall

variable (config : IndexConfig) (op : DocListMergeOperator) (table : TableID)

def perform (db : VirtualDB) (c : BatchCall) : IndexWriter.CallResult :=
  IndexWriter.innerWriteDocuments config c.faults op table db c.storeBuffer
    c.mode c.updaters

/-- A document of the batch has this id. -/
def Writes (c : BatchCall) (d : DocumentID) : Prop :=
  d ∈ c.updaters.map (·.newDocument.documentId)

/-- The database after a serial run of batches. -/
def runAll (db : VirtualDB) (calls : List BatchCall) : VirtualDB :=
  calls.foldl (fun db c => (c.perform config op table db).db) db

end BatchCall

/-- The batch of fresh updaters. -/
def WriteCall.batch (c : WriteCall) : BatchCall where
  mode := c.mode
  faults := c.faults
  storeBuffer := c.storeBuffer
  updaters := c.updaters

/-- A document of the call has this id. -/
def WriteCall.Writes (c : WriteCall) (d : DocumentID) : Prop :=
  d ∈ c.documents.map (·.documentId)

/-- No document of one batch is one of the other. -/
def Apart (c c' : BatchCall) : Prop := ∀ d, c.Writes d → ¬ c'.Writes d

/-! ## The two steps -/

/-- What a call gives back to its client. -/
structure Returned where
  ok : Bool
  documents : List DocumentUpdater
  storeBuffer : Option StoreBuffer

def returned (r : IndexWriter.CallResult) : Returned :=
  { ok := r.ok, documents := r.documents, storeBuffer := r.storeBuffer }

/-- The batch between its two steps, as `readDocuments` leaves it. -/
abbrev BatchPlan := List DocumentUpdater × Bool

def BatchCall.read (config : IndexConfig) (op : DocListMergeOperator)
    (table : TableID) (db : VirtualDB) (c : BatchCall) : BatchPlan :=
  IndexWriter.readDocuments config c.faults op table db c.mode c.updaters

def BatchCall.flush (config : IndexConfig) (table : TableID) (db : VirtualDB)
    (plan : BatchPlan) (c : BatchCall) : IndexWriter.CallResult :=
  IndexWriter.writeDocuments config c.faults table db c.storeBuffer plan.1
    plan.2

def writers {ι : Type} (config : IndexConfig) (op : DocListMergeOperator)
    (table : TableID) (calls : ι → BatchCall) :
    TwoPhase ι VirtualDB BatchPlan Returned where
  read i db := (calls i).read config op table db
  flush i plan db :=
    let r := (calls i).flush config table db plan
    (r.db, returned r)

/-- Clients with fresh updaters. -/
def freshWriters {ι : Type} (config : IndexConfig) (op : DocListMergeOperator)
    (table : TableID) (calls : ι → WriteCall) :
    TwoPhase ι VirtualDB BatchPlan Returned :=
  writers config op table fun i => (calls i).batch

/-- The call has taken effect and returned true. -/
def succeeded {ι : Type}
    (w : TwoPhase.World ι VirtualDB BatchPlan Returned) (i : ι) : Bool :=
  match w.phase i with
  | .done r => r.ok
  | .idle | .pending _ => false

end Wwsearch.Spec
