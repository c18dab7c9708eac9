import Wwsearch.Lib.Retry
import Wwsearch.Spec.Index

/-!
# Requests to the index writer

A client of the index writer that gets false cannot know how far the call came,
and sends the same documents in the same mode again. Each attempt is a call with
fresh updaters that meets faults of its own.
-/

namespace Wwsearch.Spec

open Wwsearch.Lib Wwsearch.Ref

structure WriteRequest where
  mode : DocumentUpdaterType
  documents : List Document
  distinct : (documents.map (·.documentId)).Nodup

namespace WriteRequest

def attempt (r : WriteRequest) (faults : Faults) : WriteCall where
  mode := r.mode
  faults
  documents := r.documents
  distinct := r.distinct

/-- The request reads what it writes over, and no field keeps its terms out of
the record. -/
def Searchable (r : WriteRequest) : Prop :=
  r.mode ≠ .addWithoutRead ∧ ∀ document ∈ r.documents,
    ∀ field ∈ document.fields, field.flag.notStoreInvertTerm = false

end WriteRequest

section Writer

variable (config : IndexConfig) (op : DocListMergeOperator) (table : TableID)

/-- The index writer on one table, as its clients see it. -/
def writerService : Service VirtualDB WriteRequest Faults where
  attempt r faults db :=
    let result := (r.attempt faults).perform config op table db
    (result.db, result.ok)

/-- The calls that are made for some requests, each with the faults of its
attempts. -/
def attemptCalls (requests : List (WriteRequest × List Faults)) :
    List WriteCall :=
  requests.flatMap fun x => x.2.map x.1.attempt

/-- The database after each request was applied once, by the first of its
attempts that returned true. -/
def runOnce (db : VirtualDB) (requests : List (WriteRequest × List Faults)) :
    VirtualDB :=
  requests.foldl (fun db x => (writerService config op table).once x.1 x.2 db) db

end Writer

end Wwsearch.Spec
