import Wwsearch.Ref.IndexWriter

/-!
# A caller and its updaters

The writer gets pointers, so an updater outlives the call it was passed to,
and a caller may pass it again. A session is the database and the updaters of
one caller, each under a handle; a step either builds an updater anew, however
the caller likes, or makes a call with some of them. `Session.calls` are the
calls of a run, each with the session it starts in.
-/

namespace Wwsearch.Spec

open Wwsearch.Ref

abbrev Handle := Nat

structure Session where
  db : VirtualDB
  updaters : Handle → DocumentUpdater

/-- A call with the caller's own updaters; a batch does not hold one of them
twice. -/
structure SessionCall where
  mode : DocumentUpdaterType
  faults : Faults := {}
  storeBuffer : Option StoreBuffer := none
  handles : List Handle
  nodup : handles.Nodup

inductive SessionStep where
  | build (handle : Handle) (du : DocumentUpdater)
  | call (c : SessionCall)

namespace Session

variable (config : IndexConfig) (op : DocListMergeOperator) (table : TableID)

def batch (s : Session) (c : SessionCall) : List DocumentUpdater :=
  c.handles.map s.updaters

def outcome (s : Session) (c : SessionCall) : IndexWriter.CallResult :=
  IndexWriter.innerWriteDocuments config c.faults op table s.db c.storeBuffer
    c.mode (s.batch c)

/-- The mutations that the call has put into its write buffer, behind what the
store buffer held: what it flushes, or appends to the store buffer. -/
def written (s : Session) (c : SessionCall) : List Mutation :=
  let buffer := WriteBuffer.new c.storeBuffer
  let documents := (IndexWriter.readDocuments config c.faults op table s.db
    c.mode (s.batch c)).1
  (DocumentWriter.buildBatch config c.faults table documents
    buffer).2.1.mutations.drop buffer.mutations.length

def step (s : Session) : SessionStep → Session
  | .build handle du =>
      { s with updaters := Function.update s.updaters handle du }
  | .call c =>
      let r := s.outcome config op table c
      { db := r.db
        updaters := fun handle =>
          (r.documents[c.handles.idxOf handle]?).getD (s.updaters handle) }

/-- The calls of a run, each with the session before it. -/
def calls (s : Session) : List SessionStep → List (Session × SessionCall)
  | [] => []
  | .build handle du :: rest =>
      (s.step config op table (.build handle du)).calls rest
  | .call c :: rest => (s, c) :: (s.step config op table (.call c)).calls rest

end Session

/-- The call has written the stored record of the updater's document, as the
call leaves that document. -/
def Session.Puts (config : IndexConfig) (op : DocListMergeOperator)
    (table : TableID) (s : Session) (c : SessionCall) (handle : Handle) :
    Prop :=
  let du := (s.step config op table (.call c)).updaters handle
  ∃ value flag,
    du.newDocument.serializeToBytes config.pb .storedField =
      some (value, flag) ∧
    Mutation.put .storedFieldColumn (encodeStoredFieldKey table
      (s.updaters handle).newDocument.documentId) value ∈
        s.written config op table c

end Wwsearch.Spec
