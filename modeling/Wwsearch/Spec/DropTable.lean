import Wwsearch.Spec.Operations
import Wwsearch.Spec.StoreBuffer
import Wwsearch.Spec.Tables

/-!
# What is left of a dropped table

`DropTable` clears three columns with a range each, from what it takes for the
first key of the table up to, but not including, what it takes for the last,
and the fourth with the delete of one key. `Droppable` are the tables that have
none of the keys that stay.
-/

namespace Wwsearch.Spec

open Wwsearch.Lib Wwsearch.Ref

section Reachable

variable (config : IndexConfig) (op : DocListMergeOperator)

/-- The store buffers that a client can have: an empty one, and what calls on
any databases left in it. -/
inductive Queued : StoreBuffer → Prop where
  | empty : Queued .empty
  | call {sb sb' : StoreBuffer} (db : VirtualDB) (c : BufferedCall) :
      Queued sb →
      (c.perform config op db (some sb)).storeBuffer = some sb' → Queued sb'

/-- The databases that can come to be: by operations on any tables, and by a
flush of a store buffer. -/
inductive Reachable : VirtualDB → Prop where
  | empty : Reachable .empty
  | perform {db : VirtualDB} (o : TableOperation) : Reachable db →
      Reachable (o.perform config op db)
  | flush {db : VirtualDB} {sb : StoreBuffer} : Queued config op sb →
      Reachable db → Reachable (db.applyAll (queued (some sb)))

end Reachable

/-- The columns that a table has keys in. -/
def tableColumns : List StorageColumnType :=
  [.storedFieldColumn, .invertedIndexColumn, .docValueColumn, .metaColumn]

/-- No key of the table is left. -/
def Emptied (table : TableID) (db : VirtualDB) : Prop :=
  ∀ column ∈ tableColumns, ∀ key, encodeMetaKey table <+: key →
    (db column)[key]? = none

/-- No document has the greatest id, no term of field 255 begins with 256 bytes
255, and no user has a number. -/
structure Droppable (table : TableID) (db : VirtualDB) : Prop where
  stored : (db .storedFieldColumn)[encodeStoredFieldKey table maxDocID]? = none
  docValue : (db .docValueColumn)[encodeStoredFieldKey table maxDocID]? = none
  inverted : ∀ term, DocumentWriter.maxTerm <+: term →
    (db .invertedIndexColumn)[encodeMetaKey table ++ 255 :: term]? = none
  maximum : (db .metaColumn)[encodeSequenceMetaKey table]? = none
  number : ∀ userId,
    (db .metaColumn)[encodeSequenceMappingKey table userId]? = none

end Wwsearch.Spec
