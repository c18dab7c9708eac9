import Wwsearch.Ref.Storage

/-!
# What the keys promise

Everything that is found by a key relies on four things: no two things have one
key, the keys of a table are those that begin with it, the keys come in the
order of what they are made of, and what was put into a key can be taken out
again. `FaithfulKeys` has them for all encoders; terms are shorter than `2 ^ 32`,
since a longer one is cut.
-/

namespace Wwsearch.Spec

open Wwsearch.Lib Wwsearch.Ref

/-- A key of the store, and what it is made of. -/
inductive StoreKey where
  | storedField (table : TableID) (documentId : DocumentID)
  | inverted (table : TableID) (fieldId : FieldID) (term : Bytes)
  | tableMeta (table : TableID)
  | sequenceMeta (table : TableID)
  | sequenceMapping (table : TableID) (userId : Bytes)
  deriving DecidableEq, Repr

namespace StoreKey

def table : StoreKey → TableID
  | storedField table _ | inverted table _ _ | tableMeta table
  | sequenceMeta table | sequenceMapping table _ => table

def encode : StoreKey → Bytes
  | storedField table documentId => encodeStoredFieldKey table documentId
  | inverted table fieldId term => encodeInvertedKey table fieldId term
  | tableMeta table => encodeMetaKey table
  | sequenceMeta table => encodeSequenceMetaKey table
  | sequenceMapping table userId => encodeSequenceMappingKey table userId

/-- The columns that a key can be in: documents have the same keys in two of
them. -/
inductive Kind where
  | document
  | inverted
  | metaColumn
  deriving DecidableEq, Repr

def kind : StoreKey → Kind
  | storedField _ _ => .document
  | inverted _ _ _ => .inverted
  | tableMeta _ | sequenceMeta _ | sequenceMapping _ _ => .metaColumn

/-- No term in the key is cut. -/
def Fits : StoreKey → Prop
  | inverted _ _ term => term.length < 2 ^ 32
  | storedField _ _ | tableMeta _ | sequenceMeta _ | sequenceMapping _ _ => True

end StoreKey

/-- By the business type, then by the partition set. -/
def compareTable (t u : TableID) : Ordering :=
  (compare t.businessType u.businessType).then
    (compare t.partitionSet u.partitionSet)

structure FaithfulKeys : Prop where
  injective : ∀ k k' : StoreKey, k.Fits → k'.Fits → k.kind = k'.kind →
    k.encode = k'.encode → k = k'
  table_iff : ∀ (t : TableID) (k : StoreKey),
    encodeMetaKey t <+: k.encode ↔ k.table = t
  decode : ∀ (t : TableID) (f : FieldID) (term : Bytes),
    term.length < 2 ^ 32 → decodeInvertedKey (encodeInvertedKey t f term) =
      some (t.businessType, t.partitionSet, f, term)
  compare_storedField : ∀ (t u : TableID) (d e : DocumentID),
    compare (encodeStoredFieldKey t d) (encodeStoredFieldKey u e) =
      (compareTable t u).then (compare d e)
  compare_inverted : ∀ (t u : TableID) (f g : FieldID) (term term' : Bytes),
    term.length < 2 ^ 32 → term'.length < 2 ^ 32 →
    compare (encodeInvertedKey t f term) (encodeInvertedKey u g term') =
      ((compareTable t u).then (compare f g)).then (compare term term')

end Wwsearch.Spec

namespace Wwsearch.Ref

open Wwsearch.Lib

/-- Whether the mutation acts on this key. -/
def Mutation.touches (c : StorageColumnType) (key : Bytes) (m : Mutation) : Bool :=
  m.column = c &&
    match m with
    | .put _ k _ | .delete _ k | .merge _ k _ => k = key
    | .deleteRange _ beginKey endKey =>
        compare beginKey key != .gt && compare key endKey == .lt

end Wwsearch.Ref
