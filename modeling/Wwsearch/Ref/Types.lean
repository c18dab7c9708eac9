import Wwsearch.Lib.Bytes

/-!
# Identifiers, columns and statuses

The small types of `storage_type.h`, `doc_iterator.cpp` and `search_status.h`.
A status is a code and a message, exactly as `SearchStatus` carries them, and
the codes keep their numbers: two of the comparisons in the writer are between
codes, and one of those is a comparison that never holds.
-/

namespace Wwsearch.Ref

open Wwsearch.Lib

abbrev DocumentID := UInt64

abbrev FieldID := UInt8

structure TableID where
  businessType : UInt8
  partitionSet : UInt64
  deriving DecidableEq, Repr

/-- `DocIdSetIterator::NO_MORE_DOCS`; a document id is never zero. -/
def noMoreDocs : DocumentID := 0

/-- `DocIdSetIterator::MAX_DOCID`. -/
def maxDocID : DocumentID := 0xFFFFFFFFFFFFFFFF

/-- The column families, in the order of `StorageColumnType`. -/
inductive StorageColumnType where
  | storedFieldColumn
  | invertedIndexColumn
  | docValueColumn
  | metaColumn
  | dictionaryColumn
  | paxosLogColumn
  | paxosDataMetaColumn
  | paxosLogMetaColumn
  deriving DecidableEq, Repr

/-- The column family number RocksDB writes in front of a key. -/
def StorageColumnType.toNat : StorageColumnType → Nat
  | .storedFieldColumn => 0
  | .invertedIndexColumn => 1
  | .docValueColumn => 2
  | .metaColumn => 3
  | .dictionaryColumn => 4
  | .paxosLogColumn => 5
  | .paxosDataMetaColumn => 6
  | .paxosLogMetaColumn => 7

/-! ## Status codes -/

def kOK : Int := 0
def kDocumentExistStatus : Int := 18526
def kDocumentNotExistStatus : Int := 18527
def kSerializeErrorStatus : Int := -18528
def kRocksDBErrorStatus : Int := -18529
def kDocumentIDCanNotZero : Int := 18530
def kDataErrorStatus : Int := -18531
def kTokenizerErrorStatus : Int := -18532
def kOtherDocumentErrorStatus : Int := 18533
def kScorerErrorStatus : Int := -18536
def kDocumentTooLargeStatus : Int := 18537
def kReachMaxDocListSizeLimit : Int := 18538

structure SearchStatus where
  code : Int := kOK
  msg : String := ""
  deriving DecidableEq, Repr, Inhabited

namespace SearchStatus

def ok (s : SearchStatus) : Bool := s.code == 0

def documentExist (s : SearchStatus) : Bool := s.code == kDocumentExistStatus

def documentNotExist (s : SearchStatus) : Bool :=
  s.code == kDocumentNotExistStatus

end SearchStatus

end Wwsearch.Ref
