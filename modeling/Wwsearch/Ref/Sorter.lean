import Wwsearch.Ref.Document

/-!
# Sort conditions and filters (`sorter.h`, `filter.h`)

A sort condition compares two documents by one field, and `Sorter` goes through
the conditions until one of them tells the documents apart. A condition answers
`Greater` in one direction at a time, so `Sorter` asks twice, and two answers
that agree mean that the condition does not tell. It goes on when both answers
are yes. A descending condition says no twice to two equal values.

`Filter` is an interface with one method. The fields that the filters of the
library compare with are theirs; what the collector uses of a filter is the id
of the field and the answer.
-/

namespace Wwsearch.Ref

open Wwsearch.Lib

/-- `kSortConditionType`. -/
inductive SortConditionType where
  | desc
  | asc
  deriving DecidableEq, Repr

/-- `CheckFieldTypeNumeric`. -/
def IndexField.checkFieldTypeNumeric (field : IndexField) : Bool :=
  field.fieldType == kUint32IndexField || field.fieldType == kUint64IndexField

/-- `CheckFieldTypeString`. -/
def IndexField.checkFieldTypeString (field : IndexField) : Bool :=
  field.fieldType == kStringIndexField

/-! ## Sort conditions -/

/-- `InnerGreater`: a document with the field comes first, two of them by
`gt`, and two without it by their ids. -/
def innerGreater {β : Type} (value : IndexField → Option β)
    (gt : β → β → Bool) (d1 : DocumentID) (f1 : Option IndexField)
    (d2 : DocumentID) (f2 : Option IndexField) : Bool :=
  match f1.bind value, f2.bind value with
  | none, none => d2 < d1
  | none, some _ => false
  | some _, none => true
  | some v1, some v2 => gt v1 v2

def numericSortValue (field : IndexField) : Option UInt64 :=
  if field.checkFieldTypeNumeric then some field.numericValue else none

def stringSortValue (field : IndexField) : Option Bytes :=
  if field.checkFieldTypeString then some field.stringValue else none

/-- `memcmp` over the shorter length, then the sizes. -/
def stringGreater (s1 s2 : Bytes) : Bool :=
  let minLen := if s1.length < s2.length then s1.length else s2.length
  match compare (s1.take minLen) (s2.take minLen) with
  | .eq => s2.length < s1.length
  | .gt => true
  | .lt => false

/-- `NumericSortCondition` and `StringSortCondition`. -/
inductive SortCondition where
  | numeric (fieldId : FieldID) (sortType : SortConditionType)
  | string (fieldId : FieldID) (sortType : SortConditionType)
  deriving DecidableEq, Repr

namespace SortCondition

def fieldId : SortCondition → FieldID
  | numeric fieldId _ | string fieldId _ => fieldId

def sortType : SortCondition → SortConditionType
  | numeric _ sortType | string _ sortType => sortType

def innerGreater : SortCondition → DocumentID → Option IndexField →
    DocumentID → Option IndexField → Bool
  | numeric _ _ => Ref.innerGreater numericSortValue fun v1 v2 => v2 < v1
  | string _ _ => Ref.innerGreater stringSortValue stringGreater

def greater (sc : SortCondition) (d1 : DocumentID) (f1 : Option IndexField)
    (d2 : DocumentID) (f2 : Option IndexField) : Bool :=
  let ret := sc.innerGreater d1 f1 d2 f2
  if sc.sortType = .desc then ret else !ret

end SortCondition

/-- The loop of `Sorter::operator()`. -/
def sorterLoop (lhs rhs : Document) : List SortCondition → Bool
  | [] => rhs.documentId < lhs.documentId
  | sc :: rest =>
      let lhsField := lhs.findField sc.fieldId
      let rhsField := rhs.findField sc.fieldId
      let c1 := sc.greater lhs.documentId lhsField rhs.documentId rhsField
      let c2 := sc.greater rhs.documentId rhsField lhs.documentId lhsField
      if c1 && c2 then sorterLoop lhs rhs rest
      else c1

/-- `Sorter::operator()`: whether `lhs` comes first. -/
def sorter (sortCondictions : Option (List SortCondition))
    (lhs rhs : Document) : Bool :=
  match sortCondictions with
  | none => rhs.documentId < lhs.documentId
  | some sortCondictions => sorterLoop lhs rhs sortCondictions

/-! ## Filters -/

structure Filter where
  fieldId : FieldID
  matchField : Option IndexField → Bool

/-- `TopNCollector::MatchFilter`, counted in 32 bits. -/
def matchFilter (filter : Option (List Filter)) (minMatchFilterNum : UInt32)
    (document : Document) : Bool :=
  match filter with
  | none => true
  | some rules =>
      let matchCount := rules.countP fun rule =>
        rule.matchField (document.findField rule.fieldId)
      minMatchFilterNum ≤ matchCount.toUInt32

end Wwsearch.Ref
