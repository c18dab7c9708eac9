import Mathlib.Data.List.Infix
import Wwsearch.Ref.Sorter

/-!
# The filters of the library (`filter.h`)

A filter has a field of its own, which says what field of a document is looked
at and what it is compared with. A document without the field, or with one of
another type, does not match, and so it matches neither a filter nor the one
that says the opposite.

The assertion that both fields have one id holds: the collector looks the field
up by that id.
-/

namespace Wwsearch.Ref

open Wwsearch.Lib

/-- `EqualFilter`, `NotEqualFilter` and their siblings; `field` is `field_`. -/
inductive FilterRule where
  | equalFilter (field : IndexField)
  | notEqualFilter (field : IndexField)
  | rangeFilter (field : IndexField) (first last : UInt64)
  | inFilter (field : IndexField)
  | notInFilter (field : IndexField)
  | inNumericListFilter (field : IndexField)
  | notInNumericListFilter (field : IndexField)
  | matchStringListFilter (field : IndexField) (stringValueList : List Bytes)
      (revert : Bool) (minShouldMatchFilterValuesNum : UInt32)

namespace FilterRule

/-- `field_`. -/
def ownField : FilterRule → IndexField
  | equalFilter field | notEqualFilter field | rangeFilter field _ _
  | inFilter field | notInFilter field | inNumericListFilter field
  | notInNumericListFilter field | matchStringListFilter field _ _ _ => field

/-- The comparison of `EqualFilter` and of `NotEqualFilter`, with what each of
them compares by. -/
def compareValues (own field : IndexField)
    (numeric : UInt64 → UInt64 → Bool) (string : Bytes → Bytes → Bool) : Bool :=
  if field.checkFieldTypeNumeric && own.checkFieldTypeNumeric then
    numeric own.numericValue field.numericValue
  else if field.checkFieldTypeString && own.checkFieldTypeString then
    string own.stringValue field.stringValue
  else false

/-- The search of `InFilter` and of `NotInFilter`; `find` is `std::string`'s. -/
def findValue (own field : IndexField) (found : Bool → Bool) : Bool :=
  if own.checkFieldTypeString && field.checkFieldTypeString then
    found (decide (own.stringValue <:+: field.stringValue))
  else false

/-- The search of `InNumericListFilter` and of `NotInNumericListFilter`. -/
def findNumeric (own field : IndexField) (found : Bool → Bool) : Bool :=
  if !field.checkFieldTypeNumeric || !own.checkFieldTypeNumeric then false
  else found (own.numericList.contains field.numericValue)

/-- The least number of strings to be found: the constructor of
`MatchStringListFilter` takes no more than there are. -/
def minShouldMatch (stringValueList : List Bytes) (num : UInt32) : UInt32 :=
  if stringValueList.length < num.toNat then stringValueList.length.toUInt32
  else num

/-- `InnerMatch`, counted in 32 bits. -/
def innerMatch (stringValueList : List Bytes) (num : UInt32)
    (field : IndexField) : Bool :=
  let matchCount := stringValueList.countP fun value =>
    decide (value <:+: field.stringValue)
  minShouldMatch stringValueList num ≤ matchCount.toUInt32

/-- `Match` of a field that there is. -/
def matchValue (field : IndexField) : FilterRule → Bool
  | equalFilter own => compareValues own field (· == ·) (· == ·)
  | notEqualFilter own => compareValues own field (· != ·) (· != ·)
  | rangeFilter _ first last =>
      if !field.checkFieldTypeNumeric then false
      else decide (first ≤ field.numericValue) &&
        decide (field.numericValue ≤ last)
  | inFilter own => findValue own field id
  | notInFilter own => findValue own field (!·)
  | inNumericListFilter own => findNumeric own field id
  | notInNumericListFilter own => findNumeric own field (!·)
  | matchStringListFilter _ stringValueList revert num =>
      if !field.checkFieldTypeString then false
      else
        let found := innerMatch stringValueList num field
        if revert then !found else found

/-- The filter as the collector has it. -/
def filter (rule : FilterRule) : Filter where
  fieldId := rule.ownField.fieldId
  matchField
    | none => false
    | some field => rule.matchValue field

end FilterRule

end Wwsearch.Ref
