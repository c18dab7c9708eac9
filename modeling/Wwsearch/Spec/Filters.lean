import Wwsearch.Ref.Filter
import Wwsearch.Spec.Search
import Wwsearch.Spec.TopN

/-!
# Filters on the plain map

A filter is a property of a value, and a document passes as many filters as
there are values in it that have the property. A value is one that the table
keeps for its readers, so it is there only if the field is flagged DocValue.

A record has the value of a field if the field is flagged Stored. Where both
flags go together the doc values of a document can be read off the map.
-/

namespace Wwsearch.Spec

open Wwsearch.Lib Wwsearch.Ref

/-- Both are numbers, or both are strings. -/
def FieldValue.SameKind : FieldValue → FieldValue → Prop
  | .numeric _, .numeric _ | .string _, .string _ => True
  | _, _ => False

/-- The property of a value that a filter is for. -/
def Accepts : FilterRule → FieldValue → Prop
  | .equalFilter own, v => valueOf own = v ∧ v ≠ .unknown
  | .notEqualFilter own, v => (valueOf own).SameKind v ∧ valueOf own ≠ v
  | .rangeFilter _ first last, v => ∃ n, v = .numeric n ∧ first ≤ n ∧ n ≤ last
  | .inFilter own, v => ∃ s t, v = .string s ∧ valueOf own = .string t ∧
      t <:+: s
  | .notInFilter own, v => ∃ s t, v = .string s ∧ valueOf own = .string t ∧
      ¬ t <:+: s
  | .inNumericListFilter own, v => ∃ n k, v = .numeric n ∧
      valueOf own = .numeric k ∧ n ∈ own.numericList
  | .notInNumericListFilter own, v => ∃ n k, v = .numeric n ∧
      valueOf own = .numeric k ∧ n ∉ own.numericList
  | .matchStringListFilter _ values revert num, v => ∃ s, v = .string s ∧
      (revert = false ↔ min num.toNat values.length ≤
        values.countP fun t => decide (t <:+: s))

/-- No list of strings is longer than 32 bits count. -/
def ListsFit : FilterRule → Prop
  | .matchStringListFilter _ values _ _ => values.length < 2 ^ 32
  | _ => True

/-! ## Doc values of the map -/

/-- Every field with the flag DocValue has the flag Stored. -/
def KeepsValues (c : WriteCall) : Prop :=
  ∀ document ∈ c.documents, ∀ field ∈ document.fields,
    field.flag.docValue = true → field.flag.storedField = true

/-- A record as a field that was read: no terms, and a value if there is one. -/
def FieldRecord.field (r : FieldRecord) : IndexField where
  fieldId := r.fieldId
  flag := r.flag
  fieldType := r.fieldType
  stringValue :=
    match r.value with
    | some (.string s) => s
    | _ => []
  numericValue :=
    match r.value with
    | some (.numeric n) => n
    | _ => 0
  suffixLen := r.suffixLen

namespace DocumentMap

variable (m : DocumentMap) (d : DocumentID)

/-- What the map has of a document for sort conditions and filters. -/
def docValues : Document where
  documentId := d
  fields := (((m d).getD []).filter (·.flag.docValue)).map FieldRecord.field

/-- The value of a field: the first record with the id and the flag has it. -/
def value (f : FieldID) : Option FieldValue :=
  (((m d).getD []).find? fun r => r.flag.docValue && r.fieldId == f).bind
    (·.value)

/-- The document has a value that the filter is for. -/
def Satisfies (rule : FilterRule) : Prop :=
  ∃ v, m.value d rule.ownField.fieldId = some v ∧ Accepts rule v

open Classical in
/-- The document passes as many filters as it has to. -/
def Passes (rules : List FilterRule) (minMatchFilterNum : UInt32) : Prop :=
  neededFilters rules minMatchFilterNum ≤
    rules.countP fun rule => decide (m.Satisfies d rule)

end DocumentMap

end Wwsearch.Spec
