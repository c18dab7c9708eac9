import Wwsearch.Spec.Index

/-!
# The table as a plain map

What the stored column is for: a map from ids to documents, each a list of
field records. A record has what a reader may rely on to find in a stored
field: the value only if the field is flagged Stored, the terms unless it is
flagged NotStoreInvertTerm, and the suffix length that takes effect.

A batch is accepted as a whole or changes nothing. An add wants all its ids
absent, an update wants them all present, and the other modes take what they
find.
-/

namespace Wwsearch.Spec

open Wwsearch.Lib Wwsearch.Ref

structure FieldRecord where
  fieldId : FieldID
  flag : IndexFieldFlag
  fieldType : IndexFieldType
  suffixLen : UInt32
  value : Option FieldValue
  terms : TermSet

/-- The record of a field. -/
def FieldRecord.ofField (field : IndexField) : FieldRecord where
  fieldId := field.fieldId
  flag := field.flag
  fieldType := field.fieldType
  suffixLen :=
    if field.flag.suffixBuild then
      if field.suffixLen = 0 then 5 else field.suffixLen
    else 0
  value := if field.flag.storedField then some (valueOf field) else none
  terms := if field.flag.notStoreInvertTerm then ∅ else field.terms

/-- The given records over the old ones: an old record stays if there is none
with its id yet. -/
def overlay (given : List FieldRecord) : List FieldRecord → List FieldRecord
  | [] => given
  | r :: old =>
      if given.any (·.fieldId == r.fieldId) then overlay given old
      else overlay (given ++ [r]) old

abbrev DocumentMap := DocumentID → Option (List FieldRecord)

/-- A batch for the map: the mode, and the records given for each id. -/
structure MapWrite where
  mode : DocumentUpdaterType
  batch : List (DocumentID × List FieldRecord)

namespace MapWrite

/-- Whether the mode takes an id in this state. -/
def admits {α : Type} (mode : DocumentUpdaterType) (old : Option α) : Bool :=
  match mode with
  | .add => old.isNone
  | .update => old.isSome
  | .addOrUpdate | .delete | .replace | .addWithoutRead => true

def accepted (w : MapWrite) (m : DocumentMap) : Bool :=
  w.batch.all fun p => admits w.mode (m p.1)

/-- What becomes of an id of the batch. -/
def written (mode : DocumentUpdaterType) (given : List FieldRecord)
    (old : Option (List FieldRecord)) : Option (List FieldRecord) :=
  match mode with
  | .add | .replace | .addWithoutRead => some given
  | .update | .addOrUpdate => some (overlay given (old.getD []))
  | .delete => none

def apply (w : MapWrite) (m : DocumentMap) : DocumentMap := fun d =>
  match w.batch.find? fun p => p.1 == d with
  | none => m d
  | some p => written w.mode p.2 (m d)

/-- A batch that is not accepted changes nothing. -/
def step (m : DocumentMap) (w : MapWrite) : DocumentMap :=
  if w.accepted m then w.apply m else m

/-- The map after a run of batches, from an empty one. -/
def run (ws : List MapWrite) : DocumentMap := ws.foldl step fun _ => none

end MapWrite

/-- The records found under an id in an overlay are the given ones, and the
first old one where none is given. -/
theorem find?_overlay (f : FieldID) (old : List FieldRecord) :
    ∀ given, (overlay given old).find? (·.fieldId == f) =
      (given.find? (·.fieldId == f)).or (old.find? (·.fieldId == f)) := by
  induction old with
  | nil => intro given; rw [overlay, List.find?_nil, Option.or_none]
  | cons r old ih =>
      intro given
      rw [overlay]
      split
      · next hany =>
          obtain ⟨g, hg, hid⟩ := List.any_eq_true.1 hany
          rw [ih, List.find?_cons]
          split
          · next hr =>
              have hsome : (given.find? (·.fieldId == f)).isSome = true := by
                rw [List.find?_isSome]
                rw [beq_iff_eq] at hid hr
                exact ⟨g, hg, beq_iff_eq.2 (hid.trans hr)⟩
              obtain ⟨x, hx⟩ := Option.isSome_iff_exists.1 hsome
              rw [hx, Option.some_or, Option.some_or]
          · rfl
      · rw [ih, List.find?_append, List.find?_cons, List.find?_cons,
          List.find?_nil, Option.or_assoc]
        split
        · rfl
        · rfl

/-- The map that the stored column decodes to. -/
def documentMap (config : IndexConfig) (op : DocListMergeOperator)
    (table : TableID) (db : VirtualDB) : DocumentMap := fun d =>
  (storedDocument config op table db d).map fun doc =>
    doc.fields.map FieldRecord.ofField

/-- A call as a write to the map: its fields with the terms that the tokenizer
gives them. -/
def WriteCall.mapWrite (config : IndexConfig) (c : WriteCall) : MapWrite where
  mode := c.mode
  batch := c.documents.map fun document => (document.documentId,
    (config.tokenizer.do' document).1.fields.map FieldRecord.ofField)

end Wwsearch.Spec
