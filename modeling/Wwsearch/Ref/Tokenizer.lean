import Wwsearch.Ref.Coding
import Wwsearch.Ref.Document

/-!
# Tokenizers (`tokenizer.h`, `tokenizer_impl.cpp`)

A tokenizer fills in the terms of a document's fields, one field after the
other, and gives up at the first field it fails on; the fields before that one
keep their terms. `Tokenizer.fieldTerms` is what is left in `Terms()` of one
field. The dictionary of a tokenizer may depend on the document, as it does in
`TokenizerMMSEG`, and is not modelled; `tokenizerSpaceImpl` is the tokenizer
that needs none.
-/

namespace Wwsearch.Ref

open Wwsearch.Lib

structure Tokenizer where
  fieldTerms : DocumentID → IndexField → Option TermSet

/-- The loop of `Do` and what it returns. -/
def Tokenizer.doFields (tokenizer : Tokenizer) (documentId : DocumentID) :
    List IndexField → List IndexField × Bool
  | [] => ([], true)
  | field :: rest =>
      match tokenizer.fieldTerms documentId field with
      | none => (field :: rest, false)
      | some terms =>
          let (rest, ret) := tokenizer.doFields documentId rest
          ({ field with terms } :: rest, ret)

def Tokenizer.do' (tokenizer : Tokenizer) (document : Document) :
    Document × Bool :=
  let (fields, ret) := tokenizer.doFields document.documentId document.fields
  ({ document with fields }, ret)

namespace TokenizerSpaceImpl

/-- `IsSkipChar`: a space, a tab or a carriage return. -/
def isSkipChar (c : UInt8) : Bool := c == 32 || c == 9 || c == 13

/-- `BuildTerms`: the runs of other characters. The fuel is the number of
bytes left. -/
def buildTerms : Nat → Bytes → TermSet → TermSet
  | 0, _, terms => terms
  | fuel + 1, buffer, terms =>
      match buffer.dropWhile isSkipChar with
      | [] => terms
      | c :: rest =>
          buildTerms fuel ((c :: rest).dropWhile (!isSkipChar ·))
            (terms.insert ((c :: rest).takeWhile (!isSkipChar ·)))

/-- The term of a field that is not split. A 32-bit value is cut to its
width. -/
def wholeTerm (field : IndexField) : Bytes :=
  if field.fieldType = kStringIndexField then field.stringValue
  else if field.fieldType = kUint32IndexField then
    appendFixed32 [] field.numericValue.toUInt32
  else if field.fieldType = kUint64IndexField then
    appendFixed64 [] field.numericValue
  else []

end TokenizerSpaceImpl

/-- `TokenizerSpaceImpl::Do` on one field. -/
def tokenizerSpaceImpl : Tokenizer where
  fieldTerms _ field :=
    if field.flag.invertIndex then
      if field.fieldType = kStringIndexField ∧ field.flag.tokenize then
        some (TokenizerSpaceImpl.buildTerms field.stringValue.length
          field.stringValue field.terms)
      else
        let term := TokenizerSpaceImpl.wholeTerm field
        some (if term ≠ [] then field.terms.insert term else field.terms)
    else some field.terms

end Wwsearch.Ref
