import Wwsearch.Lib.Words
import Wwsearch.Spec.DocumentMap
import Wwsearch.Spec.Operations
import Wwsearch.Spec.Paging

/-!
# What a search is for

A query tree is a formula over terms, and what has some terms satisfies it or
does not. A search finds the documents whose stored record satisfies the tree,
and answers with a page of them: of the ones the filters let through, in the
order of the sorter, from the offset on.

The same is said of the plain map of `DocumentMap`, where a record has all that
its terms depend on.

A text is indexed under its words, and whoever looks for a text looks for the
documents that have all of its words. A field serves for that if its text is
split, indexed and stored, and if nobody gave it terms of its own.
-/

namespace Wwsearch.Spec

open Wwsearch.Lib Wwsearch.Ref

/-- The tree as a formula; `has` are the terms that there are. An `And`
without parts holds of nothing. -/
def Holds (has : FieldID → Bytes → Prop) : Query → Prop
  | .booleanQuery f value => has f value.toTerm
  | .prefixQuery f start _ => ∃ t, start <+: t ∧ has f t
  | .andQuery sub => sub ≠ [] ∧ ∀ q ∈ sub, Holds has q
  | .orQuery sub => ∃ q, ∃ _ : q ∈ sub, Holds has q

/-- No term and no prefix in the tree is too long for a key. -/
def TermsFit : Query → Prop
  | .booleanQuery _ value => value.toTerm.length < 2 ^ 32
  | .prefixQuery _ start _ => start.length < 2 ^ 32
  | .andQuery sub | .orQuery sub => ∀ q ∈ sub, TermsFit q

section Sought

variable (config : IndexConfig) (op : DocListMergeOperator) (table : TableID)
  (db : VirtualDB)

/-- The stored record of the id has the term. -/
def StoredTerm (d : DocumentID) (f : FieldID) (t : Bytes) : Prop :=
  ∃ doc, storedDocument config op table db d = some doc ∧
    Indexed config doc.fields f t

/-- The ids that a search is after. -/
def Sought (q : Query) : Set DocumentID :=
  { d | ∃ doc, storedDocument config op table db d = some doc ∧
    Holds (Indexed config doc.fields) q }

/-- No term is in more documents than a list may hold. -/
def WithinCap : Prop :=
  ∀ (f : FieldID) (t : Bytes) (ids : List DocumentID), ids.Nodup →
    (∀ d ∈ ids, StoredTerm config op table db d f t) →
    ids.length ≤ op.maxDocListNum.toNat

end Sought

/-- Every call reads what it writes over, and no field keeps its terms out of
the record. -/
def Searchable (calls : List WriteCall) : Prop :=
  ReadFirst calls ∧ ∀ c ∈ calls, ∀ document ∈ c.documents,
    ∀ field ∈ document.fields, field.flag.notStoreInvertTerm = false

/-- What the run writes to the table is searchable; what it does to other
tables may be anything. -/
def SearchableRun (table : TableID) (run : List TableOperation) : Prop :=
  ∃ calls : List WriteCall, Searchable calls ∧
    run.filter (fun o => o.table = table) =
      calls.map fun c => ⟨table, .writeDocuments c.batch⟩

/-! ## Pages -/

section Pages

variable {σ : Type} [LT σ] [DecidableLT σ] [Zero σ] [Add σ]

/-- The documents of a page stand in one order of all that match, where `ids`
are the ids that were found, and the total grows by the number of those. -/
structure PageOf (context : SearchContext) (a : Searcher.QueryArgs σ)
    (offset limit : UInt64) (ids : List DocumentID)
    (r : Searcher.QueryResult) : Prop where
  ranking : ∃ s : List DocumentID, s.Perm (matching context a ids) ∧
    Sorted (sortsBefore context a) s ∧
    r.docs = (s.drop offset.toNat).take limit.toNat
  total : r.getMatchTotalCnt = a.getMatchTotalCnt.map
    (· + (matching context a ids).length.toUInt32)

/-- What holds of every page, also where a prefix leaf reached its limit or a
list its cap. -/
structure SoundPage (context : SearchContext) (a : Searcher.QueryArgs σ)
    (limit : UInt64) (sought : Set DocumentID) (docs : List DocumentID) :
    Prop where
  nodup : docs.Nodup
  length_le : docs.length ≤ limit.toNat
  sought : ∀ d ∈ docs, d ∈ sought
  filtered : ∀ d ∈ docs, matchFilter a.filter
    (pageParams context a 0 0).minMatchFilterNum (docValues context d) = true

end Pages

/-! ## Searching the plain map -/

/-- The terms that the record of a field is indexed under. -/
def FieldRecord.expandedTerms (config : IndexConfig) (r : FieldRecord) :
    List Bytes :=
  DocumentWriter.expandedTerms config
    { flag := r.flag, fieldType := r.fieldType, terms := r.terms
      suffixLen := r.suffixLen }

/-- Some record with the id is indexed under the term. -/
def RecordTerm (config : IndexConfig) (records : List FieldRecord)
    (f : FieldID) (t : Bytes) : Prop :=
  ∃ r ∈ records, r.fieldId = f ∧ t ∈ r.expandedTerms config

/-- The ids under which the map has what satisfies the tree. -/
def DocumentMap.matches (config : IndexConfig) (m : DocumentMap) (q : Query) :
    Set DocumentID :=
  { d | ∃ records, m d = some records ∧ Holds (RecordTerm config records) q }

/-! ## Texts -/

/-- A field whose text is kept, and is indexed under its words. -/
structure TextField (field : IndexField) : Prop where
  string : field.fieldType = kStringIndexField
  tokenize : field.flag.tokenize = true
  invertIndex : field.flag.invertIndex = true
  storedField : field.flag.storedField = true
  wholeTerms : field.flag.suffixBuild = false
  fresh : field.terms = ∅

/-- What a call gives for the field are texts. -/
def GivesTexts (f : FieldID) (c : WriteCall) : Prop :=
  ∀ document ∈ c.documents, ∀ field ∈ document.fields, field.fieldId = f →
    TextField field

/-- A word of a text, between separators. -/
abbrev TextWord (text w : Bytes) : Prop :=
  IsWord TokenizerSpaceImpl.isSkipChar text w

/-- The document has a text in the field, with the word. -/
def DocumentMap.HasWord (m : DocumentMap) (d : DocumentID) (f : FieldID)
    (w : Bytes) : Prop :=
  ∃ records, m d = some records ∧ ∃ r ∈ records, r.fieldId = f ∧
    ∃ s, r.value = some (.string s) ∧ TextWord s w

/-- All words of a text, as the tokenizer builds them. -/
def textQuery (f : FieldID) (text : Bytes) : Query :=
  .andQuery ((TokenizerSpaceImpl.buildTerms text.length text ∅).toList.map
    fun w => .booleanQuery f (.term w))

end Wwsearch.Spec
