import Wwsearch.Ref.Sorter

/-!
# The order that sort conditions ask for

Sort conditions mean what a list of columns behind `order by` means: the first
one on which two documents differ decides, and where none does the larger id
comes first.
-/

namespace Wwsearch.Spec

open Wwsearch.Lib Wwsearch.Ref

/-- The value that a condition sorts by. -/
inductive SortValue where
  | numeric (v : UInt64)
  | string (s : Bytes)
  deriving DecidableEq, Repr

/-- Numbers by size, strings by their bytes. -/
def SortValue.Larger : SortValue → SortValue → Prop
  | .numeric v, .numeric w => w < v
  | .string s, .string t => compare s t = .gt
  | .numeric _, .string _ | .string _, .numeric _ => False

/-- The value of a document, where its field has the type of the condition. -/
def sortValue (sc : SortCondition) (d : Document) : Option SortValue :=
  match sc with
  | .numeric f _ => ((d.findField f).bind numericSortValue).map .numeric
  | .string f _ => ((d.findField f).bind stringSortValue).map .string

def HasSortFields (conds : List SortCondition) (d : Document) : Prop :=
  ∀ sc ∈ conds, (sortValue sc d).isSome = true

def SameBy (sc : SortCondition) (x y : Document) : Prop :=
  sortValue sc x = sortValue sc y

/-- The condition puts `x` before `y`. -/
def WinsBy (sc : SortCondition) (x y : Document) : Prop :=
  ∃ v w, sortValue sc x = some v ∧ sortValue sc y = some w ∧
    if sc.sortType = .desc then v.Larger w else w.Larger v

/-- `x` comes before `y`: by the first condition that tells them apart, or by
its id. -/
def Precedes (conds : List SortCondition) (x y : Document) : Prop :=
  (∃ ties sc rest, conds = ties ++ sc :: rest ∧ (∀ s ∈ ties, SameBy s x y) ∧
    WinsBy sc x y) ∨
  ((∀ s ∈ conds, SameBy s x y) ∧ y.documentId < x.documentId)

/-- No descending condition ties before the documents are told apart. -/
def AscendingTies (conds : List SortCondition) (x y : Document) : Prop :=
  ∀ ties sc rest, conds = ties ++ sc :: rest → (∀ s ∈ ties, SameBy s x y) →
    SameBy sc x y → sc.sortType = .asc

end Wwsearch.Spec
