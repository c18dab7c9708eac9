import Wwsearch.Ref.Merge
import Wwsearch.Spec.Merge

/-!
# Schedules of merges

The storage engine decides when operands are combined. Between the operands
that were written to a key and the value that a read returns there can be any
number of partial merges of neighbouring operands, of results of such merges,
and so on, and any number of full merges at the bottom, each one over the
result of the one before. A `MergePlan` is a way to come by one operand, a
`ReadPlan` a way to come by the value of the key.

`run` takes a plan through the operator of the source. It answers nothing when
a merge stops the process or returns false.
-/

namespace Wwsearch.Spec

open Wwsearch.Lib Wwsearch.Ref

inductive MergePlan where
  | operand (value : Bytes)
  | partialMerge (first : MergePlan) (rest : List MergePlan)

inductive ReadPlan where
  | fullMerge (first : MergePlan) (rest : List MergePlan)
  | fullMergeOnto (below : ReadPlan) (first : MergePlan) (rest : List MergePlan)

namespace MergePlan

mutual

def run (op : DocListMergeOperator) : MergePlan → Option Bytes
  | .operand value => some value
  | .partialMerge first rest => do
      let value ← run op first
      let values ← runAll op rest
      mergeValue (op.partialMergeMulti (value :: values))

def runAll (op : DocListMergeOperator) : List MergePlan → Option (List Bytes)
  | [] => some []
  | plan :: rest => do
      let value ← run op plan
      let values ← runAll op rest
      some (value :: values)

end

mutual

/-- The operands of a plan, oldest first. -/
def operands : MergePlan → List Bytes
  | .operand value => [value]
  | .partialMerge first rest => operands first ++ operandsAll rest

def operandsAll : List MergePlan → List Bytes
  | [] => []
  | plan :: rest => operands plan ++ operandsAll rest

end

mutual

/-- Every value a merge is handed passes the length assertion of
`DecodeDocList`. -/
def Fits (op : DocListMergeOperator) : MergePlan → Prop
  | .operand value => value.length < 2 ^ 31
  | .partialMerge first rest =>
      Fits op first ∧ FitsAll op rest ∧
        ∀ value, run op (.partialMerge first rest) = some value →
          value.length < 2 ^ 31

def FitsAll (op : DocListMergeOperator) : List MergePlan → Prop
  | [] => True
  | plan :: rest => Fits op plan ∧ FitsAll op rest

end

end MergePlan

namespace ReadPlan

def run (op : DocListMergeOperator) : ReadPlan → Option Bytes
  | .fullMerge first rest => do
      let values ← MergePlan.runAll op (first :: rest)
      mergeValue (op.fullMergeV2 none values)
  | .fullMergeOnto below first rest => do
      let existing ← below.run op
      let values ← MergePlan.runAll op (first :: rest)
      mergeValue (op.fullMergeV2 (some existing) values)

def operands : ReadPlan → List Bytes
  | .fullMerge first rest => MergePlan.operandsAll (first :: rest)
  | .fullMergeOnto below first rest =>
      below.operands ++ MergePlan.operandsAll (first :: rest)

def Fits (op : DocListMergeOperator) : ReadPlan → Prop
  | .fullMerge first rest => MergePlan.FitsAll op (first :: rest)
  | .fullMergeOnto below first rest =>
      below.Fits op ∧ (∀ value, below.run op = some value →
        value.length < 2 ^ 31) ∧ MergePlan.FitsAll op (first :: rest)

end ReadPlan

/-- The ids some list deletes, whatever the later ones say. -/
def deletedSomewhere (lists : List (List DocList)) : Finset DocumentID :=
  ((lists.flatten.filter (fun e => e.docState = kDocumentStateDelete)).map
    (·.docId)).toFinset

end Wwsearch.Spec
