import Mathlib.Data.List.Infix
import Mathlib.Data.Nat.Cast.Defs
import Wwsearch.Ref.Collector

/-!
# The score strategy for strings (`post_scorer.cpp`)

A `StringScoreStrategy` is for one field. It gives a hit that was found in this
field points for its text, if the pattern is in it, and for how few terms the
field has. The field is looked up by the id that the hit came with, and what
the lookup answers is used without a look at it.

`score` has no answer where it follows the null pointer of a missing field.
`scoreOr` is the same with an answer there, whatever it may be.
-/

namespace Wwsearch.Ref

open Wwsearch.Lib

structure StringScoreStrategy where
  pattern : Bytes
  termsSize : UInt64
  targetFieldId : FieldID
  deriving DecidableEq, Repr

namespace StringScoreStrategy

def weight : Nat := 10

variable {σ : Type} [Zero σ] [Add σ] [Mul σ] [Div σ] [NatCast σ]
  (s : StringScoreStrategy)

/-- `Score` from the field on. -/
def scoreField (field : IndexField) : σ :=
  if field.fieldType ≠ kStringIndexField then 0
  else
    let score : σ :=
      if s.pattern <:+: field.stringValue then 0 + (weight : σ) else 0
    if 0 < field.terms.size then
      let termsScore : σ := (s.termsSize.toNat : σ) / (field.terms.size : σ)
      score + (weight : σ) * termsScore
    else score

/-- `Score`. -/
def score : ScoreStrategy σ := fun document matchFieldId =>
  if s.targetFieldId ≠ UInt8.ofInt matchFieldId then some 0
  else (document.findField (UInt8.ofInt matchFieldId)).map s.scoreField

/-- `Score`, if following the null pointer of a missing field answered
something. -/
def scoreOr (null : Document → Int → σ) : ScoreStrategy σ :=
  fun document matchFieldId =>
    some ((s.score document matchFieldId).getD (null document matchFieldId))

end StringScoreStrategy

end Wwsearch.Ref
