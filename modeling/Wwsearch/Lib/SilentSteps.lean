import Mathlib.Data.List.Infix

/-!
# Steps that no one asked for

A machine takes inputs, and in between its state changes by itself. To say that
this makes no difference is to relate its states to those of the machine that is
left alone: an input keeps the relation, and a silent step is no step on the
other side (`Disregards`). A whole run follows (`Disregards.run`).

Both may need that the state of the machine that is left alone fits into some
bound, and then it has to fit at every moment of its run.
-/

namespace Wwsearch.Lib

universe u₁ u₂

section SilentSteps

variable {σ : Type u₁} {ι : Type u₂}

/-- The states that some inputs can lead to, with any silent steps in
between. -/
inductive Interleaved (step : σ → ι → σ) (silent : σ → σ → Prop) (s₀ : σ) :
    List ι → σ → Prop
  | start : Interleaved step silent s₀ [] s₀
  | input {inputs : List ι} {s : σ}
      (h : Interleaved step silent s₀ inputs s) (a : ι) :
      Interleaved step silent s₀ (inputs ++ [a]) (step s a)
  | silent {inputs : List ι} {s s' : σ}
      (h : Interleaved step silent s₀ inputs s) (hs : silent s s') :
      Interleaved step silent s₀ inputs s'

/-- What holds of the state that is left alone, at every moment of its run. -/
def Throughout (step : σ → ι → σ) (P : σ → Prop) (s₀ : σ) (inputs : List ι) :
    Prop :=
  ∀ before, before <+: inputs → P (before.foldl step s₀)

theorem Throughout.start {step : σ → ι → σ} {P : σ → Prop} {s₀ : σ}
    {inputs before : List ι} (h : Throughout step P s₀ inputs)
    (hbefore : before <+: inputs) : Throughout step P s₀ before :=
  fun start hstart => h start (hstart.trans hbefore)

theorem Throughout.last {step : σ → ι → σ} {P : σ → Prop} {s₀ : σ}
    {inputs : List ι} (h : Throughout step P s₀ inputs) :
    P (inputs.foldl step s₀) :=
  h inputs (List.prefix_refl inputs)

/-- A relation of the state that is left alone to the state that is not. -/
structure Disregards (step : σ → ι → σ) (silent : σ → σ → Prop)
    (fits : σ → Prop) (good : ι → Prop) (R : σ → σ → Prop) : Prop where
  input : ∀ {s t a}, fits s → good a → R s t → R (step s a) (step t a)
  silent : ∀ {s t t'}, fits s → R s t → silent t t' → R s t'

theorem Disregards.run {step : σ → ι → σ} {silent : σ → σ → Prop}
    {fits : σ → Prop} {good : ι → Prop} {R : σ → σ → Prop}
    (h : Disregards step silent fits good R) {s₀ : σ} (hstart : R s₀ s₀)
    {inputs : List ι} {t : σ} (ht : Interleaved step silent s₀ inputs t)
    (hfits : Throughout step fits s₀ inputs) (hgood : ∀ a ∈ inputs, good a) :
    R (inputs.foldl step s₀) t := by
  induction ht with
  | start => exact hstart
  | @input inputs t _ a ih =>
      have hbefore : inputs <+: inputs ++ [a] := List.prefix_append inputs [a]
      have hrun := ih (hfits.start hbefore)
        fun b hb => hgood b (List.mem_append_left _ hb)
      rw [List.foldl_append, List.foldl_cons, List.foldl_nil]
      exact h.input (hfits inputs hbefore)
        (hgood a (List.mem_append_right _ List.mem_cons_self)) hrun
  | silent _ hs ih => exact h.silent hfits.last (ih hfits hgood) hs

end SilentSteps

end Wwsearch.Lib
