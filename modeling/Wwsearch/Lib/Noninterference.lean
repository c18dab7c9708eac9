import Mathlib.Data.List.Basic

/-!
# What one domain can tell of the others

A machine takes inputs from several domains and answers each of them. A domain
is not interfered with if its answers are those of the run in which no one else
takes part. `Unwinding` reduces that to single steps: a relation of states that
an input of another domain stays within, and that an input of the domain's own
keeps and answers alike on both sides (`Unwinding.own_run`). Whatever two runs
have in common for a domain is then all it can tell of them
(`Unwinding.same_own`).

The conditions may use an invariant of all states, and a property of the
domain's own inputs; the inputs of the others may be anything.
-/

namespace Wwsearch.Lib

universe u₁ u₂ u₃ u₄

structure DomainMachine (σ : Type u₁) (ι : Type u₂) (ο : Type u₃)
    (δ : Type u₄) where
  domain : ι → δ
  step : σ → ι → σ
  output : σ → ι → ο

namespace DomainMachine

variable {σ : Type u₁} {ι : Type u₂} {ο : Type u₃} {δ : Type u₄}
  [DecidableEq δ] (M : DomainMachine σ ι ο δ) (u : δ)

def run (s : σ) (inputs : List ι) : σ := inputs.foldl M.step s

/-- The inputs of the domain. -/
def own (inputs : List ι) : List ι := inputs.filter (M.domain · = u)

/-- What the domain is answered in a run. -/
def outputs : σ → List ι → List ο
  | _, [] => []
  | s, a :: rest =>
      if M.domain a = u then M.output s a :: outputs (M.step s a) rest
      else outputs (M.step s a) rest

/-- The unwinding conditions: `sees s t` if the domain cannot tell the two
states apart. -/
structure Unwinding (inv : σ → Prop) (good : ι → Prop)
    (sees : σ → σ → Prop) : Prop where
  symm : ∀ {s t}, sees s t → sees t s
  trans : ∀ {s t r}, sees s t → sees t r → sees s r
  keeps : ∀ {s} a, inv s → inv (M.step s a)
  respects : ∀ {s a}, M.domain a ≠ u → sees s (M.step s a)
  consistent : ∀ {s t a}, M.domain a = u → good a → inv s → inv t → sees s t →
    sees (M.step s a) (M.step t a)
  answers : ∀ {s t a}, M.domain a = u → good a → inv s → inv t → sees s t →
    M.output s a = M.output t a

namespace Unwinding

variable {M u} {inv : σ → Prop} {good : ι → Prop} {sees : σ → σ → Prop}
  (h : M.Unwinding u inv good sees)

include h

/-- A run, and the run of the domain's own inputs from a state that looks the
same. -/
theorem own_run (inputs : List ι) : ∀ {s t : σ}, inv s → inv t → sees s t →
    (∀ a ∈ inputs, M.domain a = u → good a) →
    sees (M.run s inputs) (M.run t (M.own u inputs)) ∧
      M.outputs u s inputs = M.outputs u t (M.own u inputs) := by
  induction inputs with
  | nil => exact fun _ _ hst _ => ⟨hst, rfl⟩
  | cons a rest ih =>
      intro s t hs ht hst hgood
      have hgood' : ∀ b ∈ rest, M.domain b = u → good b :=
        fun b hb => hgood b (List.mem_cons_of_mem a hb)
      by_cases hdomain : M.domain a = u
      · have ha := hgood a List.mem_cons_self hdomain
        have hown : M.own u (a :: rest) = a :: M.own u rest := by
          rw [own, List.filter_cons, if_pos (decide_eq_true hdomain), own]
        obtain ⟨hsees, houtputs⟩ := ih (h.keeps a hs) (h.keeps a ht)
          (h.consistent hdomain ha hs ht hst) hgood'
        rw [hown, outputs, outputs, if_pos hdomain, if_pos hdomain, houtputs,
          h.answers hdomain ha hs ht hst]
        exact ⟨hsees, rfl⟩
      · have hown : M.own u (a :: rest) = M.own u rest := by
          rw [own, List.filter_cons, if_neg (by simpa using hdomain), own]
        rw [hown, outputs, if_neg hdomain]
        exact ih (h.keeps a hs) ht (h.trans (h.symm (h.respects hdomain)) hst)
          hgood'

/-- Two runs that have the domain's inputs in common. -/
theorem same_own {s t : σ} {inputs inputs' : List ι} (hs : inv s) (ht : inv t)
    (hst : sees s t) (hown : M.own u inputs = M.own u inputs')
    (hgood : ∀ a ∈ inputs, M.domain a = u → good a) :
    sees (M.run s inputs) (M.run t inputs') ∧
      M.outputs u s inputs = M.outputs u t inputs' := by
  have hgood' : ∀ a ∈ inputs', M.domain a = u → good a := by
    intro a ha hdomain
    have hmem : a ∈ M.own u inputs' :=
      List.mem_filter.2 ⟨ha, decide_eq_true hdomain⟩
    rw [← hown] at hmem
    exact hgood a (List.mem_filter.1 hmem).1 hdomain
  obtain ⟨hsees, houtputs⟩ := h.own_run inputs hs ht hst hgood
  obtain ⟨hsees', houtputs'⟩ := h.own_run inputs' ht ht
    (h.trans (h.symm hst) hst) hgood'
  rw [hown] at hsees houtputs
  exact ⟨h.trans hsees (h.symm hsees'), houtputs.trans houtputs'.symm⟩

end Unwinding

end DomainMachine

end Wwsearch.Lib
