import Mathlib.Data.List.Nodup
import Mathlib.Logic.Function.Basic

/-!
# Calls that read first and write later

A call reads the store in one step and plans what to do; in another step it
takes effect, by its plan and not by what the store holds by then. Between the
two any other call may come. A `World` is the store, how far each call is, and
the calls that have taken effect, in their order.

A plan is fresh while a read would still make the same one. Where every call
takes effect by a fresh plan, the world is that of a serial run in the order in
which the calls took effect (`serializes_run`), and that is all there is to
say: a call that acts by a fresh plan might as well have read just then. Plans
stay fresh if no call changes what another one reads
(`undisturbed_of_stable`).
-/

namespace Wwsearch.Lib

/-- Calls in two steps: `read` makes the plan, `flush` acts by it. -/
structure TwoPhase (ι S P R : Type) where
  read : ι → S → P
  flush : ι → P → S → S × R

namespace TwoPhase

/-- How far a call is. -/
inductive Phase (P R : Type) where
  | idle
  | pending (plan : P)
  | done (result : R)

inductive Event (ι : Type) where
  | read (i : ι)
  | flush (i : ι)
  deriving DecidableEq

structure World (ι S P R : Type) where
  store : S
  phase : ι → Phase P R
  flushed : List ι := []

def World.start {ι S P R : Type} (s : S) : World ι S P R :=
  { store := s, phase := fun _ => .idle }

variable {ι S P R : Type}

section Steps

variable [DecidableEq ι] (sys : TwoPhase ι S P R)

/-- An event that is not the turn of its call does nothing. -/
def step (w : World ι S P R) : Event ι → World ι S P R
  | .read i =>
      match w.phase i with
      | .idle =>
          { w with phase :=
              Function.update w.phase i (.pending (sys.read i w.store)) }
      | .pending _ | .done _ => w
  | .flush i =>
      match w.phase i with
      | .pending plan =>
          let r := sys.flush i plan w.store
          { store := r.1
            phase := Function.update w.phase i (.done r.2)
            flushed := w.flushed ++ [i] }
      | .idle | .done _ => w

def run (w : World ι S P R) (es : List (Event ι)) : World ι S P R :=
  es.foldl sys.step w

/-- Every flush of the run finds its plan to be what a read would make now. -/
def Undisturbed (w : World ι S P R) : List (Event ι) → Prop
  | [] => True
  | .read i :: es => Undisturbed (sys.step w (.read i)) es
  | .flush i :: es =>
      (∀ plan, w.phase i = .pending plan → plan = sys.read i w.store) ∧
        Undisturbed (sys.step w (.flush i)) es

end Steps

/-! ## Serial runs -/

section Serial

variable (sys : TwoPhase ι S P R)

/-- Both steps at once. -/
def perform (i : ι) (s : S) : S × R := sys.flush i (sys.read i s) s

def serial (s : S) (order : List ι) : S :=
  order.foldl (fun s i => (sys.perform i s).1) s

theorem serial_append (s : S) (before after : List ι) :
    sys.serial s (before ++ after) = sys.serial (sys.serial s before) after :=
  List.foldl_append

/-- The world is that of a serial run of the calls that have taken effect. -/
structure Serializes (s : S) (w : World ι S P R) : Prop where
  store : w.store = sys.serial s w.flushed
  nodup : w.flushed.Nodup
  done : ∀ i ∈ w.flushed, ∃ r, w.phase i = .done r
  result : ∀ i r, w.phase i = .done r → ∃ before after,
    w.flushed = before ++ i :: after ∧
      r = (sys.perform i (sys.serial s before)).2

theorem serializes_start (s : S) : sys.Serializes s (.start s) where
  store := rfl
  nodup := List.nodup_nil
  done := fun _ h => absurd h List.not_mem_nil
  result := fun _ _ h => nomatch h

end Serial

variable [DecidableEq ι] {sys : TwoPhase ι S P R} {s : S}
  {w : World ι S P R}

theorem update_eq {phase : ι → Phase P R} {i j : ι} {p q : Phase P R}
    (h : Function.update phase i p j = q) :
    j = i ∧ p = q ∨ j ≠ i ∧ phase j = q := by
  rw [Function.update_apply] at h
  split at h
  · next he => exact .inl ⟨he, h⟩
  · next hne => exact .inr ⟨hne, h⟩

theorem serializes_read (h : sys.Serializes s w) (i : ι) :
    sys.Serializes s (sys.step w (.read i)) := by
  rw [step]
  split
  · next hidle =>
      refine ⟨h.store, h.nodup, fun j hj => ?_, fun j r hr => ?_⟩
      · obtain ⟨r, hr⟩ := h.done j hj
        have hne : j ≠ i := by
          rintro rfl
          rw [hidle] at hr
          cases hr
        exact ⟨r, (Function.update_of_ne hne _ _).trans hr⟩
      · rcases update_eq hr with ⟨-, hr⟩ | ⟨-, hr⟩
        · cases hr
        · exact h.result j r hr
  · exact h
  · exact h

/-- A call that takes effect by a fresh plan is the next of the serial run. -/
theorem serializes_flush (h : sys.Serializes s w) (i : ι)
    (hfresh : ∀ plan, w.phase i = .pending plan →
      plan = sys.read i w.store) :
    sys.Serializes s (sys.step w (.flush i)) := by
  rw [step]
  split
  · next plan hplan =>
      obtain rfl := hfresh plan hplan
      have hnot : i ∉ w.flushed := by
        intro hi
        obtain ⟨r, hr⟩ := h.done i hi
        rw [hplan] at hr
        cases hr
      constructor
      · show (sys.perform i w.store).1 = sys.serial s (w.flushed ++ [i])
        rw [serial_append, ← h.store]
        rfl
      · show (w.flushed ++ [i]).Nodup
        rw [← List.concat_eq_append]
        exact h.nodup.concat hnot
      · intro j hj
        rcases List.mem_append.1 hj with hj | hj
        · obtain ⟨r, hr⟩ := h.done j hj
          have hne : j ≠ i := fun he => hnot (he ▸ hj)
          exact ⟨r, (Function.update_of_ne hne _ _).trans hr⟩
        · obtain rfl := List.mem_singleton.1 hj
          exact ⟨_, Function.update_self _ _ _⟩
      · intro j r hr
        rcases update_eq hr with ⟨rfl, hr⟩ | ⟨-, hr⟩
        · refine ⟨w.flushed, [], rfl, ?_⟩
          rw [← h.store]
          exact (Phase.done.inj hr).symm
        · obtain ⟨before, after, hflushed, hresult⟩ := h.result j r hr
          refine ⟨before, after ++ [i], ?_, hresult⟩
          rw [hflushed, List.append_assoc, List.cons_append]
  · exact h
  · exact h

theorem serializes_run_from (es : List (Event ι)) :
    ∀ w : World ι S P R, sys.Serializes s w → sys.Undisturbed w es →
      sys.Serializes s (sys.run w es) := by
  induction es with
  | nil => intro w h _; exact h
  | cons e es ih =>
      intro w h hes
      cases e with
      | read i => exact ih _ (serializes_read h i) hes
      | flush i => exact ih _ (serializes_flush h i hes.1) hes.2

/-- An undisturbed run is serial, in the order of its flushes. -/
theorem serializes_run {es : List (Event ι)}
    (h : sys.Undisturbed (.start s) es) :
    sys.Serializes s (sys.run (.start s) es) :=
  serializes_run_from es _ (sys.serializes_start s) h

/-! ## Calls that do not meet -/

/-- No call changes what another one reads. -/
def Stable (sys : TwoPhase ι S P R) : Prop :=
  ∀ i j s, i ≠ j → sys.read i (sys.perform j s).1 = sys.read i s

/-- Every plan of the world is fresh. -/
def AllFresh (sys : TwoPhase ι S P R) (w : World ι S P R) : Prop :=
  ∀ i plan, w.phase i = .pending plan → plan = sys.read i w.store

theorem allFresh_read (h : sys.AllFresh w) (i : ι) :
    sys.AllFresh (sys.step w (.read i)) := by
  rw [step]
  split
  · intro j plan hplan
    rcases update_eq hplan with ⟨rfl, hplan⟩ | ⟨-, hplan⟩
    · exact (Phase.pending.inj hplan).symm
    · exact h j plan hplan
  · exact h
  · exact h

theorem allFresh_flush (hstable : sys.Stable) (h : sys.AllFresh w) (i : ι) :
    sys.AllFresh (sys.step w (.flush i)) := by
  rw [step]
  split
  · next plan hplan =>
      obtain rfl := h i plan hplan
      intro j plan hj
      rcases update_eq hj with ⟨-, hj⟩ | ⟨hne, hj⟩
      · cases hj
      · rw [h j plan hj]
        exact (hstable j i w.store hne).symm
  · exact h
  · exact h

theorem undisturbed_of_allFresh (hstable : sys.Stable)
    (es : List (Event ι)) :
    ∀ w : World ι S P R, sys.AllFresh w → sys.Undisturbed w es := by
  induction es with
  | nil => intro w _; trivial
  | cons e es ih =>
      intro w h
      cases e with
      | read i => exact ih _ (allFresh_read h i)
      | flush i =>
          exact ⟨h i, ih _ (allFresh_flush hstable h i)⟩

/-- Calls that do not change what the others read are never disturbed. -/
theorem undisturbed_of_stable (hstable : sys.Stable) (s : S)
    (es : List (Event ι)) : sys.Undisturbed (.start s) es :=
  undisturbed_of_allFresh hstable es _ fun _ _ h => nomatch h

end TwoPhase

end Wwsearch.Lib
