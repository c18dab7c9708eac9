import Mathlib.Data.List.Forall2
/-!
# Answers that more fuel does not change

A fueled function answers nothing when it runs out. `Settles f a` says that it
does not run out: from some amount on, every fuel gives the answer `a`. The
rules below follow the text of a definition: a result, one computation after
another, one for each item of a list. `Settles.unique` makes the answer a
function of the call.
-/

namespace Wwsearch.Lib

def Settles {α : Type} (f : Nat → Option α) (a : α) : Prop :=
  ∃ enough, ∀ fuel, enough ≤ fuel → f fuel = some a

namespace Settles

variable {α β : Type} {f : Nat → Option α} {a b : α}

theorem pure (a : α) : Settles (fun _ => some a) a := ⟨0, fun _ _ => rfl⟩

theorem unique (ha : Settles f a) (hb : Settles f b) : a = b := by
  obtain ⟨n, hn⟩ := ha
  obtain ⟨m, hm⟩ := hb
  have hmax := (hn (max n m) (Nat.le_max_left n m)).symm.trans
    (hm (max n m) (Nat.le_max_right n m))
  exact Option.some.inj hmax

/-- One unit of fuel goes to the call itself. -/
theorem succ (h : Settles (fun fuel => f (fuel + 1)) a) : Settles f a := by
  obtain ⟨n, hn⟩ := h
  refine ⟨n + 1, fun fuel hfuel => ?_⟩
  cases fuel with
  | zero => exact absurd hfuel (Nat.not_succ_le_zero n)
  | succ fuel => exact hn fuel (Nat.le_of_succ_le_succ hfuel)

theorem bind {g : Nat → α → Option β} {c : β} (hf : Settles f a)
    (hg : Settles (fun fuel => g fuel a) c) :
    Settles (fun fuel => (f fuel).bind (g fuel)) c := by
  obtain ⟨n, hn⟩ := hf
  obtain ⟨m, hm⟩ := hg
  refine ⟨max n m, fun fuel hfuel => ?_⟩
  show (f fuel).bind (g fuel) = some c
  rw [hn fuel (Nat.le_trans (Nat.le_max_left n m) hfuel), Option.bind_some]
  exact hm fuel (Nat.le_trans (Nat.le_max_right n m) hfuel)

theorem map {g : α → β} (hf : Settles f a) :
    Settles (fun fuel => (f fuel).map g) (g a) := by
  obtain ⟨n, hn⟩ := hf
  refine ⟨n, fun fuel hfuel => ?_⟩
  show (f fuel).map g = some (g a)
  rw [hn fuel hfuel, Option.map_some]

/-- A pass over a list settles if it settles at every item; `R` is what is
known of an item and its result. -/
theorem mapM {g : Nat → α → Option β} {R : α → β → Prop} {l : List α}
    (h : ∀ x ∈ l, ∃ y, Settles (fun fuel => g fuel x) y ∧ R x y) :
    ∃ l', Settles (fun fuel => l.mapM (g fuel)) l' ∧ List.Forall₂ R l l' := by
  induction l with
  | nil => exact ⟨[], ⟨0, fun _ _ => rfl⟩, .nil⟩
  | cons x l ih =>
      obtain ⟨y, hy, hxy⟩ := h x List.mem_cons_self
      obtain ⟨l', hl', hall⟩ := ih fun z hz => h z (List.mem_cons_of_mem x hz)
      refine ⟨y :: l', ?_, .cons hxy hall⟩
      obtain ⟨n, hn⟩ := hy
      obtain ⟨m, hm⟩ := hl'
      refine ⟨max n m, fun fuel hfuel => ?_⟩
      have hx : g fuel x = some y :=
        hn fuel (Nat.le_trans (Nat.le_max_left n m) hfuel)
      have hrest : l.mapM (g fuel) = some l' :=
        hm fuel (Nat.le_trans (Nat.le_max_right n m) hfuel)
      show (x :: l).mapM (g fuel) = some (y :: l')
      rw [List.mapM_cons, hx, hrest]
      rfl

end Settles

/-! ## Answers that stay

Where one more unit of fuel never takes an answer back, one answer is enough to
settle. -/

/-- What `f` answers, `g` answers too. -/
def Extends {α β : Type} (f g : α → Option β) : Prop :=
  ∀ x y, f x = some y → g x = some y

namespace Extends

variable {α β γ : Type}

theorem bind {o o' : Option α} {f g : α → Option β} {b : β}
    (ho : ∀ a, o = some a → o' = some a) (hfg : Extends f g)
    (h : o.bind f = some b) : o'.bind g = some b := by
  obtain ⟨a, ha, hb⟩ := Option.bind_eq_some_iff.1 h
  rw [ho a ha]
  exact hfg a b hb

theorem mapM {f g : α → Option β} (hfg : Extends f g) {l : List α}
    {ys : List β} (h : l.mapM f = some ys) : l.mapM g = some ys := by
  induction l generalizing ys with
  | nil => exact h
  | cons x l ih =>
      rw [List.mapM_cons] at h ⊢
      exact bind (hfg x) (fun y zs => bind (fun _ => ih)
        fun _ _ hzs => hzs) h

end Extends

theorem Settles.of_extends {α β : Type} {f : Nat → α → Option β}
    (hmono : ∀ fuel, Extends (f fuel) (f (fuel + 1))) {x : α} {y : β}
    {enough : Nat} (h : f enough x = some y) :
    Settles (fun fuel => f fuel x) y := by
  refine ⟨enough, fun fuel hfuel => ?_⟩
  induction hfuel with
  | refl => exact h
  | step _ ih => exact hmono _ x y ih

end Wwsearch.Lib
