import Mathlib.Data.List.Induction
import Mathlib.Logic.Function.Basic

/-!
# Numbers that are given out in order

Whoever asks gets the next number. A `Ledger` has everyone in the order in
which they asked, so the number given out in the `n`-th place is `n`, and it
was given to one of them only (`getElem?_of_number`). The ledger is only ever
added to, so that does not change.

What is kept is less than the ledger: the largest number, and for each name
the last number it got (`Numbering`).
-/

namespace Wwsearch.Lib

/-- The largest number given out, and the number of each name. -/
structure Numbering (α : Type) where
  max : Nat := 0
  number : α → Option Nat := fun _ => none

namespace Numbering

variable {α : Type} [DecidableEq α]

/-- The next number, for `a`. -/
def assign (s : Numbering α) (a : α) : Numbering α where
  max := s.max + 1
  number := Function.update s.number a (some (s.max + 1))

theorem number_assign (s : Numbering α) (a b : α) :
    (s.assign a).number b =
      if b = a then some (s.max + 1) else s.number b :=
  Function.update_apply s.number a (some (s.max + 1)) b

def ofLedger (ledger : List α) : Numbering α := ledger.foldl assign {}

@[simp] theorem ofLedger_nil : ofLedger ([] : List α) = {} := rfl

theorem ofLedger_append (ledger new : List α) :
    ofLedger (ledger ++ new) = new.foldl assign (ofLedger ledger) :=
  List.foldl_append

theorem ofLedger_concat (ledger : List α) (a : α) :
    ofLedger (ledger ++ [a]) = (ofLedger ledger).assign a := by
  rw [ofLedger_append, List.foldl_cons, List.foldl_nil]

@[simp] theorem max_ofLedger (ledger : List α) :
    (ofLedger ledger).max = ledger.length := by
  induction ledger using List.reverseRecOn with
  | nil => rfl
  | append_singleton ledger a ih =>
      rw [ofLedger_concat, assign, ih, List.length_append]
      rfl

/-- The number of a name is a place of the ledger where the name stands. -/
theorem getElem?_of_number {ledger : List α} {a : α} {n : Nat}
    (h : (ofLedger ledger).number a = some n) :
    0 < n ∧ ledger[n - 1]? = some a := by
  induction ledger using List.reverseRecOn with
  | nil => cases h
  | append_singleton ledger b ih =>
      rw [ofLedger_concat, number_assign] at h
      split at h
      · next hab =>
          have hn := Option.some.inj h
          rw [max_ofLedger] at hn
          subst hn hab
          exact ⟨Nat.succ_pos _, List.getElem?_concat_length⟩
      · obtain ⟨hpos, hget⟩ := ih h
        have hlt := (List.getElem?_eq_some_iff.1 hget).1
        rw [List.getElem?_append_left hlt]
        exact ⟨hpos, hget⟩

theorem number_le {ledger : List α} {a : α} {n : Nat}
    (h : (ofLedger ledger).number a = some n) : n ≤ ledger.length := by
  obtain ⟨hpos, hget⟩ := getElem?_of_number h
  have hlt := (List.getElem?_eq_some_iff.1 hget).1
  omega

omit [DecidableEq α] in
/-- One place, one name, however much the ledger has grown in between. -/
theorem name_unique {ledger later : List α} {a b : α} {n : Nat}
    (hle : ledger <+: later) (ha : ledger[n]? = some a)
    (hb : later[n]? = some b) : a = b := by
  obtain ⟨new, rfl⟩ := hle
  rw [List.getElem?_append_left (List.getElem?_eq_some_iff.1 ha).1, ha] at hb
  exact Option.some.inj hb

end Numbering

end Wwsearch.Lib
