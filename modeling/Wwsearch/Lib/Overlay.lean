import Mathlib.Data.List.Basic

/-!
# Last mention wins

A layer is a partial map, a stack of layers is read from its end: a key has
the value of the last layer that mentions it. That is what a sequence of
updates to a store means when each update covers only some of the keys, and
the facts a caller needs are few: a stack splits at any point (`read_append`),
a layer that says nothing may be dropped, and a layer may be replaced by any
other that answers the same.
-/

namespace Wwsearch.Lib.Overlay

variable {κ σ : Type}

/-- The value of `k` in a stack of layers, the last one on top. -/
def read (layers : List (κ → Option σ)) (k : κ) : Option σ :=
  layers.foldl (fun acc layer => (layer k).or acc) none

@[simp] theorem read_nil (k : κ) : read ([] : List (κ → Option σ)) k = none := rfl

theorem foldl_or (layers : List (κ → Option σ)) (k : κ) (acc : Option σ) :
    layers.foldl (fun acc layer => (layer k).or acc) acc =
      (read layers k).or acc := by
  induction layers generalizing acc with
  | nil => rfl
  | cons layer rest ih =>
      rw [read, List.foldl_cons, List.foldl_cons, ih, ih, Option.or_none,
        Option.or_assoc]

theorem read_append (below above : List (κ → Option σ)) (k : κ) :
    read (below ++ above) k = (read above k).or (read below k) := by
  rw [read, List.foldl_append, foldl_or]
  rfl

@[simp] theorem read_singleton (layer : κ → Option σ) (k : κ) :
    read [layer] k = layer k := by
  rw [read, List.foldl_cons, List.foldl_nil, Option.or_none]

theorem read_cons (layer : κ → Option σ) (rest : List (κ → Option σ)) (k : κ) :
    read (layer :: rest) k = (read rest k).or (layer k) := by
  rw [← List.singleton_append, read_append, read_singleton]

theorem read_eq_none {layers : List (κ → Option σ)} {k : κ} :
    read layers k = none ↔ ∀ layer ∈ layers, layer k = none := by
  induction layers with
  | nil => simp
  | cons layer rest ih => simp [read_cons, ih, and_comm]

/-- The last layer that mentions a key decides it. -/
theorem read_of_last {layers : List (κ → Option σ)} {k : κ} {i : Nat}
    (layer : κ → Option σ) {s : σ} (hi : layers[i]? = some layer)
    (hs : layer k = some s)
    (hlater : ∀ j layer', i < j → layers[j]? = some layer' → layer' k = none) :
    read layers k = some s := by
  obtain ⟨hlt, hget⟩ := List.getElem?_eq_some_iff.1 hi
  have hsplit : layers = layers.take i ++ layer :: layers.drop (i + 1) := by
    rw [← hget, List.getElem_cons_drop, List.take_append_drop]
  have habove : read (layers.drop (i + 1)) k = none := by
    refine read_eq_none.2 fun layer' hmem => ?_
    obtain ⟨j, hj⟩ := List.mem_iff_getElem?.1 hmem
    rw [List.getElem?_drop] at hj
    exact hlater _ _ (by omega) hj
  rw [hsplit, read_append, read_cons, habove, Option.none_or, hs, Option.some_or]

theorem read_congr {ι : Type} {l : List ι} {f g : ι → κ → Option σ} {k : κ}
    (h : ∀ x ∈ l, f x k = g x k) : read (l.map f) k = read (l.map g) k := by
  induction l with
  | nil => rfl
  | cons x xs ih =>
      rw [List.map_cons, List.map_cons, read_cons, read_cons,
        ih (fun y hy => h y (List.mem_cons_of_mem _ hy)),
        h x List.mem_cons_self]

theorem read_mem {layers : List (κ → Option σ)} {k : κ} {s : σ}
    (h : read layers k = some s) : ∃ layer ∈ layers, layer k = some s := by
  induction layers with
  | nil => cases h
  | cons layer rest ih =>
      rw [read_cons] at h
      cases hr : read rest k with
      | none =>
          rw [hr, Option.none_or] at h
          exact ⟨layer, List.mem_cons_self, h⟩
      | some s' =>
          rw [hr, Option.some_or] at h
          obtain ⟨layer', hmem, hs⟩ := ih (hr.trans h)
          exact ⟨layer', List.mem_cons_of_mem _ hmem, hs⟩

/-- Where the layers that mention a key agree, so does the stack. -/
theorem read_of_agree {layers : List (κ → Option σ)} {k : κ} {s : σ}
    {layer : κ → Option σ} (hmem : layer ∈ layers) (hs : layer k = some s)
    (hall : ∀ layer ∈ layers, ∀ s', layer k = some s' → s' = s) :
    read layers k = some s := by
  cases h : read layers k with
  | none =>
      have := read_eq_none.1 h layer hmem
      rw [hs] at this
      cases this
  | some s' =>
      obtain ⟨layer', hmem', hs'⟩ := read_mem h
      rw [hall layer' hmem' s' hs']

end Wwsearch.Lib.Overlay
