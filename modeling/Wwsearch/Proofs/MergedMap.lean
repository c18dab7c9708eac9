import Wwsearch.Spec.Merge

/-!
# Reading the merged map

Facts about the map a sequence of doc lists stands for, none of them about
how it is computed. A descending list is determined by its members
(`eq_descending`), so every equality between merge results is an equality of
sets. `mem_fullMerge` and `mem_partialMerge` say which entries a result holds,
and `stateIn_partialMerge` and `stateIn_fullMerge` what a later merge reads
out of it again.
-/

namespace Wwsearch.Spec

open Wwsearch.Lib Wwsearch.Ref

/-! ## Descending lists -/

theorem mem_descending {s : Finset DocumentID} {d : DocumentID} :
    d ∈ descending s ↔ d ∈ s := Finset.mem_sort _

theorem descending_pairwise (s : Finset DocumentID) :
    (descending s).Pairwise (fun a b => b < a) := by
  have hle := Finset.pairwise_sort s (· ≥ ·)
  have hne := Finset.sort_nodup s (· ≥ ·)
  exact (hle.and hne).imp fun ⟨h, h'⟩ => lt_of_le_of_ne h h'.symm

theorem eq_of_desc {l₁ l₂ : List DocumentID}
    (h₁ : l₁.Pairwise (fun a b => b < a)) (h₂ : l₂.Pairwise (fun a b => b < a))
    (h : ∀ d, d ∈ l₁ ↔ d ∈ l₂) : l₁ = l₂ := by
  have hp : l₁.Perm l₂ := (List.perm_ext_iff_of_nodup
    (h₁.imp fun hab => hab.ne') (h₂.imp fun hab => hab.ne')).2 h
  exact hp.eq_of_pairwise (fun a b _ _ hab hba => absurd hab hba.not_gt) h₁ h₂

theorem eq_descending {l : List DocumentID} {s : Finset DocumentID}
    (h : l.Pairwise (fun a b => b < a)) (hmem : ∀ d, d ∈ l ↔ d ∈ s) :
    l = descending s :=
  eq_of_desc h (descending_pairwise s) fun d => (hmem d).trans mem_descending.symm

theorem descending_insert {s : Finset DocumentID} {d : DocumentID}
    (h : ∀ b ∈ s, b < d) : descending (insert d s) = d :: descending s := by
  refine (eq_descending (List.pairwise_cons.2 ⟨?_, descending_pairwise s⟩) ?_).symm
  · intro b hb
    exact h b (mem_descending.1 hb)
  · intro x
    rw [List.mem_cons, mem_descending, Finset.mem_insert]

theorem descending_filter {s : Finset DocumentID} (p : DocumentID → Bool) :
    (descending s).filter p = descending (s.filter (p · = true)) := by
  refine eq_descending ((descending_pairwise s).filter p) fun d => ?_
  rw [List.mem_filter, mem_descending, Finset.mem_filter]

/-! ## The state of an id -/

theorem stateIn_eq_some {l : List DocList}
    (h : l.Pairwise (fun a b => b.docId < a.docId)) {d : DocumentID}
    {s : DocumentState} : stateIn l d = some s ↔ (⟨d, s⟩ : DocList) ∈ l := by
  induction l with
  | nil => simp [stateIn]
  | cons e tl ih =>
      obtain ⟨hlt, htl⟩ := List.pairwise_cons.1 h
      rw [stateIn, List.find?_cons]
      by_cases he : e.docId = d
      · rw [beq_iff_eq.2 he, List.mem_cons]
        constructor
        · intro hs
          exact .inl (by rw [← he, ← Option.some.inj hs])
        · rintro (rfl | hmem)
          · rfl
          · exact absurd (hlt _ hmem) (by rw [he]; exact lt_irrefl d)
      · rw [beq_eq_false_iff_ne.2 he, List.mem_cons]
        rw [show (⟨d, s⟩ : DocList) = e ∨ (⟨d, s⟩ : DocList) ∈ tl ↔
          (⟨d, s⟩ : DocList) ∈ tl from
            or_iff_right fun h' => he (by rw [← h'])]
        exact ih htl

theorem stateIn_eq_none {l : List DocList} {d : DocumentID} :
    stateIn l d = none ↔ ∀ e ∈ l, e.docId ≠ d := by
  rw [stateIn, Option.map_eq_none_iff, List.find?_eq_none]
  simp

theorem mem_mentioned {lists : List (List DocList)} {d : DocumentID} :
    d ∈ mentioned lists ↔ ∃ l ∈ lists, ∃ e ∈ l, e.docId = d := by
  simp only [mentioned, List.mem_toFinset, List.mem_map, List.mem_flatten]
  constructor
  · rintro ⟨e, ⟨l, hl, he⟩, hd⟩
    exact ⟨l, hl, e, he, hd⟩
  · rintro ⟨l, hl, e, he, hd⟩
    exact ⟨e, ⟨l, hl, he⟩, hd⟩

theorem mem_mentioned_iff {lists : List (List DocList)} {d : DocumentID} :
    d ∈ mentioned lists ↔ lastState lists d ≠ none := by
  rw [mem_mentioned, lastState, Ne, Overlay.read_eq_none]
  simp only [List.forall_mem_map, stateIn_eq_none]
  push Not
  rfl

theorem mem_idsWith {s : DocumentState} {lists : List (List DocList)}
    {d : DocumentID} : d ∈ idsWith s lists ↔ lastState lists d = some s := by
  rw [idsWith, Finset.mem_filter, mem_mentioned_iff, and_iff_right_iff_imp]
  intro h
  rw [h]
  exact Option.some_ne_none s

theorem lastState_append (below above : List (List DocList)) (d : DocumentID) :
    lastState (below ++ above) d =
      (lastState above d).or (lastState below d) := by
  rw [lastState, List.map_append, Overlay.read_append, lastState, lastState]

theorem lastState_singleton (l : List DocList) (d : DocumentID) :
    lastState [l] d = stateIn l d := Overlay.read_singleton _ _

/-- With well-formed lists an id is live, deleted or not mentioned. -/
theorem lastState_cases {lists : List (List DocList)}
    (hwf : ∀ l ∈ lists, WellFormed l) {d : DocumentID} {s : DocumentState}
    (h : lastState lists d = some s) :
    s = kDocumentStateOK ∨ s = kDocumentStateDelete := by
  obtain ⟨layer, hmem, hs⟩ := Overlay.read_mem h
  obtain ⟨l, hl, rfl⟩ := List.mem_map.1 hmem
  exact (hwf l hl).state _ ((stateIn_eq_some (hwf l hl).desc).1 hs)

/-! ## The two results -/

theorem topLive_pairwise (n : Nat) (lists : List (List DocList)) :
    (topLive n lists).Pairwise (fun a b => b < a) :=
  (descending_pairwise _).sublist (List.take_sublist _ _)

theorem lastState_of_mem_topLive {n : Nat} {lists : List (List DocList)}
    {d : DocumentID} (h : d ∈ topLive n lists) :
    lastState lists d = some kDocumentStateOK :=
  mem_idsWith.1 (mem_descending.1 (List.mem_of_mem_take h))

/-- Under the cap nothing is cut off. -/
theorem mem_topLive_of_card {n : Nat} {lists : List (List DocList)}
    {d : DocumentID} (hcap : (idsWith kDocumentStateOK lists).card ≤ n) :
    d ∈ topLive n lists ↔ lastState lists d = some kDocumentStateOK := by
  rw [topLive, List.take_of_length_le, mem_descending, mem_idsWith]
  rw [descending, Finset.length_sort]
  exact hcap

theorem mem_partialIds {n : Nat} {lists : List (List DocList)}
    {d : DocumentID} :
    d ∈ idsWith kDocumentStateDelete lists ∪ (topLive n lists).toFinset ↔
      lastState lists d = some kDocumentStateDelete ∨ d ∈ topLive n lists := by
  rw [Finset.mem_union, mem_idsWith, List.mem_toFinset]

theorem fullMerge_desc (n : Nat) (lists : List (List DocList)) :
    (fullMerge n lists).Pairwise (fun a b => b.docId < a.docId) :=
  List.pairwise_map.2 (topLive_pairwise n lists)

theorem partialMerge_desc (n : Nat) (lists : List (List DocList)) :
    (partialMerge n lists).Pairwise (fun a b => b.docId < a.docId) :=
  List.pairwise_map.2 (descending_pairwise _)

theorem mentioned_of_mem_partialIds {n : Nat} {lists : List (List DocList)}
    {d : DocumentID}
    (h : lastState lists d = some kDocumentStateDelete ∨ d ∈ topLive n lists) :
    d ∈ mentioned lists := by
  refine mem_mentioned_iff.2 ?_
  rcases h with h | h
  · rw [h]
    exact Option.some_ne_none _
  · rw [lastState_of_mem_topLive h]
    exact Option.some_ne_none _

theorem length_partialMerge_le (n : Nat) (lists : List (List DocList)) :
    (partialMerge n lists).length ≤ (mentioned lists).card := by
  rw [partialMerge, List.length_map, descending, Finset.length_sort]
  exact Finset.card_le_card fun d hd =>
    mentioned_of_mem_partialIds (mem_partialIds.1 hd)

/-- What a later merge reads in a full merge's result. -/
theorem stateIn_fullMerge {n : Nat} {lists : List (List DocList)}
    {d : DocumentID} : stateIn (fullMerge n lists) d =
      if d ∈ topLive n lists then some kDocumentStateOK else none := by
  split
  · next h =>
      exact (stateIn_eq_some (fullMerge_desc n lists)).2
        (List.mem_map.2 ⟨d, h, rfl⟩)
  · next h =>
      refine stateIn_eq_none.2 fun e he => ?_
      obtain ⟨d', hd', rfl⟩ := List.mem_map.1 he
      exact fun heq => h (heq ▸ hd')

/-- What a later merge reads in a partial merge's result: every tombstone, and
the live ids that were kept. -/
theorem stateIn_partialMerge {n : Nat} {lists : List (List DocList)}
    {d : DocumentID} : stateIn (partialMerge n lists) d =
      if lastState lists d = some kDocumentStateDelete ∨ d ∈ topLive n lists
      then lastState lists d else none := by
  split
  · next h =>
      obtain ⟨s, hs⟩ : ∃ s, lastState lists d = some s := by
        rcases h with h | h
        · exact ⟨_, h⟩
        · exact ⟨_, lastState_of_mem_topLive h⟩
      rw [hs]
      refine (stateIn_eq_some (partialMerge_desc n lists)).2 ?_
      exact List.mem_map.2
        ⟨d, mem_descending.2 (mem_partialIds.2 h), by rw [hs]; rfl⟩
  · next h =>
      refine stateIn_eq_none.2 fun e he => ?_
      obtain ⟨d', hd', rfl⟩ := List.mem_map.1 he
      exact fun heq => h (heq ▸ mem_partialIds.1 (mem_descending.1 hd'))

theorem ne_zero_of_mentioned {lists : List (List DocList)}
    (hwf : ∀ l ∈ lists, WellFormed l) {d : DocumentID}
    (h : d ∈ mentioned lists) : d ≠ 0 := by
  obtain ⟨l, hl, e, he, rfl⟩ := mem_mentioned.1 h
  exact (hwf l hl).nonzero e he

theorem fullMerge_wellFormed {n : Nat} {lists : List (List DocList)}
    (hwf : ∀ l ∈ lists, WellFormed l) : WellFormed (fullMerge n lists) where
  desc := fullMerge_desc n lists
  nonzero := by
    intro e he
    obtain ⟨d, hd, rfl⟩ := List.mem_map.1 he
    refine ne_zero_of_mentioned hwf (mem_mentioned_iff.2 ?_)
    rw [lastState_of_mem_topLive hd]
    exact Option.some_ne_none _
  state := by
    intro e he
    obtain ⟨d, -, rfl⟩ := List.mem_map.1 he
    exact .inl rfl

theorem partialMerge_wellFormed {n : Nat} {lists : List (List DocList)}
    (hwf : ∀ l ∈ lists, WellFormed l) : WellFormed (partialMerge n lists) := by
  have hmem : ∀ e ∈ partialMerge n lists,
      lastState lists e.docId = some e.docState := by
    intro e he
    obtain ⟨d, hd, rfl⟩ := List.mem_map.1 he
    rcases mem_partialIds.1 (mem_descending.1 hd) with h | h
    · rw [h]; rfl
    · rw [lastState_of_mem_topLive h]; rfl
  refine ⟨partialMerge_desc n lists, fun e he => ?_, fun e he => ?_⟩
  · refine ne_zero_of_mentioned hwf (mem_mentioned_iff.2 ?_)
    rw [hmem e he]
    exact Option.some_ne_none _
  · exact lastState_cases hwf (hmem e he)

end Wwsearch.Spec
