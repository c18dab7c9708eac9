import Wwsearch.Proofs.MergeOperator
import Wwsearch.Spec.Schedule

/-!
# What every schedule of merges has in common

Both results are simulations. A partial merge's output stands for the operands
it was made from, a full merge's output stands for a prefix of them, and the
two relations are kept by every merge. `PartialSimulation` and
`FullSimulation` say what has to be kept, `MergePlan.run_stands` and
`ReadPlan.run_stands` carry it through a plan of any shape.

Under the cap the relation is equality of the maps, so a plan computes the
reference merge. Past the cap live ids go missing in ways that depend on the
plan, and what is left is one-sided: a live entry of the output is live in the
operands, and a tombstone of the operands is a tombstone of the output. The
second half is what keeps the first one true when outputs are merged again.
-/

namespace Wwsearch.Spec

open Wwsearch.Lib Wwsearch.Ref

/-! ## Lists that stand for lists -/

/-- What a relation between an output and the operands behind it has to do to
survive partial merges, for operands taken from `all`. -/
structure PartialSimulation (n : Nat) (all : List (List DocList))
    (Stands : List DocList → List (List DocList) → Prop) : Prop where
  operand : ∀ docs, WellFormed docs → Stands docs [docs]
  merge : ∀ {outs groups}, List.Forall₂ Stands outs groups →
    (∀ docs ∈ outs, WellFormed docs) → groups.flatten ⊆ all →
    Stands (partialMerge n outs) groups.flatten
  deletes : ∀ {docs lists}, Stands docs lists → ∀ d,
    stateIn docs d = some kDocumentStateDelete →
    ∃ l ∈ lists, stateIn l d = some kDocumentStateDelete

/-- The same for full merges, which only ever stand at the bottom. -/
structure FullSimulation (n : Nat) (all : List (List DocList))
    (Stands : List DocList → List (List DocList) → Prop)
    (Bottom : List DocList → List (List DocList) → Prop) : Prop
    extends PartialSimulation n all Stands where
  bottom : ∀ {outs groups}, List.Forall₂ Stands outs groups →
    (∀ docs ∈ outs, WellFormed docs) → groups.flatten ⊆ all →
    Bottom (fullMerge n outs) groups.flatten
  bottom_onto : ∀ {docs lists outs groups}, Bottom docs lists →
    List.Forall₂ Stands outs groups → WellFormed docs →
    (∀ docs ∈ outs, WellFormed docs) → lists ++ groups.flatten ⊆ all →
    Bottom (fullMerge n (docs :: outs)) (lists ++ groups.flatten)

theorem forall₂_append_split {α β : Type} {R : α → β → Prop} {l₁ l₂ : List α} :
    ∀ {l : List β}, List.Forall₂ R (l₁ ++ l₂) l →
      ∃ r₁ r₂, l = r₁ ++ r₂ ∧ List.Forall₂ R l₁ r₁ ∧ List.Forall₂ R l₂ r₂ := by
  induction l₁ with
  | nil => intro l h; exact ⟨[], l, rfl, .nil, h⟩
  | cons a l₁ ih =>
      intro l h
      cases h with
      | cons hab h =>
          obtain ⟨r₁, r₂, rfl, h₁, h₂⟩ := ih h
          exact ⟨_ :: r₁, r₂, rfl, .cons hab h₁, h₂⟩

theorem forall₂_exists_right {α β : Type} {R : α → β → Prop} {l : List α}
    {r : List β} (h : List.Forall₂ R l r) {a : α} (ha : a ∈ l) :
    ∃ b ∈ r, R a b := by
  induction h with
  | nil => cases ha
  | cons hab _ ih =>
      rcases List.mem_cons.1 ha with rfl | ha
      · exact ⟨_, List.mem_cons_self, hab⟩
      · obtain ⟨b, hb, hab⟩ := ih ha
        exact ⟨b, List.mem_cons_of_mem _ hb, hab⟩

theorem mem_deletedSomewhere {lists : List (List DocList)} {d : DocumentID} :
    d ∈ deletedSomewhere lists ↔
      ∃ l ∈ lists, (⟨d, kDocumentStateDelete⟩ : DocList) ∈ l := by
  simp only [deletedSomewhere, List.mem_toFinset, List.mem_map, List.mem_filter,
    List.mem_flatten, decide_eq_true_eq]
  constructor
  · rintro ⟨e, ⟨⟨l, hl, he⟩, hdel⟩, rfl⟩
    exact ⟨l, hl, hdel ▸ he⟩
  · rintro ⟨l, hl, he⟩
    exact ⟨_, ⟨⟨l, hl, he⟩, rfl⟩, rfl⟩

theorem mentioned_mono {lists all : List (List DocList)} (h : lists ⊆ all) :
    mentioned lists ⊆ mentioned all := by
  intro d hd
  obtain ⟨l, hl, he⟩ := mem_mentioned.1 hd
  exact mem_mentioned.2 ⟨l, h hl, he⟩

/-! ## Running a plan -/

section Run

variable {op : DocListMergeOperator} {all : List (List DocList)}
  {Stands Bottom : List DocList → List (List DocList) → Prop}

/-- The tombstones of some outputs are tombstones of the operands. -/
theorem PartialSimulation.deleted_subset {n : Nat}
    (sim : PartialSimulation n all Stands) {outs : List (List DocList)}
    {groups : List (List (List DocList))} (h : List.Forall₂ Stands outs groups)
    (hwf : ∀ l ∈ all, WellFormed l) (hsub : groups.flatten ⊆ all) :
    idsWith kDocumentStateDelete outs ⊆ deletedSomewhere all := by
  intro d hd
  obtain ⟨layer, hlayer, hs⟩ := Overlay.read_mem (mem_idsWith.1 hd)
  obtain ⟨docs, hdocs, rfl⟩ := List.mem_map.1 hlayer
  obtain ⟨lists, hlists, hstands⟩ := forall₂_exists_right h hdocs
  obtain ⟨l, hl, hdel⟩ := sim.deletes hstands d hs
  have hall := hsub (List.mem_flatten.2 ⟨lists, hlists, hl⟩)
  exact mem_deletedSomewhere.2
    ⟨l, hall, (stateIn_eq_some (hwf l hall).desc).1 hdel⟩

/-- One partial merge: the output stands for all the operands together. -/
theorem PartialSimulation.merge_stores
    (sim : PartialSimulation op.maxDocListNum.toNat all Stands)
    (groups : List (List (List DocList))) (hwf : ∀ l ∈ all, WellFormed l)
    (hdel : (deletedSomewhere all).card ≤ 10000000) {values : List Bytes}
    {outs : List (List DocList)}
    (hne : values ≠ []) (hst : List.Forall₂ Stores values outs)
    (h : List.Forall₂ Stands outs groups) (hsub : groups.flatten ⊆ all)
    (hfits : ∀ value, mergeValue (op.partialMergeMulti values) = some value →
      value.length < 2 ^ 31) :
    ∃ value docs, mergeValue (op.partialMergeMulti values) = some value ∧
      Stores value docs ∧ Stands docs groups.flatten := by
  have hwfo := Stores.wellFormed_all hst
  have hcard := (Finset.card_le_card (sim.deleted_subset h hwf hsub)).trans hdel
  obtain ⟨value, hval, hwrite, hread⟩ := partialMergeMulti_eq op hne hst hcard
  have hmv : mergeValue (op.partialMergeMulti values) = some value := by
    rw [hval]
    rfl
  have hsize := hfits value hmv
  have hwf' := partialMerge_wellFormed (n := op.maxDocListNum.toNat) hwfo
  refine ⟨value, _, hmv, ⟨hsize, hread ?_, hwf'⟩, sim.merge h hwfo hsub⟩
  -- a record takes a byte at least, so the length assertion bounds the list
  have hnum := (length_filter_partialMerge_le op.maxDocListNum.toNat).trans hcard
  have := length_le_writeDocList hwf' (by omega) hwrite
  omega

theorem MergePlan.runAll_ne_nil {first : MergePlan} {rest : List MergePlan}
    {values : List Bytes}
    (h : MergePlan.runAll op (first :: rest) = some values) : values ≠ [] := by
  rw [MergePlan.runAll] at h
  obtain ⟨v, -, h⟩ := Option.bind_eq_some_iff.1 h
  obtain ⟨vs, -, h⟩ := Option.bind_eq_some_iff.1 h
  rintro rfl
  cases h

variable (sim : PartialSimulation op.maxDocListNum.toNat all Stands)
  (hwf : ∀ l ∈ all, WellFormed l)
  (hdel : (deletedSomewhere all).card ≤ 10000000)
include sim hwf hdel

set_option linter.unusedSectionVars false in
mutual

/-- Whatever a plan combines, its value stands for its operands. -/
theorem MergePlan.run_stands : ∀ (plan : MergePlan)
    (lists : List (List DocList)), plan.Fits op →
    List.Forall₂ (fun v l => docListOf v = some l) plan.operands lists →
    lists ⊆ all →
    ∃ value docs, plan.run op = some value ∧ Stores value docs ∧
      Stands docs lists
  | .operand value, lists, hfits, hops, hsub => by
      cases hops with
      | cons hv hnil =>
          cases hnil
          have hw := hwf _ (hsub List.mem_cons_self)
          exact ⟨value, _, rfl, ⟨hfits, hv, hw⟩, sim.operand _ hw⟩
  | .partialMerge first rest, lists, hfits, hops, hsub => by
      rw [MergePlan.operands] at hops
      obtain ⟨l₁, l₂, rfl, h₁, h₂⟩ := forall₂_append_split hops
      rw [MergePlan.Fits] at hfits
      obtain ⟨hf₁, hf₂, hf⟩ := hfits
      obtain ⟨v, docs, hrun, hst, hstands⟩ := MergePlan.run_stands first l₁ hf₁
        h₁ fun l hl => hsub (List.mem_append_left _ hl)
      obtain ⟨vs, outs, groups, hruns, hsts, hstandss, hflat⟩ :=
        MergePlan.runAll_stands rest l₂ hf₂ h₂
          fun l hl => hsub (List.mem_append_right _ hl)
      have hdef : MergePlan.run op (.partialMerge first rest) =
          mergeValue (op.partialMergeMulti (v :: vs)) := by
        rw [MergePlan.run, hrun, hruns]
        rfl
      rw [hdef] at hf ⊢
      obtain rfl := hflat
      exact sim.merge_stores (l₁ :: groups) hwf hdel
        (List.cons_ne_nil _ _) (.cons hst hsts) (.cons hstands hstandss) hsub hf

theorem MergePlan.runAll_stands : ∀ (plans : List MergePlan)
    (lists : List (List DocList)), MergePlan.FitsAll op plans →
    List.Forall₂ (fun v l => docListOf v = some l)
      (MergePlan.operandsAll plans) lists →
    lists ⊆ all →
    ∃ values outs groups, MergePlan.runAll op plans = some values ∧
      List.Forall₂ Stores values outs ∧ List.Forall₂ Stands outs groups ∧
      groups.flatten = lists
  | [], lists, _, hops, _ => by
      cases hops
      exact ⟨[], [], [], rfl, .nil, .nil, rfl⟩
  | plan :: rest, lists, hfits, hops, hsub => by
      rw [MergePlan.operandsAll] at hops
      obtain ⟨l₁, l₂, rfl, h₁, h₂⟩ := forall₂_append_split hops
      rw [MergePlan.FitsAll] at hfits
      obtain ⟨v, docs, hrun, hst, hstands⟩ := MergePlan.run_stands plan l₁
        hfits.1 h₁ fun l hl => hsub (List.mem_append_left _ hl)
      obtain ⟨vs, outs, groups, hruns, hsts, hstandss, rfl⟩ :=
        MergePlan.runAll_stands rest l₂ hfits.2 h₂
          fun l hl => hsub (List.mem_append_right _ hl)
      refine ⟨v :: vs, docs :: outs, l₁ :: groups, ?_, .cons hst hsts,
        .cons hstands hstandss, rfl⟩
      rw [MergePlan.runAll, hrun, hruns]
      rfl

end

omit sim

/-- And whatever a read merges in the end stands for all of them. -/
theorem ReadPlan.run_stands
    (sim : FullSimulation op.maxDocListNum.toNat all Stands Bottom) :
    ∀ (plan : ReadPlan) (lists : List (List DocList)), plan.Fits op →
    List.Forall₂ (fun v l => docListOf v = some l) plan.operands lists →
    lists ⊆ all →
    ∃ value docs, plan.run op = some value ∧ docListOf value = some docs ∧
      WellFormed docs ∧ Bottom docs lists := by
  intro plan
  induction plan with
  | fullMerge first rest =>
      intro lists hfits hops hsub
      obtain ⟨values, outs, groups, hrun, hst, hstands, rfl⟩ :=
        MergePlan.runAll_stands sim.toPartialSimulation hwf hdel _ lists hfits
          hops hsub
      have hne := MergePlan.runAll_ne_nil hrun
      have hwfo := Stores.wellFormed_all hst
      obtain ⟨value, hval, -, hread⟩ := fullMergeV2_eq op none hne hst
      refine ⟨value, _, ?_, hread, fullMerge_wellFormed hwfo,
        sim.bottom hstands hwfo hsub⟩
      rw [ReadPlan.run, hrun, Option.bind_eq_bind, Option.bind_some, hval]
      rfl
  | fullMergeOnto below first rest ih =>
      intro lists hfits hops hsub
      rw [ReadPlan.operands] at hops
      obtain ⟨l₁, l₂, rfl, h₁, h₂⟩ := forall₂_append_split hops
      obtain ⟨hf, hsize, hfs⟩ := hfits
      obtain ⟨existing, docs, hrun₁, hread₁, hwf₁, hbot⟩ := ih l₁ hf h₁
        fun l hl => hsub (List.mem_append_left _ hl)
      obtain ⟨values, outs, groups, hrun, hst, hstands, rfl⟩ :=
        MergePlan.runAll_stands sim.toPartialSimulation hwf hdel _ l₂ hfs h₂
          fun l hl => hsub (List.mem_append_right _ hl)
      have hne := MergePlan.runAll_ne_nil hrun
      have hwfo := Stores.wellFormed_all hst
      have hst' : List.Forall₂ Stores ((some existing).toList ++ values)
          (docs :: outs) := .cons ⟨hsize existing hrun₁, hread₁, hwf₁⟩ hst
      obtain ⟨value, hval, -, hread⟩ := fullMergeV2_eq op _ hne hst'
      refine ⟨value, _, ?_, hread,
        fullMerge_wellFormed (Stores.wellFormed_all hst'),
        sim.bottom_onto hbot hstands hwf₁ hwfo hsub⟩
      rw [ReadPlan.run, hrun₁, hrun]
      simp only [Option.bind_eq_bind, Option.bind_some, hval]
      rfl

end Run

/-! ## The operands of a plan -/

theorem MergePlan.operands_ne_nil : ∀ plan : MergePlan, plan.operands ≠ []
  | .operand value => by
      rw [MergePlan.operands]
      exact List.cons_ne_nil _ _
  | .partialMerge first rest => by
      rw [MergePlan.operands]
      exact List.append_ne_nil_of_left_ne_nil (operands_ne_nil first) _

theorem ReadPlan.operands_ne_nil (plan : ReadPlan) : plan.operands ≠ [] := by
  cases plan with
  | fullMerge first rest =>
      rw [ReadPlan.operands, MergePlan.operandsAll]
      exact List.append_ne_nil_of_left_ne_nil first.operands_ne_nil _
  | fullMergeOnto below first rest =>
      rw [ReadPlan.operands, MergePlan.operandsAll]
      exact List.append_ne_nil_of_right_ne_nil _
        (List.append_ne_nil_of_left_ne_nil first.operands_ne_nil _)

section Sizes

variable {op : DocListMergeOperator}

mutual

theorem MergePlan.Fits.operands_lt : ∀ {plan : MergePlan}, plan.Fits op →
    ∀ v ∈ plan.operands, v.length < 2 ^ 31
  | .operand value, h, v, hv => by
      rw [MergePlan.operands] at hv
      rw [MergePlan.Fits] at h
      exact List.mem_singleton.1 hv ▸ h
  | .partialMerge first rest, h, v, hv => by
      rw [MergePlan.operands] at hv
      rw [MergePlan.Fits] at h
      rcases List.mem_append.1 hv with hv | hv
      · exact MergePlan.Fits.operands_lt h.1 v hv
      · exact MergePlan.FitsAll.operands_lt h.2.1 v hv

theorem MergePlan.FitsAll.operands_lt : ∀ {plans : List MergePlan},
    MergePlan.FitsAll op plans →
    ∀ v ∈ MergePlan.operandsAll plans, v.length < 2 ^ 31
  | [], _, v, hv => by cases hv
  | plan :: rest, h, v, hv => by
      rw [MergePlan.operandsAll] at hv
      rw [MergePlan.FitsAll] at h
      rcases List.mem_append.1 hv with hv | hv
      · exact MergePlan.Fits.operands_lt h.1 v hv
      · exact MergePlan.FitsAll.operands_lt h.2 v hv

end

theorem ReadPlan.Fits.operands_lt {plan : ReadPlan} (h : plan.Fits op) :
    ∀ v ∈ plan.operands, v.length < 2 ^ 31 := by
  induction plan with
  | fullMerge first rest => exact MergePlan.FitsAll.operands_lt h
  | fullMergeOnto below first rest ih =>
      intro v hv
      rcases List.mem_append.1 hv with hv | hv
      · exact ih h.1 v hv
      · exact MergePlan.FitsAll.operands_lt h.2.2 v hv

end Sizes

theorem stores_of_decode {values : List Bytes} {lists : List (List DocList)}
    (h : List.Forall₂ (fun v l => docListOf v = some l) values lists)
    (hwf : ∀ l ∈ lists, WellFormed l) (hsize : ∀ v ∈ values, v.length < 2 ^ 31) :
    List.Forall₂ Stores values lists := by
  induction h with
  | nil => exact .nil
  | cons hv _ ih =>
      refine .cons ⟨hsize _ List.mem_cons_self, hv, hwf _ List.mem_cons_self⟩
        (ih (fun l hl => hwf l (List.mem_cons_of_mem _ hl))
          fun v hv => hsize v (List.mem_cons_of_mem _ hv))

/-! ## Past the cap -/

/-- The output keeps every tombstone, and nothing in it is live that is not
live behind it. -/
structure Shields (docs : List DocList) (lists : List (List DocList)) :
    Prop where
  deleted : ∀ d, lastState lists d = some kDocumentStateDelete →
    stateIn docs d = some kDocumentStateDelete
  live : ∀ d, stateIn docs d = some kDocumentStateOK →
    lastState lists d = some kDocumentStateOK
  mention : ∀ d, stateIn docs d ≠ none → lastState lists d ≠ none
  deletes : ∀ d, stateIn docs d = some kDocumentStateDelete →
    ∃ l ∈ lists, stateIn l d = some kDocumentStateDelete

theorem ok_ne_delete : kDocumentStateOK ≠ kDocumentStateDelete := by decide

/-- Two states and no third one. -/
theorem lastState_trichotomy (lists : List (List DocList))
    (hwf : ∀ l ∈ lists, WellFormed l) (d : DocumentID) :
    lastState lists d = none ∨ lastState lists d = some kDocumentStateOK ∨
      lastState lists d = some kDocumentStateDelete := by
  cases h : lastState lists d with
  | none => exact .inl rfl
  | some s =>
      rcases lastState_cases hwf h with rfl | rfl
      · exact .inr (.inl rfl)
      · exact .inr (.inr rfl)

theorem lastState_cons (l : List DocList) (lists : List (List DocList))
    (d : DocumentID) :
    lastState (l :: lists) d = (lastState lists d).or (stateIn l d) := by
  rw [← List.singleton_append, lastState_append, lastState_singleton]

/-- The three one-sided facts, for a whole row of outputs. -/
theorem shields_lastState {outs : List (List DocList)}
    {groups : List (List (List DocList))} (h : List.Forall₂ Shields outs groups)
    (hwf : ∀ l ∈ groups.flatten, WellFormed l) (d : DocumentID) :
    (lastState groups.flatten d = some kDocumentStateDelete →
      lastState outs d = some kDocumentStateDelete) ∧
    (lastState outs d = some kDocumentStateOK →
      lastState groups.flatten d = some kDocumentStateOK) ∧
    (lastState outs d ≠ none → lastState groups.flatten d ≠ none) := by
  induction h with
  | nil => simp [lastState]
  | @cons docs lists outs groups hs _ ih =>
      rw [List.flatten_cons] at hwf ⊢
      obtain ⟨hdel, hlive, hmention⟩ := ih
        fun l hl => hwf l (List.mem_append_right _ hl)
      have htri := lastState_trichotomy groups.flatten
        (fun l hl => hwf l (List.mem_append_right _ hl)) d
      rw [lastState_append, lastState_cons]
      rcases htri with hnone | hok | hdeleted
      · -- the later operands are silent, and so are their outputs
        have hout : lastState outs d = none :=
          not_not.1 fun hne => hmention hne hnone
        rw [hnone, hout, Option.none_or, Option.none_or]
        exact ⟨hs.deleted d, hs.live d, hs.mention d⟩
      · rw [hok, Option.some_or]
        exact ⟨fun h => absurd (Option.some.inj h) ok_ne_delete, fun _ => rfl,
          fun _ => Option.some_ne_none _⟩
      · rw [hdeleted, hdel hdeleted, Option.some_or, Option.some_or]
        exact ⟨fun _ => rfl, fun h => h, fun _ => Option.some_ne_none _⟩

/-- No output of a full merge shows an id that is not live behind it. -/
def Sound (docs : List DocList) (lists : List (List DocList)) : Prop :=
  (∀ e ∈ docs, e.docState = kDocumentStateOK) ∧
    ∀ d, stateIn docs d = some kDocumentStateOK →
      lastState lists d = some kDocumentStateOK

theorem docState_of_mem_fullMerge {n : Nat} {lists : List (List DocList)}
    {e : DocList} (h : e ∈ fullMerge n lists) : e.docState = kDocumentStateOK := by
  obtain ⟨d, -, rfl⟩ := List.mem_map.1 h
  rfl

theorem lastState_of_stateIn_fullMerge {n : Nat} {lists : List (List DocList)}
    {d : DocumentID} {s : DocumentState} (h : stateIn (fullMerge n lists) d = some s) :
    lastState lists d = some kDocumentStateOK := by
  rw [stateIn_fullMerge] at h
  split at h
  · next htop => exact lastState_of_mem_topLive htop
  · cases h

theorem shields_simulation (n : Nat) {all : List (List DocList)}
    (hwf : ∀ l ∈ all, WellFormed l) : FullSimulation n all Shields Sound where
  operand := by
    intro docs _
    refine ⟨?_, ?_, ?_, ?_⟩
    · exact fun d h => (lastState_singleton docs d).symm.trans h
    · exact fun d h => (lastState_singleton docs d).trans h
    · exact fun d h => (lastState_singleton docs d).symm ▸ h
    · exact fun d h => ⟨docs, List.mem_cons_self, h⟩
  merge := by
    intro outs groups h hwfo hsub
    have hls := shields_lastState h fun l hl => hwf l (hsub hl)
    have hstate : ∀ d s, stateIn (partialMerge n outs) d = some s →
        lastState outs d = some s := by
      intro d s hs
      rw [stateIn_partialMerge] at hs
      split at hs
      · exact hs
      · cases hs
    refine ⟨?_, ?_, ?_, ?_⟩
    · intro d hd
      have hout := (hls d).1 hd
      rw [stateIn_partialMerge, if_pos (.inl hout), hout]
    · intro d hd
      exact (hls d).2.1 (hstate d _ hd)
    · intro d hd
      obtain ⟨s, hs⟩ := Option.ne_none_iff_exists'.1 hd
      exact (hls d).2.2 (by rw [hstate d s hs]; exact Option.some_ne_none _)
    · intro d hd
      obtain ⟨layer, hlayer, hs⟩ := Overlay.read_mem (hstate d _ hd)
      obtain ⟨docs, hdocs, rfl⟩ := List.mem_map.1 hlayer
      obtain ⟨lists, hlists, hshields⟩ := forall₂_exists_right h hdocs
      obtain ⟨l, hl, hdel⟩ := hshields.deletes d hs
      exact ⟨l, List.mem_flatten.2 ⟨lists, hlists, hl⟩, hdel⟩
  deletes := fun h => h.deletes
  bottom := by
    intro outs groups h _ hsub
    refine ⟨fun e he => docState_of_mem_fullMerge he, fun d hd => ?_⟩
    exact (shields_lastState h (fun l hl => hwf l (hsub hl)) d).2.1
      (lastState_of_stateIn_fullMerge hd)
  bottom_onto := by
    intro docs lists outs groups hbot h _ _ hsub
    refine ⟨fun e he => docState_of_mem_fullMerge he, fun d hd => ?_⟩
    have hsub' : groups.flatten ⊆ all :=
      fun l hl => hsub (List.mem_append_right _ hl)
    have hwf' : ∀ l ∈ groups.flatten, WellFormed l := fun l hl => hwf l (hsub' hl)
    obtain ⟨hdel, hlive, hmention⟩ := shields_lastState h hwf' d
    have hlast := lastState_of_stateIn_fullMerge hd
    rw [lastState_cons] at hlast
    rw [lastState_append]
    rcases lastState_trichotomy _ hwf' d with hnone | hok | hdeleted
    · have hout : lastState outs d = none :=
        not_not.1 fun hne => hmention hne hnone
      rw [hout, Option.none_or] at hlast
      rw [hnone, Option.none_or]
      exact hbot.2 d hlast
    · rw [hok, Option.some_or]
    · -- a tombstone among the outputs would have hidden the value below
      rw [hdel hdeleted, Option.some_or] at hlast
      exact absurd (Option.some.inj hlast).symm ok_ne_delete

/-- No resurrection: whatever the plan and wherever it was cut off, a read
that returns shows only ids whose last mention is live. It does return, as
long as no value outgrows the length assertion. -/
theorem readPlan_sound (op : DocListMergeOperator) (plan : ReadPlan)
    {lists : List (List DocList)}
    (hops : List.Forall₂ (fun v l => docListOf v = some l) plan.operands lists)
    (hwf : ∀ l ∈ lists, WellFormed l)
    (hdel : (deletedSomewhere lists).card ≤ 10000000) (hfits : plan.Fits op) :
    ∃ value docs, plan.run op = some value ∧ docListOf value = some docs ∧
      ∀ e ∈ docs, e.docState = kDocumentStateOK ∧
        lastState lists e.docId = some kDocumentStateOK := by
  obtain ⟨value, docs, hrun, hread, hwfd, hsound⟩ := ReadPlan.run_stands hwf hdel
    (shields_simulation op.maxDocListNum.toNat hwf) plan lists hfits hops
    fun l hl => hl
  refine ⟨value, docs, hrun, hread, fun e he => ?_⟩
  have hs := (stateIn_eq_some hwfd.desc).2 he
  exact ⟨hsound.1 e he, hsound.2 e.docId (by rw [hs, hsound.1 e he])⟩

/-- Ids 9 and 7 merged in full, then a delete of 7 and another 9 merged in part
and put on top. -/
def deleteSevenPlan : ReadPlan :=
  .fullMergeOnto (.fullMerge (.operand [1, 9, 2]) [])
    (.partialMerge (.operand [17, 1, 0, 7]) [.operand [1, 9]]) []

theorem deleteSevenPlan_fits : deleteSevenPlan.Fits twoDocsOperator := by
  have hbelow : ReadPlan.run twoDocsOperator (.fullMerge (.operand [1, 9, 2]) []) =
      some [1, 9, 2] := by decide +kernel
  have hpart : MergePlan.run twoDocsOperator
      (.partialMerge (.operand [17, 1, 0, 7]) [.operand [1, 9]]) =
        some [17, 1, 1, 9, 2] := by decide +kernel
  rw [deleteSevenPlan, ReadPlan.Fits, hbelow]
  simp only [ReadPlan.Fits, MergePlan.FitsAll, MergePlan.Fits, hpart]
  refine ⟨⟨by decide, trivial⟩, ?_, ⟨by decide, ⟨by decide, trivial⟩, ?_⟩, trivial⟩
  · rintro value ⟨⟩
    decide
  · rintro value ⟨⟩
    decide

theorem deleteSevenPlan_operands :
    List.Forall₂ (fun v l => docListOf v = some l) deleteSevenPlan.operands
      [[⟨9, 0⟩, ⟨7, 0⟩], [⟨7, 1⟩], [⟨9, 0⟩]] :=
  .cons (by decide +kernel) (.cons (by decide +kernel)
    (.cons (by decide +kernel) .nil))

theorem deleteSevenPlan_wellFormed :
    ∀ l ∈ [[⟨9, 0⟩, ⟨7, 0⟩], [⟨7, 1⟩], [⟨9, 0⟩]], WellFormed l := by
  simp only [List.forall_mem_cons, List.not_mem_nil, false_implies, implies_true,
    and_true]
  exact ⟨⟨by decide, by decide, by decide⟩, ⟨by decide, by decide, by decide⟩,
    ⟨by decide, by decide, by decide⟩⟩

theorem readPlan_sound_deleteSeven :
    ∃ value docs, deleteSevenPlan.run twoDocsOperator = some value ∧
      docListOf value = some docs ∧ ∀ e ∈ docs, e.docState = kDocumentStateOK ∧
        lastState [[⟨9, 0⟩, ⟨7, 0⟩], [⟨7, 1⟩], [⟨9, 0⟩]] e.docId =
          some kDocumentStateOK :=
  readPlan_sound twoDocsOperator deleteSevenPlan deleteSevenPlan_operands
    deleteSevenPlan_wellFormed (by decide +kernel) deleteSevenPlan_fits

/-! ## Under the cap -/

/-- The output is the map of the operands. -/
def Exact (docs : List DocList) (lists : List (List DocList)) : Prop :=
  ∀ d, stateIn docs d = lastState lists d

/-- The output is what is live in the map of the operands. -/
def ExactLive (docs : List DocList) (lists : List (List DocList)) : Prop :=
  ∀ d, stateIn docs d =
    (lastState lists d).filter (fun s => s = kDocumentStateOK)

theorem exact_lastState {outs : List (List DocList)}
    {groups : List (List (List DocList))} (h : List.Forall₂ Exact outs groups)
    (d : DocumentID) : lastState outs d = lastState groups.flatten d := by
  induction h with
  | nil => rfl
  | @cons docs lists outs groups hs _ ih =>
      rw [List.flatten_cons, lastState_append, lastState_cons, ih, hs d]

theorem mem_topLive_of_mentioned {n : Nat} {lists all : List (List DocList)}
    (hcap : (mentioned all).card ≤ n)
    (hsub : ∀ d, lastState lists d ≠ none → d ∈ mentioned all)
    {d : DocumentID} :
    d ∈ topLive n lists ↔ lastState lists d = some kDocumentStateOK := by
  refine mem_topLive_of_card ((Finset.card_le_card fun x hx => ?_).trans hcap)
  exact hsub x (by rw [mem_idsWith.1 hx]; exact Option.some_ne_none _)

theorem stateIn_fullMerge_of_cap {n : Nat} {lists all : List (List DocList)}
    (hcap : (mentioned all).card ≤ n)
    (hsub : ∀ d, lastState lists d ≠ none → d ∈ mentioned all)
    (d : DocumentID) : stateIn (fullMerge n lists) d =
      (lastState lists d).filter (fun s => s = kDocumentStateOK) := by
  rw [stateIn_fullMerge]
  simp only [mem_topLive_of_mentioned hcap hsub]
  cases lastState lists d with
  | none => rfl
  | some s =>
      by_cases hs : s = kDocumentStateOK <;> simp [Option.filter, hs]

theorem exact_simulation {n : Nat} {all : List (List DocList)}
    (hcap : (mentioned all).card ≤ n) :
    FullSimulation n all Exact ExactLive where
  operand := fun docs _ d => (lastState_singleton docs d).symm
  merge := by
    intro outs groups h hwfo hsub d
    have hout := exact_lastState h
    have hment : ∀ d, lastState outs d ≠ none → d ∈ mentioned all := by
      intro x hx
      rw [hout] at hx
      exact mentioned_mono hsub (mem_mentioned_iff.2 hx)
    rw [stateIn_partialMerge, ← hout]
    simp only [mem_topLive_of_mentioned hcap hment]
    split
    · rfl
    · next hno =>
        rcases lastState_trichotomy _ hwfo d with hnone | hok | hdeleted
        · exact hnone.symm
        · exact absurd (.inr hok) hno
        · exact absurd (.inl hdeleted) hno
  deletes := by
    intro docs lists h d hd
    rw [h d] at hd
    obtain ⟨layer, hlayer, hs⟩ := Overlay.read_mem hd
    obtain ⟨l, hl, rfl⟩ := List.mem_map.1 hlayer
    exact ⟨l, hl, hs⟩
  bottom := by
    intro outs groups h _ hsub d
    have hout := exact_lastState h
    rw [stateIn_fullMerge_of_cap hcap, hout]
    intro x hx
    rw [hout] at hx
    exact mentioned_mono hsub (mem_mentioned_iff.2 hx)
  bottom_onto := by
    intro docs lists outs groups hbot h _ _ hsub d
    have hout := exact_lastState h
    have hcons : ∀ x, lastState (docs :: outs) x =
        (lastState groups.flatten x).or
          ((lastState lists x).filter (fun s => s = kDocumentStateOK)) := by
      intro x
      rw [lastState_cons, hout, hbot x]
    rw [stateIn_fullMerge_of_cap hcap, hcons, lastState_append]
    · cases lastState groups.flatten d with
      | none => simp [Option.filter_filter]
      | some s => rfl
    · intro x hx
      refine mentioned_mono hsub (mem_mentioned_iff.2 ?_)
      rw [hcons] at hx
      rw [lastState_append]
      cases hg : lastState groups.flatten x with
      | some s => exact Option.some_ne_none _
      | none =>
          rw [hg, Option.none_or] at hx
          rw [Option.none_or]
          intro hnone
          rw [hnone] at hx
          exact hx rfl

theorem eq_of_stateIn {l₁ l₂ : List DocList}
    (h₁ : l₁.Pairwise (fun a b => b.docId < a.docId))
    (h₂ : l₂.Pairwise (fun a b => b.docId < a.docId))
    (h : ∀ d, stateIn l₁ d = stateIn l₂ d) : l₁ = l₂ := by
  have hmem : ∀ e, e ∈ l₁ ↔ e ∈ l₂ := by
    intro e
    rw [← stateIn_eq_some h₁ (d := e.docId), h, stateIn_eq_some h₂]
  have hp : l₁.Perm l₂ := (List.perm_ext_iff_of_nodup
    (h₁.imp fun hab => ne_of_apply_ne _ hab.ne')
    (h₂.imp fun hab => ne_of_apply_ne _ hab.ne')).2 hmem
  exact hp.eq_of_pairwise (fun a b _ _ hab hba => absurd hab hba.not_gt) h₁ h₂

/-- The compaction schedule does not show: under the cap every plan reads what
one full merge over all the operands reads. -/
theorem readPlan_schedule_independent (op : DocListMergeOperator)
    (plan : ReadPlan) {lists : List (List DocList)}
    (hops : List.Forall₂ (fun v l => docListOf v = some l) plan.operands lists)
    (hwf : ∀ l ∈ lists, WellFormed l)
    (hcap : (mentioned lists).card ≤ op.maxDocListNum.toNat)
    (hdel : (deletedSomewhere lists).card ≤ 10000000) (hfits : plan.Fits op) :
    ∃ value direct docs, plan.run op = some value ∧
      op.fullMergeV2 none plan.operands = some (true, direct) ∧
      docListOf value = some docs ∧ docListOf direct = some docs := by
  obtain ⟨value, docs, hrun, hread, hwfd, hlive⟩ := ReadPlan.run_stands hwf hdel
    (exact_simulation hcap) plan lists hfits hops fun l hl => hl
  obtain ⟨direct, hdirect, -, hread'⟩ := fullMergeV2_eq op none
    plan.operands_ne_nil (stores_of_decode hops hwf hfits.operands_lt)
  refine ⟨value, direct, docs, hrun, hdirect, hread, ?_⟩
  rw [hread', eq_of_stateIn hwfd.desc (fullMerge_desc _ _) fun d => ?_]
  rw [hlive d, stateIn_fullMerge_of_cap hcap fun x hx => mem_mentioned_iff.2 hx]

theorem readPlan_schedule_independent_deleteSeven :
    ∃ value direct docs,
      deleteSevenPlan.run twoDocsOperator = some value ∧
      twoDocsOperator.fullMergeV2 none deleteSevenPlan.operands =
        some (true, direct) ∧
      docListOf value = some docs ∧ docListOf direct = some docs :=
  readPlan_schedule_independent twoDocsOperator deleteSevenPlan
    deleteSevenPlan_operands deleteSevenPlan_wellFormed (by decide +kernel)
    (by decide +kernel) deleteSevenPlan_fits

end Wwsearch.Spec
