import Wwsearch.Proofs.DocListCodec
import Wwsearch.Proofs.HeapMerge
import Wwsearch.Proofs.MergedMap

/-!
# The merge operator computes the merged map

`mergeLoop_eq` ends the story of the heap: the loop is `mergeFold`, a fold of
`mergeRecord` over the merged map from its largest id down. The two truncation
rules are then facts about that fold. A full merge is a `filter` and a `take`
(`mergeFold_full`), and a partial merge drops the live entries past the limit
and nothing else (`mergeFold_partial`), as long as the guard on the number of
tombstones stays out of the way.
-/

namespace Wwsearch.Ref

open Wwsearch.Lib Wwsearch.Spec

/-! ## The head of the merged map -/

theorem stateIn_dropHead {l : List DocList} {d x : DocumentID} (h : x ≠ d) :
    stateIn (dropHead d l) x = stateIn l x := by
  cases l with
  | nil => rfl
  | cons e tl =>
      rw [dropHead]
      split
      · next he =>
          rw [stateIn, stateIn, List.find?_cons_of_neg]
          simp only [beq_iff_eq]
          exact fun hx => h (hx.symm.trans he)
      · rfl

theorem lastState_dropHead {lists : List (List DocList)} {d x : DocumentID}
    (h : x ≠ d) :
    lastState (lists.map (dropHead d)) x = lastState lists x := by
  rw [lastState, lastState, List.map_map]
  exact Overlay.read_congr fun l _ => stateIn_dropHead h

theorem lt_of_mem_dropHead {l : List DocList} {d : DocumentID}
    (hwf : WellFormed l) (hle : ∀ e ∈ l, e.docId ≤ d) {e : DocList}
    (he : e ∈ dropHead d l) : e.docId < d := by
  cases l with
  | nil => cases he
  | cons x tl =>
      have htl := (List.pairwise_cons.1 hwf.desc).1
      rw [dropHead] at he
      split at he
      · next hx => exact hx ▸ htl e he
      · next hx =>
          have hxd : x.docId < d := lt_of_le_of_ne (hle x List.mem_cons_self) hx
          rcases List.mem_cons.1 he with rfl | he
          · exact hxd
          · exact (htl e he).trans hxd

theorem dropHead_wellFormed {l : List DocList} {d : DocumentID}
    (hwf : WellFormed l) : WellFormed (dropHead d l) := by
  cases l with
  | nil => exact hwf
  | cons x tl =>
      rw [dropHead]
      split
      · exact ⟨(List.pairwise_cons.1 hwf.desc).2,
          fun e he => hwf.nonzero e (List.mem_cons_of_mem _ he),
          fun e he => hwf.state e (List.mem_cons_of_mem _ he)⟩
      · exact hwf

section Head

variable {a : Array HeapItem} {lists : List (List DocList)}

/-- No list mentions an id above the one on top of the heap. -/
theorem Holds.le_head (h : Holds a lists) (hwf : ∀ l ∈ lists, WellFormed l)
    {l : List DocList} (hl : l ∈ lists) {x : DocList} (hx : x ∈ l) :
    x.docId ≤ a[0]!.docID := by
  obtain ⟨i, hi⟩ := List.mem_iff_getElem?.1 hl
  refine le_trans ?_ (h.docID_le_top hi)
  cases l with
  | nil => cases hx
  | cons y ys =>
      rcases List.mem_cons.1 hx with rfl | hx
      · exact le_refl _
      · exact ((List.pairwise_cons.1 (hwf _ hl).desc).1 x hx).le

theorem merged_nil (h : Holds a lists) (hwf : ∀ l ∈ lists, WellFormed l)
    (htop : a[0]!.ptr = []) : merged lists = [] := by
  have hnone : mentioned lists = ∅ := by
    refine Finset.eq_empty_of_forall_notMem fun d hd => ?_
    obtain ⟨l, hl, x, hx, rfl⟩ := mem_mentioned.1 hd
    have hle := h.le_head hwf hl hx
    rw [HeapItem.docID, htop] at hle
    exact (hwf l hl).nonzero x hx (le_antisymm hle UInt64.zero_le)
  rw [merged, hnone, descending, Finset.sort_empty, List.map_nil]

/-- The item on top is the last one to mention its id. -/
theorem Holds.lastState_top (h : Holds a lists) (hne : 0 < lists.length)
    (hwf : ∀ l ∈ lists, WellFormed l) {e : DocList} {tl : List DocList}
    (htop : a[0]!.ptr = e :: tl) :
    lastState lists e.docId = some e.docState := by
  have hid : a[0]!.docID = e.docId := by rw [HeapItem.docID, htop]
  have hmem := h.top_mem hne
  rw [htop] at hmem
  refine Overlay.read_of_last (i := a[0]!.priority) (stateIn (e :: tl))
    (by rw [List.getElem?_map, hmem, Option.map_some]) ?_ ?_
  · rw [stateIn, List.find?_cons_of_pos (by simp)]
    rfl
  · intro j layer hj hlayer
    rw [List.getElem?_map] at hlayer
    obtain ⟨l, hl, rfl⟩ := Option.map_eq_some_iff.1 hlayer
    have hlmem := List.mem_of_getElem? hl
    refine stateIn_eq_none.2 fun x hx hxd => ?_
    -- a later list with this id would have been the greater key
    have hhead : (⟨l, j⟩ : HeapItem).docID = e.docId := by
      refine le_antisymm (hid ▸ h.docID_le_top hl) ?_
      cases l with
      | nil => cases hx
      | cons y ys =>
          rw [← hxd]
          rcases List.mem_cons.1 hx with rfl | hx
          · exact le_refl _
          · exact ((List.pairwise_cons.1 (hwf _ hlmem).desc).1 x hx).le
    have hkey := h.le_top hl
    rw [HeapItem.key, HeapItem.key, hhead, hid, Prod.Lex.toLex_le_toLex] at hkey
    rcases hkey with hlt | ⟨-, hle⟩
    · exact lt_irrefl _ hlt
    · exact absurd hle (by simpa using hj)

/-- The item on top is the head of the merged map, and the skip loop leaves
the heap with the rest. -/
theorem merged_cons (h : Holds a lists) (hne : 0 < lists.length)
    (hwf : ∀ l ∈ lists, WellFormed l) {e : DocList} {tl : List DocList}
    (htop : a[0]!.ptr = e :: tl) :
    merged lists = e :: merged (lists.map (dropHead e.docId)) := by
  have hid : a[0]!.docID = e.docId := by rw [HeapItem.docID, htop]
  have hlast := h.lastState_top hne hwf htop
  have hlt : ∀ x ∈ mentioned (lists.map (dropHead e.docId)), x < e.docId := by
    intro x hx
    obtain ⟨l', hl', y, hy, rfl⟩ := mem_mentioned.1 hx
    obtain ⟨l, hl, rfl⟩ := List.mem_map.1 hl'
    refine lt_of_mem_dropHead (hwf l hl) (fun z hz => ?_) hy
    exact hid ▸ h.le_head hwf hl hz
  have hids : mentioned lists =
      insert e.docId (mentioned (lists.map (dropHead e.docId))) := by
    ext x
    rw [Finset.mem_insert]
    by_cases hx : x = e.docId
    · subst hx
      rw [mem_mentioned_iff, hlast]
      simp
    · rw [mem_mentioned_iff, mem_mentioned_iff, lastState_dropHead hx]
      simp [hx]
  rw [merged, hids, descending_insert hlt, List.map_cons, hlast]
  congr 1
  refine List.map_congr_left fun x hx => ?_
  rw [lastState_dropHead (hlt x (mem_descending.1 hx)).ne]

end Head

/-! ## The loop is a fold -/

/-- The merge loop once the heap is out of the picture. -/
def mergeFold (maxDocListNum : Nat) (purgeDeletedoc : Bool) :
    List DocList → MergeOutput → Option DocListWriterCodec
  | [], out => some out.writer
  | doc :: rest, out => do
      let (out, stop) ← mergeRecord maxDocListNum purgeDeletedoc doc out
      if stop then some out.writer
      else mergeFold maxDocListNum purgeDeletedoc rest out

theorem total_dropHead_lt {lists : List (List DocList)} {i : Nat} {e : DocList}
    {tl : List DocList} (hi : lists[i]? = some (e :: tl)) :
    total (lists.map (dropHead e.docId)) < total lists := by
  have hle : ∀ ls : List (List DocList),
      total (ls.map (dropHead e.docId)) ≤ total ls := by
    intro ls
    induction ls with
    | nil => exact Nat.le_refl _
    | cons l rest ih =>
        have hl : (dropHead e.docId l).length ≤ l.length := by
          cases l with
          | nil => exact Nat.le_refl _
          | cons x xs =>
              rw [dropHead]
              split
              · exact Nat.le_succ _
              · exact Nat.le_refl _
        simp only [total, List.map_cons, List.sum_cons] at ih ⊢
        omega
  have hset : (lists.set i tl).map (dropHead e.docId) =
      (lists.map (dropHead e.docId)).set i (dropHead e.docId tl) := List.map_set
  have hstep := total_set hi
  obtain ⟨hlt, hget⟩ := List.getElem?_eq_some_iff.1 hi
  have hsplit : lists = lists.take i ++ (e :: tl) :: lists.drop (i + 1) := by
    rw [← hget, List.getElem_cons_drop, List.take_append_drop]
  have h₁ := hle (lists.take i)
  have h₂ := hle (lists.drop (i + 1))
  rw [hsplit]
  simp only [total, List.map_append, List.map_cons, List.sum_append,
    List.sum_cons, dropHead, if_true, List.length_cons] at h₁ h₂ ⊢
  omega

/-- The merge loop walks the merged map from its largest id down. -/
theorem mergeLoop_eq (n : Nat) (purge : Bool) : ∀ (fuel : Nat)
    (a : Array HeapItem) (lists : List (List DocList)) (out : MergeOutput),
    Holds a lists → 0 < lists.length → (∀ l ∈ lists, WellFormed l) →
    total lists < fuel →
    mergeLoop n purge lists.length fuel a out =
      mergeFold n purge (merged lists) out := by
  intro fuel
  induction fuel with
  | zero => intro a lists out _ _ _ hf; exact absurd hf (Nat.not_lt_zero _)
  | succ f ih =>
      intro a lists out h hne hwf hf
      rw [mergeLoop]
      split
      · next htop => rw [merged_nil h hwf htop, mergeFold]
      · next doc tl htop =>
          have hptr := h.top_mem hne
          rw [htop] at hptr
          have hdoc : doc.docId ≠ 0 :=
            (hwf _ (List.mem_of_getElem? hptr)).nonzero doc List.mem_cons_self
          have hid : a[0]!.docID = doc.docId := by rw [HeapItem.docID, htop]
          have hle : ∀ l ∈ lists, ∀ x ∈ l, x.docId ≤ doc.docId :=
            fun l hl x hx => hid ▸ h.le_head hwf hl hx
          obtain ⟨b, hskip, hb⟩ := skipSameDocID_spec hdoc
            (leftRecords a lists.length) a lists h ⟨hwf, hle⟩ hne hid
            (by rw [h.leftRecords])
          have hwf' : ∀ l ∈ lists.map (dropHead doc.docId), WellFormed l := by
            intro l hl
            obtain ⟨l', hl', rfl⟩ := List.mem_map.1 hl
            exact dropHead_wellFormed (hwf l' hl')
          have hlt := total_dropHead_lt hptr
          rw [if_neg hdoc, merged_cons h hne hwf htop, mergeFold, hskip]
          congr 1
          funext r
          obtain ⟨out', stop⟩ := r
          have hrec := ih b (lists.map (dropHead doc.docId)) out' hb
            (by rwa [List.length_map]) hwf' (by omega)
          rw [List.length_map] at hrec
          simp only [Option.bind_eq_bind, Option.bind_some, hrec]

/-! ## The two truncation rules -/

/-- The writer after a list of records. -/
def addDocs (writer : DocListWriterCodec) (docs : List DocList) :
    Option DocListWriterCodec :=
  docs.foldlM (fun writer doc => writer.addDocID doc.docId doc.docState) writer

def live (doc : DocList) : Bool := doc.docState ≠ kDocumentStateDelete

/-- Every tombstone and the first `n` live records. -/
def keepLive : Nat → List DocList → List DocList
  | _, [] => []
  | n, doc :: rest =>
      if live doc then
        match n with
        | 0 => keepLive 0 rest
        | n + 1 => doc :: keepLive n rest
      else doc :: keepLive n rest

theorem mergeFold_full {n : Nat} : ∀ (docs : List DocList) (out : MergeOutput),
    out.matchDocCount < n → mergeFold n true docs out =
      addDocs out.writer ((docs.filter live).take (n - out.matchDocCount)) := by
  intro docs
  induction docs with
  | nil => intro out _; rw [mergeFold, List.filter_nil, List.take_nil]; rfl
  | cons doc rest ih =>
      intro out hlt
      rw [mergeFold, mergeRecord, if_pos rfl]
      by_cases hdel : doc.docState = kDocumentStateDelete
      · rw [if_neg (not_not.2 hdel), List.filter_cons_of_neg (by simp [live, hdel])]
        exact ih out hlt
      · rw [if_pos hdel, List.filter_cons_of_pos (by simp [live, hdel]),
          show n - out.matchDocCount = n - (out.matchDocCount + 1) + 1 by omega,
          List.take_succ_cons]
        simp only [addDocs, List.foldlM_cons]
        cases out.writer.addDocID doc.docId doc.docState with
        | none => rfl
        | some w =>
            simp only [Option.bind_eq_bind, Option.bind_some, decide_eq_true_eq]
            split
            · next hstop =>
                rw [show n - (out.matchDocCount + 1) = 0 by omega]
                rfl
            · next hgo => exact ih _ (by simpa using hgo)

theorem mergeFold_partial {n : Nat} : ∀ (docs : List DocList)
    (out : MergeOutput), out.matchDocCount ≤ n →
    out.matchDeleteDocCount + (docs.filter (!live ·)).length ≤ 10000000 →
    mergeFold n false docs out =
      addDocs out.writer (keepLive (n - out.matchDocCount) docs) := by
  intro docs
  induction docs with
  | nil => intro out _ _; rfl
  | cons doc rest ih =>
      intro out hle hdels
      rw [mergeFold, mergeRecord, if_neg Bool.false_ne_true, keepLive.eq_def]
      by_cases hdel : doc.docState = kDocumentStateDelete
      · have hlive : live doc = false := by simp [live, hdel]
        rw [List.filter_cons_of_pos (by simp [hlive]), List.length_cons] at hdels
        rw [if_neg (not_not.2 hdel)]
        simp only [hlive, Bool.false_eq_true, if_false, addDocs, List.foldlM_cons]
        cases out.writer.addDocID doc.docId doc.docState with
        | none => rfl
        | some w =>
            simp only [Option.bind_eq_bind, Option.bind_some, decide_eq_true_eq]
            rw [if_neg (by omega)]
            refine ih ⟨w, out.matchDocCount, out.matchDeleteDocCount + 1⟩ hle ?_
            simp only
            omega
      · have hlive : live doc = true := by simp [live, hdel]
        rw [List.filter_cons_of_neg (by simp [hlive])] at hdels
        rw [if_pos hdel]
        by_cases hroom : out.matchDocCount < n
        · rw [if_pos hroom,
            show n - out.matchDocCount = n - (out.matchDocCount + 1) + 1 by omega]
          simp only [hlive, if_true, addDocs, List.foldlM_cons]
          cases out.writer.addDocID doc.docId doc.docState with
          | none => rfl
          | some w =>
              exact ih ⟨w, out.matchDocCount + 1, out.matchDeleteDocCount⟩ hroom
                hdels
        · have hzero : n - out.matchDocCount = 0 := by omega
          rw [if_neg hroom, hzero]
          simp only [hlive, if_true]
          have hrec := ih out hle hdels
          rw [hzero] at hrec
          exact hrec

/-! ## The truncated lists are the reference ones -/

theorem keepLive_sublist : ∀ (docs : List DocList) (n : Nat),
    (keepLive n docs).Sublist docs := by
  intro docs
  induction docs with
  | nil => intro n; exact List.Sublist.refl _
  | cons doc rest ih =>
      intro n
      rw [keepLive.eq_def]
      simp only
      split
      · split
        · exact (ih 0).cons _
        · next k => exact (ih k).cons_cons _
      · exact (ih n).cons_cons _

theorem mem_keepLive : ∀ (docs : List DocList) (n : Nat) (x : DocList),
    x ∈ keepLive n docs ↔
      (x ∈ docs ∧ live x = false) ∨ x ∈ (docs.filter live).take n := by
  intro docs
  induction docs with
  | nil => intro n x; simp [keepLive]
  | cons doc rest ih =>
      intro n x
      rw [keepLive.eq_def]
      simp only
      by_cases hlive : live doc = true
      · have hx : x ∈ doc :: rest ∧ live x = false ↔
            x ∈ rest ∧ live x = false := by
          refine and_congr_left fun hx => ?_
          rw [List.mem_cons, or_iff_right]
          rintro rfl
          rw [hlive] at hx
          exact Bool.false_ne_true hx.symm
        rw [if_pos hlive, List.filter_cons_of_pos hlive, hx]
        cases n with
        | zero => exact ih 0 x
        | succ k =>
            simp only [List.mem_cons, List.take_succ_cons, ih k x]
            exact or_left_comm
      · rw [if_neg hlive, List.filter_cons_of_neg hlive, List.mem_cons, ih n x,
          List.mem_cons, or_and_right, or_assoc]
        refine or_congr_left ?_
        rw [eq_comm]
        constructor
        · rintro rfl
          exact ⟨rfl, by simpa using hlive⟩
        · exact fun h => h.1

theorem mem_merged {lists : List (List DocList)} {e : DocList} :
    e ∈ merged lists ↔ lastState lists e.docId = some e.docState := by
  rw [merged, List.mem_map]
  constructor
  · rintro ⟨d, hd, rfl⟩
    have hne := mem_mentioned_iff.1 (mem_descending.1 hd)
    obtain ⟨s, hs⟩ := Option.ne_none_iff_exists'.1 hne
    rw [hs]
    rfl
  · intro h
    refine ⟨e.docId, mem_descending.2 (mem_mentioned_iff.2 ?_), ?_⟩
    · rw [h]
      exact Option.some_ne_none _
    · rw [h]
      rfl

theorem merged_desc (lists : List (List DocList)) :
    (merged lists).Pairwise (fun a b => b.docId < a.docId) :=
  List.pairwise_map.2 (descending_pairwise _)

theorem map_of_subset_merged (lists : List (List DocList)) (docs : List DocList)
    (h : ∀ e ∈ docs, e ∈ merged lists) :
    docs = (docs.map (·.docId)).map
      (fun d => ⟨d, (lastState lists d).getD kDocumentStateOK⟩) := by
  rw [List.map_map]
  conv_lhs => rw [← List.map_id docs]
  refine List.map_congr_left fun e he => ?_
  rw [Function.comp_apply, mem_merged.1 (h e he)]
  rfl

/-- The merged map has one tombstone for each deleted id. -/
theorem length_deleted_merged (lists : List (List DocList)) :
    ((merged lists).filter (!live ·)).length =
      (idsWith kDocumentStateDelete lists).card := by
  rw [merged, List.filter_map, List.length_map, descending_filter,
    descending, Finset.length_sort]
  congr 1
  ext d
  rw [Finset.mem_filter, mem_idsWith, mem_mentioned_iff]
  cases h : lastState lists d with
  | none => simp
  | some s => simp [live, h]

section Reference

variable {lists : List (List DocList)} (hwf : ∀ l ∈ lists, WellFormed l)
include hwf

theorem filter_live_merged : (merged lists).filter live =
    (descending (idsWith kDocumentStateOK lists)).map
      (⟨·, kDocumentStateOK⟩) := by
  have hids : ((merged lists).filter live).map (·.docId) =
      descending (idsWith kDocumentStateOK lists) := by
    refine eq_descending (List.pairwise_map.2 ((merged_desc lists).filter _)) ?_
    intro d
    rw [List.mem_map, mem_idsWith]
    constructor
    · rintro ⟨e, he, rfl⟩
      obtain ⟨hmem, hlive⟩ := List.mem_filter.1 he
      have hs := mem_merged.1 hmem
      rcases lastState_cases hwf hs with hok | hdel
      · rw [hs, hok]
      · exact absurd hdel (by simpa [live] using hlive)
    · intro h
      exact ⟨⟨d, kDocumentStateOK⟩,
        List.mem_filter.2 ⟨mem_merged.2 h, rfl⟩, rfl⟩
  rw [map_of_subset_merged lists ((merged lists).filter live)
    fun e he => List.mem_of_mem_filter he, hids]
  refine List.map_congr_left fun d hd => ?_
  rw [mem_idsWith.1 (mem_descending.1 hd)]
  rfl

theorem take_filter_merged (n : Nat) :
    ((merged lists).filter live).take n = fullMerge n lists := by
  rw [filter_live_merged hwf, ← List.map_take]
  rfl

theorem keepLive_merged (n : Nat) :
    keepLive n (merged lists) = partialMerge n lists := by
  have hids : (keepLive n (merged lists)).map (·.docId) =
      descending (idsWith kDocumentStateDelete lists ∪
        (topLive n lists).toFinset) := by
    refine eq_descending (List.pairwise_map.2
      ((merged_desc lists).sublist (keepLive_sublist _ _))) ?_
    intro d
    rw [mem_partialIds, List.mem_map]
    constructor
    · rintro ⟨e, he, rfl⟩
      rcases (mem_keepLive _ _ _).1 he with ⟨hmem, hdel⟩ | hmem
      · have hs := mem_merged.1 hmem
        simp only [live, ne_eq, decide_not, Bool.not_eq_eq_eq_not, Bool.not_false,
          decide_eq_true_eq] at hdel
        exact .inl (hs.trans (congrArg some hdel))
      · rw [take_filter_merged hwf] at hmem
        obtain ⟨d, hd, rfl⟩ := List.mem_map.1 hmem
        exact .inr hd
    · rintro (hdel | htop)
      · exact ⟨⟨d, kDocumentStateDelete⟩, (mem_keepLive _ _ _).2
          (.inl ⟨mem_merged.2 hdel, rfl⟩), rfl⟩
      · refine ⟨⟨d, kDocumentStateOK⟩, (mem_keepLive _ _ _).2 (.inr ?_), rfl⟩
        rw [take_filter_merged hwf]
        exact List.mem_map.2 ⟨d, htop, rfl⟩
  rw [map_of_subset_merged lists (keepLive n (merged lists))
    fun e he => (keepLive_sublist _ _).subset he, hids]
  rfl

/-! ## The merge -/

variable (hne : lists ≠ [])
include hne

theorem optimizeDocListMerge_eq {heap : Array HeapItem}
    (hsize : lists.length ≤ heap.size) (type : DocListCompressionType)
    (n : Nat) (purge : Bool) :
    optimizeDocListMerge type n (setHeap heap lists) lists.length purge =
      (mergeFold n purge (merged lists)
        { writer := newOrderDocListWriterCodec type }).bind
          (·.serializeToBytes) := by
  have h := holds_build hsize
  rw [optimizeDocListMerge, mergeLoop_eq n purge _ _ lists _ h
    (List.length_pos_of_ne_nil hne) hwf (by rw [h.leftRecords]; omega)]
  rfl

/-- Neither heap matters: the result is a function of the lists. -/
theorem doMerge_eq (op : DocListMergeOperator) (purge : Bool) :
    op.doMerge lists purge =
      (mergeFold op.maxDocListNum.toNat purge (merged lists)
        { writer := newOrderDocListWriterCodec op.compressionType }).bind
          (·.serializeToBytes) := by
  refine optimizeDocListMerge_eq hwf hne ?_ _ _ _
  split
  · next hlt => rw [op.heap_size]; exact hlt.le
  · rw [Array.size_replicate]

theorem doMerge_fullMode (op : DocListMergeOperator) : op.doMerge lists true =
    writeDocList op.compressionType
      (fullMerge op.maxDocListNum.toNat lists) := by
  rw [doMerge_eq hwf hne, mergeFold_full _ _ op.limit_pos,
    take_filter_merged hwf]
  rfl

theorem doMerge_partialMode (op : DocListMergeOperator)
    (hdel : (idsWith kDocumentStateDelete lists).card ≤ 10000000) :
    op.doMerge lists false = writeDocList op.compressionType
      (partialMerge op.maxDocListNum.toNat lists) := by
  rw [doMerge_eq hwf hne, mergeFold_partial _ _ (Nat.zero_le _)
    (by rw [length_deleted_merged, Nat.zero_add]; exact hdel),
    Nat.sub_zero, keepLive_merged hwf]
  rfl

end Reference

/-! ## The operator on bytes -/

theorem mapM_decodeDocList {values : List Bytes} {lists : List (List DocList)}
    (h : List.Forall₂ Stores values lists) :
    values.mapM DocListMergeOperator.decodeDocList = some lists := by
  induction h with
  | nil => rfl
  | cons hv _ ih =>
      rw [List.mapM_cons, DocListMergeOperator.decodeDocList, if_pos hv.size,
        hv.decodes, ih]
      rfl

theorem Stores.wellFormed_all {values : List Bytes}
    {lists : List (List DocList)} (h : List.Forall₂ Stores values lists) :
    ∀ l ∈ lists, WellFormed l := by
  induction h with
  | nil => intro l hl; cases hl
  | cons hv _ ih =>
      intro l hl
      rcases List.mem_cons.1 hl with rfl | hl
      · exact hv.wellFormed
      · exact ih l hl

/-- A full merge's result has no tombstones. -/
theorem filter_fullMerge (n : Nat) (lists : List (List DocList)) :
    (fullMerge n lists).filter (fun doc => doc.docState ≠ 0) = [] := by
  rw [List.filter_eq_nil_iff]
  intro e he
  obtain ⟨d, -, rfl⟩ := List.mem_map.1 he
  exact fun h => absurd h (by simp [kDocumentStateOK])

/-- A partial merge's result has one tombstone for each deleted id. -/
theorem length_filter_partialMerge_le (n : Nat) {lists : List (List DocList)} :
    ((partialMerge n lists).filter (fun doc => doc.docState ≠ 0)).length ≤
      (idsWith kDocumentStateDelete lists).card := by
  rw [← List.length_map (·.docId)]
  have hdesc : (((partialMerge n lists).filter (fun doc => doc.docState ≠ 0)).map
      (·.docId)).Pairwise (fun a b => b < a) :=
    List.pairwise_map.2 ((partialMerge_desc n lists).filter _)
  rw [← List.toFinset_card_of_nodup (hdesc.imp fun hab => hab.ne')]
  refine Finset.card_le_card fun d hd => ?_
  obtain ⟨e, he, rfl⟩ := List.mem_map.1 (List.mem_toFinset.1 hd)
  obtain ⟨hmem, hdel⟩ := List.mem_filter.1 he
  obtain ⟨d, hids, rfl⟩ := List.mem_map.1 hmem
  rcases mem_partialIds.1 (mem_descending.1 hids) with h | h
  · exact mem_idsWith.2 h
  · rw [lastState_of_mem_topLive h] at hdel
    exact absurd hdel (by simp [kDocumentStateOK])

section Operator

variable {lists : List (List DocList)}

theorem fullMergeV2_eq (op : DocListMergeOperator) (existing : Option Bytes)
    {operands : List Bytes} (hne : operands ≠ [])
    (h : List.Forall₂ Stores (existing.toList ++ operands) lists) :
    ∃ out, op.fullMergeV2 existing operands = some (true, out) ∧
      writeDocList op.compressionType
        (fullMerge op.maxDocListNum.toNat lists) = some (true, out) ∧
      docListOf out = some (fullMerge op.maxDocListNum.toNat lists) := by
  have hwf := Stores.wellFormed_all h
  have hlists : lists ≠ [] := by
    rintro rfl
    exact hne (List.append_eq_nil_iff.1 (List.forall₂_nil_right_iff.1 h)).2
  have hwf' := fullMerge_wellFormed (n := op.maxDocListNum.toNat) hwf
  have hnum : ((fullMerge op.maxDocListNum.toNat lists).filter
      (fun doc => doc.docState ≠ 0)).length = 0 := by
    rw [filter_fullMerge]
    rfl
  obtain ⟨out, hout⟩ := writeDocList_isSome hwf' op.compressionType (by omega)
  refine ⟨out, ?_, hout, docListOf_writeDocList hwf' (by omega) ?_ hout⟩
  · rw [DocListMergeOperator.fullMergeV2, mapM_decodeDocList h]
    exact (doMerge_fullMode hwf hlists op).trans hout
  · intro _ p hp
    have := List.length_pos_of_mem hp
    rw [length_deletePositions] at this
    omega

/-- What the bytes of a partial merge encode; they can be read back while the
places of the tombstones fit into the 32 bits they are stored in. -/
theorem partialMergeMulti_eq (op : DocListMergeOperator) {operands : List Bytes}
    (hne : operands ≠ []) (h : List.Forall₂ Stores operands lists)
    (hdel : (idsWith kDocumentStateDelete lists).card ≤ 10000000) :
    ∃ out, op.partialMergeMulti operands = some (true, out) ∧
      writeDocList op.compressionType
        (partialMerge op.maxDocListNum.toNat lists) = some (true, out) ∧
      ((partialMerge op.maxDocListNum.toNat lists).length ≤ 2 ^ 32 →
        docListOf out =
          some (partialMerge op.maxDocListNum.toNat lists)) := by
  have hwf := Stores.wellFormed_all h
  have hlists : lists ≠ [] := by
    rintro rfl
    exact hne (List.forall₂_nil_right_iff.1 h)
  have hwf' := partialMerge_wellFormed (n := op.maxDocListNum.toNat) hwf
  have hnum := (length_filter_partialMerge_le op.maxDocListNum.toNat).trans hdel
  obtain ⟨out, hout⟩ := writeDocList_isSome hwf' op.compressionType (by omega)
  refine ⟨out, ?_, hout, fun hlen => ?_⟩
  · rw [DocListMergeOperator.partialMergeMulti, mapM_decodeDocList h]
    exact (doMerge_partialMode hwf hlists op hdel).trans hout
  · refine docListOf_writeDocList hwf' (by omega) (fun _ p hp => ?_) hout
    have := (le_of_mem_deletePositions hp).2
    omega

end Operator

/-- The merge operator computes the reference merge, from either layout into
either layout. `Spec.fullMerge` and `Spec.partialMerge` are descending by
construction; that a writer answers at all is what its order checks are about.
The last part is about the scratch space: any heap with room for the lists,
whatever it holds, gives the result of the one `DoMerge` picks. -/
theorem docListMergeOperator_refines (op : DocListMergeOperator)
    {operands : List Bytes} (hne : operands ≠ []) :
    (∀ (existing : Option Bytes) (lists : List (List DocList)),
      List.Forall₂ Stores (existing.toList ++ operands) lists →
      ∃ out, op.fullMergeV2 existing operands = some (true, out) ∧
        writeDocList op.compressionType
          (fullMerge op.maxDocListNum.toNat lists) = some (true, out) ∧
        docListOf out = some (fullMerge op.maxDocListNum.toNat lists)) ∧
    (∀ lists : List (List DocList), List.Forall₂ Stores operands lists →
      (idsWith kDocumentStateDelete lists).card ≤ 10000000 →
      ∃ out, op.partialMergeMulti operands = some (true, out) ∧
        writeDocList op.compressionType
          (partialMerge op.maxDocListNum.toNat lists) = some (true, out) ∧
        ((partialMerge op.maxDocListNum.toNat lists).length ≤ 2 ^ 32 →
          docListOf out =
            some (partialMerge op.maxDocListNum.toNat lists))) ∧
    (∀ (lists : List (List DocList)) (purge : Bool) (heap : Array HeapItem),
      lists ≠ [] → (∀ l ∈ lists, WellFormed l) → lists.length ≤ heap.size →
      optimizeDocListMerge op.compressionType op.maxDocListNum.toNat
        (setHeap heap lists) lists.length purge = op.doMerge lists purge) := by
  refine ⟨?_, ?_, ?_⟩
  · intro existing lists h
    exact fullMergeV2_eq op _ hne h
  · intro lists h hdel
    exact partialMergeMulti_eq op hne h hdel
  · intro lists purge heap hlists hwf hsize
    rw [doMerge_eq hwf hlists, optimizeDocListMerge_eq hwf hlists hsize]

/-- An operator that keeps two live ids and writes the variable-length
layout. -/
def twoDocsOperator : DocListMergeOperator :=
  .new .varLenBlockType 2 (by decide)

/-- Ids 9, 7, 5, 3 in the fixed layout, then a delete of 7 in the other. -/
theorem docListMergeOperator_refines_two :
    (∃ out, twoDocsOperator.fullMergeV2 none
        [0 :: fixBody [⟨9, 0⟩, ⟨7, 0⟩, ⟨5, 0⟩, ⟨3, 0⟩], [17, 1, 0, 7]] =
          some (true, out) ∧
      docListOf out = some
        (fullMerge 2 [[⟨9, 0⟩, ⟨7, 0⟩, ⟨5, 0⟩, ⟨3, 0⟩], [⟨7, 1⟩]])) ∧
    ∃ out, twoDocsOperator.partialMergeMulti
        [0 :: fixBody [⟨9, 0⟩, ⟨7, 0⟩, ⟨5, 0⟩, ⟨3, 0⟩], [17, 1, 0, 7]] =
          some (true, out) ∧
      docListOf out = some
        (partialMerge 2 [[⟨9, 0⟩, ⟨7, 0⟩, ⟨5, 0⟩, ⟨3, 0⟩], [⟨7, 1⟩]]) := by
  have hstores : List.Forall₂ Stores
      [0 :: fixBody [⟨9, 0⟩, ⟨7, 0⟩, ⟨5, 0⟩, ⟨3, 0⟩], [17, 1, 0, 7]]
      [[⟨9, 0⟩, ⟨7, 0⟩, ⟨5, 0⟩, ⟨3, 0⟩], [⟨7, 1⟩]] := by
    refine .cons ⟨by decide, docListOf_fix _, ?_⟩ (.cons ⟨by decide, ?_, ?_⟩ .nil)
    · exact ⟨by decide, by decide, by decide⟩
    · decide +kernel
    · exact ⟨by decide, by decide, by decide⟩
  have hids : (mentioned [[⟨9, 0⟩, ⟨7, 0⟩, ⟨5, 0⟩, ⟨3, 0⟩], [⟨7, 1⟩]]).card ≤ 5 :=
    List.toFinset_card_le _
  obtain ⟨hfull, hpart, -⟩ := docListMergeOperator_refines twoDocsOperator
    (List.cons_ne_nil (0 :: fixBody [⟨9, 0⟩, ⟨7, 0⟩, ⟨5, 0⟩, ⟨3, 0⟩])
      [[17, 1, 0, 7]])
  obtain ⟨out, hout, -, hread⟩ := hfull none _ hstores
  obtain ⟨out', hout', -, hread'⟩ := hpart _ hstores
    ((Finset.card_le_card (Finset.filter_subset _ _)).trans
      (hids.trans (by decide)))
  exact ⟨⟨out, hout, hread⟩, out', hout', hread'
    ((length_partialMerge_le _ _).trans (hids.trans (by decide)))⟩

end Wwsearch.Ref
