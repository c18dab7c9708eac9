import Wwsearch.Proofs.IteratorProtocol
import Wwsearch.Proofs.MockMerge
import Wwsearch.Proofs.MockWire

/-!
# Operands in groups

The operands of one inverted key come in groups. A group is merged in its write
buffer and reaches the database as one list that stands for all of it
(`bufferCalls_group`). There the first list is taken as it comes, and only the
next is merged: after a single flush the tombstones are still in the value, and
a reader does not tell them from documents (`mock_agrees_iff`).
-/

namespace Wwsearch.Ref

open Wwsearch.Lib Wwsearch.Spec

/-! ## A group in its write buffer -/

/-- The buffer holds one merge and nothing else. -/
structure HoldsMerge (b : WriteBufferMock) (key value : Bytes) : Prop where
  entries : ∀ (c : StorageColumnType) (k : Bytes), (b.cfKvList c)[k]? =
    if c = .invertedIndexColumn ∧ k = key then some (value, .kMerge) else none
  ranges : ∀ (c : StorageColumnType) (range : Bytes × Bytes),
    range ∉ b.cfDeleteKeyrangeList c

theorem HoldsMerge.setKvs {b : WriteBufferMock} {key value : Bytes}
    {n : UInt64}
    (hnone : ∀ (c : StorageColumnType) (k : Bytes),
      ¬ (c = .invertedIndexColumn ∧ k = key) → (b.cfKvList c)[k]? = none)
    (hranges : ∀ (c : StorageColumnType) (range : Bytes × Bytes),
      range ∉ b.cfDeleteKeyrangeList c) :
    HoldsMerge { b.setKvs .invertedIndexColumn
      ((b.cfKvList .invertedIndexColumn).insert key (value, .kMerge)) with
        kvCnt := n } key value where
  entries := by
    intro c k
    refine (b.getElem?_setKvs _ key (value, .kMerge) c k).trans ?_
    split
    · rfl
    · next hne => exact hnone c k hne
  ranges := hranges

theorem mentioned_subset {lists lists' : List (List DocList)}
    (h : ∀ d, lastState lists d ≠ none → lastState lists' d ≠ none) :
    (mentioned lists).card ≤ (mentioned lists').card :=
  Finset.card_le_card fun d hd =>
    mem_mentioned_iff.2 (h d (mem_mentioned_iff.1 hd))

/-- A list that stands for others, and one more on top. -/
theorem lastState_merged_pair (below above : List (List DocList))
    (d : DocumentID) : lastState [merged below, merged above] d =
      lastState (below ++ above) d := by
  rw [← List.singleton_append, lastState_append, lastState_singleton,
    lastState_singleton, stateIn_merged, stateIn_merged, lastState_append]

/-- More operands for a buffer that holds some. -/
theorem bufferCalls_more {type : DocListCompressionType} {key : Bytes}
    {group : List Bytes} {lists : List (List DocList)}
    (h : List.Forall₂ Stores group lists) : ∀ {b : WriteBufferMock}
    {value : Bytes} {before : List (List DocList)}, HoldsMerge b key value →
    Encodes value (merged before) →
    (mentioned (before ++ lists)).card < 2 ^ 32 →
    ∃ b' value', (groupCalls key group).foldlM (bufferCall type) b = some b' ∧
      HoldsMerge b' key value' ∧ Encodes value' (merged (before ++ lists)) := by
  induction h with
  | nil =>
      intro b value before hb hvalue _
      rw [List.append_nil]
      exact ⟨b, value, rfl, hb, hvalue⟩
  | @cons operand l group lists hoperand _ ih =>
      intro b value before hb hvalue hcard
      have hl : Encodes operand (merged [l]) := by
        rw [merged_singleton hoperand.wellFormed.desc]
        exact ⟨hoperand.decodes, hoperand.wellFormed⟩
      have hpair : ∀ d, lastState [merged before, merged [l]] d =
          lastState (before ++ [l]) d := lastState_merged_pair before [l]
      have hle : (mentioned [merged before, merged [l]]).card ≤
          (mentioned (before ++ l :: lists)).card := by
        refine mentioned_subset fun d hd => ?_
        rw [hpair] at hd
        rw [← List.singleton_append, ← List.append_assoc, lastState_append]
        simp [hd]
      have hmerge : ∃ out, mergeDoclist WriteBufferMock.change type value
          operand = some out ∧ Encodes out (merged [merged before, merged [l]]) :=
        WriteBufferMock.mergeDoclist_encodes hvalue hl (hle.trans_lt hcard)
      obtain ⟨out, hout, henc⟩ := hmerge
      rw [merged_congr hpair] at henc
      have hentry : (b.cfKvList .invertedIndexColumn)[key]? =
          some (value, .kMerge) := by
        rw [hb.entries, if_pos ⟨rfl, rfl⟩]
      have hcall : bufferCall type b (.merge .invertedIndexColumn key operand) =
          some (b.setKvs .invertedIndexColumn
            ((b.cfKvList .invertedIndexColumn).insert key (out, .kMerge))) := by
        simp only [bufferCall, WriteBufferMock.merge, hentry, hout, ne_eq,
          not_true, if_false]
        rfl
      have hnext := @HoldsMerge.setKvs b key out b.kvCnt
        (fun c k hne => (hb.entries c k).trans (if_neg hne)) hb.ranges
      obtain ⟨b', value', hrun, hholds, hvalue'⟩ := ih hnext henc (by
        rw [List.append_assoc, List.singleton_append]
        exact hcard)
      rw [List.append_assoc, List.singleton_append] at hvalue'
      refine ⟨b', value', ?_, hholds, hvalue'⟩
      rw [groupCalls, List.map_cons, List.foldlM_cons, hcall]
      exact hrun

/-- A group in a new buffer is one list that stands for all of them. -/
theorem bufferCalls_group (type : DocListCompressionType) (key : Bytes)
    {group : List Bytes} {lists : List (List DocList)} (hne : group ≠ [])
    (h : List.Forall₂ Stores group lists)
    (hcard : (mentioned lists).card < 2 ^ 32) :
    ∃ b value, bufferCalls type (groupCalls key group) = some b ∧
      HoldsMerge b key value ∧ Encodes value (merged lists) := by
  cases h with
  | nil => exact absurd rfl hne
  | @cons operand l group lists hoperand hrest =>
      have hfirst := @HoldsMerge.setKvs {} key operand 1
        (fun _ _ _ => Std.ExtTreeMap.getElem?_empty) (fun _ _ => by simp)
      have henc : Encodes operand (merged [l]) := by
        rw [merged_singleton hoperand.wellFormed.desc]
        exact ⟨hoperand.decodes, hoperand.wellFormed⟩
      obtain ⟨b, value, hrun, hholds, hvalue⟩ :=
        bufferCalls_more hrest hfirst henc hcard
      refine ⟨b, value, ?_, hholds, hvalue⟩
      rw [bufferCalls, groupCalls, List.map_cons, List.foldlM_cons]
      exact hrun

/-! ## Group after group -/

/-- The flush of one merge. -/
theorem HoldsMerge.flush {pb : MockPb} {type : DocListCompressionType}
    {b : WriteBufferMock} {key value result : Bytes} (hb : HoldsMerge b key value)
    (hser : Serialized pb b) (db : VirtualDBMock)
    (heff : VirtualDBMock.entryEffect type .invertedIndexColumn
      (db .invertedIndexColumn)[key]? (value, .kMerge) = some (some result)) :
    ∃ db', db.flushBuffer pb type b = some (db', {}) ∧
      (db' .invertedIndexColumn)[key]? = some result := by
  have hdiff := VirtualDBMock.differs_insert db .invertedIndexColumn key result
  refine ⟨_, (VirtualDBMock.flushBuffer_iff
      (WriteBufferMock.serialized_iff.1 hser) ?_).2
    ⟨rfl, fun c k => ?_, fun c range hrange => absurd hrange (hb.ranges c range)⟩,
    (hdiff _ _).trans (if_pos ⟨rfl, rfl⟩)⟩
  · intro c k v
    rw [hb.entries]
    split <;> simp
  · rw [hdiff, hb.entries]
    by_cases hat : c = .invertedIndexColumn ∧ k = key
    · obtain ⟨rfl, rfl⟩ := hat
      simp only [and_self, if_true, heff]
    · simp only [if_neg hat]

/-- What the database has under the key after so many flushes: nothing, the
list of the first group with its tombstones, or a list without any. -/
def Kept (db : VirtualDBMock) (key : Bytes) (lists : List (List DocList)) :
    Nat → Prop
  | 0 => (db .invertedIndexColumn)[key]? = none ∧ lists = []
  | 1 => ∃ value, (db .invertedIndexColumn)[key]? = some value ∧
      Encodes value (merged lists)
  | _ + 2 => ∃ value, (db .invertedIndexColumn)[key]? = some value ∧
      Encodes value (liveMerged lists)

/-- A list that has the same live ids may take the place of the lists below. -/
theorem lastState_live_pair {docs : List DocList}
    {before lists : List (List DocList)}
    (hdocs : ∀ d s, s ≠ kDocumentStateDelete →
      (stateIn docs d = some s ↔ lastState before d = some s))
    (d : DocumentID) (s : DocumentState) (hs : s ≠ kDocumentStateDelete) :
    lastState [docs, merged lists] d = some s ↔
      lastState (before ++ lists) d = some s := by
  rw [← List.singleton_append, lastState_append, lastState_singleton,
    lastState_singleton, stateIn_merged, lastState_append]
  cases lastState lists d with
  | none =>
      rw [Option.none_or, Option.none_or]
      exact hdocs d s hs
  | some t => rfl

theorem stateIn_liveMerged {lists : List (List DocList)} {d : DocumentID}
    {s : DocumentState} : stateIn (liveMerged lists) d = some s ↔
      lastState lists d = some s ∧ s ≠ kDocumentStateDelete :=
  (stateIn_eq_some ((merged_desc lists).filter _)).trans mem_liveMerged

/-- The merge of a group into a list with the same live ids as all before. -/
theorem mergeDoclist_group (type : DocListCompressionType)
    {old value : Bytes} {docs : List DocList}
    {before lists : List (List DocList)} (hold : Encodes old docs)
    (hvalue : Encodes value (merged lists))
    (hdocs : ∀ d s, s ≠ kDocumentStateDelete →
      (stateIn docs d = some s ↔ lastState before d = some s))
    (hsub : ∀ d, stateIn docs d ≠ none → lastState before d ≠ none)
    (hcard : (mentioned (before ++ lists)).card < 2 ^ 32) :
    ∃ out, mergeDoclist VirtualDBMock.change type old value = some out ∧
      Encodes out (liveMerged (before ++ lists)) := by
  rw [← liveMerged_congr (lastState_live_pair hdocs)]
  refine VirtualDBMock.mergeDoclist_encodes hold hvalue ?_
  refine (mentioned_subset fun d hd => ?_).trans_lt hcard
  rw [← List.singleton_append, lastState_append, lastState_singleton,
    lastState_singleton, stateIn_merged] at hd
  rw [lastState_append]
  cases hl : lastState lists d with
  | some t => simp
  | none =>
      rw [hl, Option.none_or] at hd
      rw [Option.none_or]
      exact hsub d hd

/-- From the first flush on there is a list under the key. -/
theorem Kept.exists_old {db : VirtualDBMock} {key : Bytes}
    {lists : List (List DocList)} {n : Nat} (h : Kept db key lists (n + 1)) :
    ∃ old docs, (db .invertedIndexColumn)[key]? = some old ∧
      Encodes old docs ∧
      (∀ d s, s ≠ kDocumentStateDelete →
        (stateIn docs d = some s ↔ lastState lists d = some s)) ∧
      ∀ d, stateIn docs d ≠ none → lastState lists d ≠ none := by
  cases n with
  | zero =>
      obtain ⟨old, hold, henc⟩ := h
      refine ⟨old, _, hold, henc, fun d s _ => ?_, fun d hd => ?_⟩
      · rw [stateIn_merged]
      · rwa [stateIn_merged] at hd
  | succ n =>
      obtain ⟨old, hold, henc⟩ := h
      refine ⟨old, _, hold, henc, fun d s hs => ?_, fun d hd => ?_⟩
      · exact stateIn_liveMerged.trans (and_iff_left hs)
      · obtain ⟨s, hs⟩ := Option.ne_none_iff_exists'.1 hd
        rw [(stateIn_liveMerged.1 hs).1]
        exact Option.some_ne_none s

/-- The flush of a group. -/
theorem Kept.flush {pb : MockPb} {type : DocListCompressionType}
    {db : VirtualDBMock} {key : Bytes} {group : List Bytes}
    {before lists : List (List DocList)} {n : Nat} (hkept : Kept db key before n)
    (hne : group ≠ []) (h : List.Forall₂ Stores group lists)
    (hcard : (mentioned (before ++ lists)).card < 2 ^ 32)
    (hser : ∀ b, bufferCalls type (groupCalls key group) = some b →
      Serialized pb b) :
    ∃ b db', bufferCalls type (groupCalls key group) = some b ∧
      db.flushBuffer pb type b = some (db', {}) ∧
      Kept db' key (before ++ lists) (n + 1) := by
  have hle : (mentioned lists).card ≤ (mentioned (before ++ lists)).card := by
    refine mentioned_subset fun d hd => ?_
    rw [lastState_append]
    cases hl : lastState lists d with
    | none => exact absurd hl hd
    | some t => simp
  obtain ⟨b, value, hrun, hholds, hvalue⟩ :=
    bufferCalls_group type key hne h (hle.trans_lt hcard)
  have hflush := fun result => @HoldsMerge.flush pb type b key value result
    hholds (hser b hrun) db
  cases n with
  | zero =>
      obtain ⟨hnone, rfl⟩ := hkept
      obtain ⟨db', hdb, hget⟩ := hflush value (by
        rw [hnone]
        rfl)
      exact ⟨b, db', hrun, hdb, value, hget, hvalue⟩
  | succ n =>
      obtain ⟨old, docs, hold, henc, hdocs, hsub⟩ := hkept.exists_old
      obtain ⟨out, hout, hlive⟩ :=
        mergeDoclist_group type henc hvalue hdocs hsub hcard
      obtain ⟨db', hdb, hget⟩ := hflush out (by
        rw [hold]
        simp only [VirtualDBMock.entryEffect, ne_eq, not_true, if_false, hout]
        rfl)
      exact ⟨b, db', hrun, hdb, out, hget, hlive⟩

/-- The flushes that have something to write. -/
theorem flushGroups_kept {pb : MockPb} {type : DocListCompressionType}
    {key : Bytes} {groups : List (List Bytes)}
    {lists : List (List (List DocList))}
    (h : List.Forall₂ (List.Forall₂ Stores) groups lists)
    (hser : ∀ group ∈ groups, ∀ b,
      bufferCalls type (groupCalls key group) = some b → Serialized pb b) :
    ∀ {db : VirtualDBMock} {before : List (List DocList)} {n : Nat},
    Kept db key before n →
    (mentioned (before ++ lists.flatten)).card < 2 ^ 32 →
    ∃ db', flushGroups pb type key db groups = some db' ∧
      Kept db' key (before ++ lists.flatten)
        (n + (groups.filter (· ≠ [])).length) := by
  induction h with
  | nil =>
      intro db before n hkept _
      rw [List.flatten_nil, List.append_nil]
      exact ⟨db, rfl, hkept⟩
  | @cons group ls groups lists hgroup _ ih =>
      intro db before n hkept hcard
      have hser' := fun g hg => hser g (List.mem_cons_of_mem group hg)
      rw [List.flatten_cons, ← List.append_assoc] at hcard ⊢
      rw [flushGroups, List.foldlM_cons]
      by_cases hne : group = []
      · subst hne
        cases hgroup
        rw [List.append_nil] at hcard ⊢
        have hempty : db.flushBuffer pb type {} = some (db, {}) := by
          rw [VirtualDBMock.flushBuffer_eq]
          split <;> rfl
        obtain ⟨db', hrun, hkept'⟩ := ih hser' hkept hcard
        refine ⟨db', ?_, ?_⟩
        · show (bufferCalls type []).bind _ >>= _ = _
          rw [bufferCalls, List.foldlM_nil]
          simp only [Option.pure_def, Option.bind_some, hempty]
          exact hrun
        · rw [List.filter_cons_of_neg (by simp)]
          exact hkept'
      · have hle : (mentioned (before ++ ls)).card ≤
            (mentioned (before ++ ls ++ lists.flatten)).card := by
          refine mentioned_subset fun d hd => ?_
          rw [lastState_append]
          cases hl : lastState lists.flatten d with
          | none => simpa using hd
          | some t => simp
        obtain ⟨b, db₁, hb, hflush, hkept₁⟩ := hkept.flush hne hgroup
          (hle.trans_lt hcard) (hser group List.mem_cons_self)
        obtain ⟨db', hrun, hkept'⟩ := ih hser' hkept₁ hcard
        refine ⟨db', ?_, ?_⟩
        · simp only [hb, hflush, Option.bind_eq_bind, Option.bind_some]
          exact hrun
        · rw [List.filter_cons_of_pos (by simpa using hne), List.length_cons,
            Nat.add_comm _ 1, ← Nat.add_assoc]
          exact hkept'

/-! ## Against the merge operator -/

/-- A reader shows every id of its list. -/
theorem enumerate_reader {docs : List DocList} (h : ReadableList docs)
    (fieldId : Int) : ∃ ids, Settles (fun fuel =>
        DocIdSetIterator.enumerate fuel (.reader { slice := docs, fieldId }))
          ids ∧ ∀ d, d ∈ ids ↔ ∃ doc ∈ docs, doc.docId = d := by
  have hstand : Standing 0 (.reader { slice := docs, fieldId }) := .reader h
  obtain ⟨ids, hids, -, hmem⟩ := enumerate_settles hstand
  refine ⟨ids, hids, fun d => (hmem d).trans ?_⟩
  rw [idsOf, Set.mem_ofPred_eq, and_iff_left_iff_imp]
  rintro ⟨doc, hdoc, rfl⟩
  -- the reader stands on the largest id
  cases docs with
  | nil => exact absurd hdoc List.not_mem_nil
  | cons first rest =>
      show doc.docId ≤ first.docId
      rcases List.mem_cons.1 hdoc with rfl | hrest
      · exact le_refl _
      · exact ((List.pairwise_cons.1 h.desc).1 doc hrest).le

theorem mem_fullMerge_ids {n : Nat} {lists : List (List DocList)}
    (hcard : (mentioned lists).card ≤ n) (d : DocumentID) :
    d ∈ (fullMerge n lists).map (·.docId) ↔
      lastState lists d = some kDocumentStateOK := by
  rw [← mem_topLive_of_card
    ((Finset.card_le_card (Finset.filter_subset _ _)).trans hcard), fullMerge,
    List.map_map]
  show d ∈ (topLive n lists).map id ↔ _
  rw [List.map_id]

theorem length_filter_ne_zero {α : Type} {groups : List (List α)}
    [DecidablePred fun group : List α => group ≠ []]
    (h : groups.flatten ≠ []) : (groups.filter (· ≠ [])).length ≠ 0 := by
  intro hzero
  refine h (List.flatten_eq_nil_iff.2 fun group hgroup => ?_)
  by_contra hne
  have hmem : group ∈ groups.filter (· ≠ []) :=
    List.mem_filter.2 ⟨hgroup, decide_eq_true hne⟩
  rw [List.length_eq_zero_iff.1 hzero] at hmem
  exact List.not_mem_nil hmem

section Shown

variable {lists : List (List DocList)} (hwf : ∀ l ∈ lists, WellFormed l)

/-- After one flush a reader shows every id that is mentioned. -/
theorem mem_merged_ids (d : DocumentID) :
    (∃ doc ∈ merged lists, doc.docId = d) ↔ lastState lists d ≠ none := by
  constructor
  · rintro ⟨doc, hdoc, rfl⟩
    rw [mem_merged.1 hdoc]
    exact Option.some_ne_none _
  · intro hs
    obtain ⟨s, hs⟩ := Option.ne_none_iff_exists'.1 hs
    exact ⟨⟨d, s⟩, mem_merged.2 hs, rfl⟩

include hwf

/-- After more of them it shows the live ids. -/
theorem mem_liveMerged_ids (d : DocumentID) :
    (∃ doc ∈ liveMerged lists, doc.docId = d) ↔
      lastState lists d = some kDocumentStateOK := by
  constructor
  · rintro ⟨doc, hdoc, rfl⟩
    obtain ⟨hs, hlive⟩ := mem_liveMerged.1 hdoc
    rcases lastState_cases hwf hs with hok | hdel
    · rw [hs, hok]
    · exact absurd hdel hlive
  · intro hs
    exact ⟨⟨d, kDocumentStateOK⟩, mem_liveMerged.2 ⟨hs,
      by simp [kDocumentStateOK, kDocumentStateDelete]⟩, rfl⟩

theorem merged_ids_live_iff :
    (∀ d, (∃ doc ∈ merged lists, doc.docId = d) ↔
      lastState lists d = some kDocumentStateOK) ↔
    ∀ d, lastState lists d ≠ some kDocumentStateDelete := by
  simp only [mem_merged_ids]
  constructor
  · intro hall d hdel
    have hok := (hall d).1 (by rw [hdel]; exact Option.some_ne_none _)
    rw [hdel] at hok
    exact absurd hok (by decide)
  · intro hlive d
    cases hs : lastState lists d with
    | none => simp
    | some s =>
        rcases lastState_cases hwf hs with rfl | rfl
        · simp
        · exact absurd hs (hlive d)

/-- The ids of the value that so many flushes leave. -/
theorem Kept.shows {db : VirtualDBMock} {key : Bytes} {n : Nat}
    (h : Kept db key lists n) (hn : n ≠ 0) :
    ∃ value docs, (db .invertedIndexColumn)[key]? = some value ∧
      Encodes value docs ∧
      ((∀ d, (∃ doc ∈ docs, doc.docId = d) ↔
        lastState lists d = some kDocumentStateOK) ↔
        2 ≤ n ∨ ∀ d, lastState lists d ≠ some kDocumentStateDelete) := by
  rcases n with _ | _ | n
  · exact absurd rfl hn
  · obtain ⟨value, hget, henc⟩ := h
    refine ⟨value, _, hget, henc, (merged_ids_live_iff hwf).trans ?_⟩
    exact (or_iff_right (by decide)).symm
  · obtain ⟨value, hget, henc⟩ := h
    exact ⟨value, _, hget, henc,
      iff_of_true (mem_liveMerged_ids hwf) (.inl (Nat.le_add_left 2 n))⟩

end Shown

/-- **When the two backends agree.** Operands of one inverted key, in groups
that are flushed one after the other: a reader of the value in memory shows the
ids of the full merge exactly if two groups at least had something to write, or
no operand leaves an id deleted. -/
theorem mock_agrees_iff (pb : MockPb) (type : DocListCompressionType)
    (op : DocListMergeOperator) {groups : List (List Bytes)}
    {lists : List (List (List DocList))}
    (h : List.Forall₂ (List.Forall₂ Stores) groups lists)
    (hne : groups.flatten ≠ [])
    (hcard : (mentioned lists.flatten).card ≤ op.maxDocListNum.toNat)
    {db : VirtualDBMock} {key : Bytes}
    (habsent : (db .invertedIndexColumn)[key]? = none)
    (hser : ∀ group ∈ groups, ∀ b,
      bufferCalls type (groupCalls key group) = some b → Serialized pb b)
    (fieldId : Int) :
    ∃ db' value reader ids out docs,
      flushGroups pb type key db groups = some db' ∧
      VirtualDBMock.get db' .invertedIndexColumn key = ({}, value) ∧
      newDocListReaderCodec value fieldId = some reader ∧
      Settles (fun fuel => DocIdSetIterator.enumerate fuel (.reader reader))
        ids ∧
      op.fullMergeV2 none groups.flatten = some (true, out) ∧
      docListOf out = some docs ∧
      ((∀ d, d ∈ ids ↔ d ∈ docs.map (·.docId)) ↔
        2 ≤ (groups.filter (· ≠ [])).length ∨
          ∀ d, lastState lists.flatten d ≠ some kDocumentStateDelete) := by
  have hflat : List.Forall₂ Stores groups.flatten lists.flatten :=
    List.rel_flatten h
  have hwf := Stores.wellFormed_all hflat
  have hstart : Kept db key [] 0 := ⟨habsent, rfl⟩
  obtain ⟨db', hrun, hkept⟩ := flushGroups_kept h hser hstart
    (by rw [List.nil_append]
        exact hcard.trans_lt op.maxDocListNum.toNat_lt)
  obtain ⟨out, hout, -, hread⟩ := fullMergeV2_eq op none hne hflat
  rw [List.nil_append, Nat.zero_add] at hkept
  obtain ⟨value, docs, hget, henc, hiff⟩ :=
    hkept.shows hwf (length_filter_ne_zero hne)
  obtain ⟨ids, hids, hmem⟩ := enumerate_reader
    ⟨henc.wellFormed.desc, henc.wellFormed.nonzero⟩ fieldId
  refine ⟨db', value, _, ids, out, _, hrun, ?_, henc.newDocListReaderCodec
    fieldId, hids, hout, hread, ?_⟩
  · rw [VirtualDBMock.get, hget]
  · rw [← hiff]
    exact forall_congr' fun d => by rw [hmem, mem_fullMerge_ids hcard]

/-- Document 7 is put into the list of a key, and then deleted. -/
def putSeven : Bytes := 0 :: fixBody [⟨7, kDocumentStateOK⟩]

def deleteSeven : Bytes := 0 :: fixBody [⟨7, kDocumentStateDelete⟩]

theorem stores_seven :
    Stores putSeven [⟨7, 0⟩] ∧ Stores deleteSeven [⟨7, 1⟩] :=
  ⟨⟨by decide, docListOf_fix _, by decide, by decide, by decide⟩,
    ⟨by decide, docListOf_fix _, by decide, by decide, by decide⟩⟩

/-- Serialized in the sense of a run that can be computed. -/
theorem serialized_of_run {calls : List Mutation}
    (h : (bufferCalls .fixType calls).map
      (fun b => (b.seriableData mockWire).2.ok) = some true) :
    ∀ b, bufferCalls .fixType calls = some b → Serialized mockWire b := by
  intro b hb
  rw [hb] at h
  exact Option.some.inj h

/-- Put and delete in two flushes. -/
theorem mock_agrees_iff_seven :
    ∃ db' value reader ids out docs,
      flushGroups mockWire .fixType [1] (fun _ => ∅)
        [[putSeven], [deleteSeven]] = some db' ∧
      VirtualDBMock.get db' .invertedIndexColumn [1] = ({}, value) ∧
      newDocListReaderCodec value (-1) = some reader ∧
      Settles (fun fuel => DocIdSetIterator.enumerate fuel (.reader reader))
        ids ∧
      twoDocsOperator.fullMergeV2 none [putSeven, deleteSeven] =
        some (true, out) ∧
      docListOf out = some docs ∧ ∀ d, d ∈ ids ↔ d ∈ docs.map (·.docId) := by
  have hids : (mentioned [[⟨7, 0⟩], [⟨7, 1⟩]]).card ≤ 2 :=
    List.toFinset_card_le _
  have habsent : ((fun _ => ∅ : VirtualDBMock)
      .invertedIndexColumn)[([1] : Bytes)]? = none :=
    Std.ExtTreeMap.getElem?_empty
  have hser : ∀ group ∈ [[putSeven], [deleteSeven]], ∀ b,
      bufferCalls .fixType (groupCalls [1] group) = some b →
        Serialized mockWire b := by
    intro group hgroup
    rcases List.mem_pair.1 hgroup with rfl | rfl
    · exact serialized_of_run (by decide +kernel)
    · exact serialized_of_run (by decide +kernel)
  obtain ⟨db', value, reader, ids, out, docs, hrun, hget, hreader, hshow, hmerge,
    hdocs, hiff⟩ := @mock_agrees_iff mockWire .fixType twoDocsOperator _ _
      (.cons (.cons stores_seven.1 .nil) (.cons (.cons stores_seven.2 .nil) .nil))
      (List.cons_ne_nil putSeven [deleteSeven]) hids (fun _ => ∅) [1]
      habsent hser (-1)
  exact ⟨db', value, reader, ids, out, docs, hrun, hget, hreader, hshow, hmerge,
    hdocs, hiff.2 (.inl (by decide))⟩

/-- Put and delete in one write buffer: the full merge is empty, and in memory
a reader still shows document 7. -/
theorem mock_shows_deleted :
    Stores putSeven [⟨7, 0⟩] ∧ Stores deleteSeven [⟨7, 1⟩] ∧
    ((flushGroups mockWire .fixType [1] (fun _ => ∅)
      [[putSeven, deleteSeven]]).bind fun db =>
        (newDocListReaderCodec (VirtualDBMock.get db .invertedIndexColumn
          [1]).2 (-1)).bind fun reader =>
            DocIdSetIterator.enumerate 3 (.reader reader)) = some [7] ∧
    ((twoDocsOperator.fullMergeV2 none [putSeven, deleteSeven]).bind
      fun merge => docListOf merge.2) = some [] :=
  ⟨stores_seven.1, stores_seven.2, by decide +kernel, by decide +kernel⟩

end Wwsearch.Ref
