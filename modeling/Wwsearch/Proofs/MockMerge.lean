import Mathlib.Data.List.TakeWhile
import Wwsearch.Proofs.MergeOperator
import Wwsearch.Proofs.MockFlush

/-!
# Merging in memory

Both merges of the store in memory go through a map from ids to states, record
by record, and write what the map holds. So a merge in a write buffer writes the
merged map of the reference, tombstones and all
(`WriteBufferMock.mergeDoclist_eq`), and a merge into the database writes its
live part (`VirtualDBMock.mergeDoclist_eq`).
-/

namespace Wwsearch.Spec

open Wwsearch.Lib Wwsearch.Ref

/-! ## Record by record -/

theorem lastState_oneByOne_cons (doc : DocList) (docs : List DocList)
    (d : DocumentID) : lastState (oneByOne (doc :: docs)) d =
      (lastState (oneByOne docs) d).or
        (if doc.docId = d then some doc.docState else none) := by
  have hone : stateIn [doc] d =
      if doc.docId = d then some doc.docState else none := by
    rw [stateIn, List.find?_singleton]
    by_cases h : doc.docId = d
    · simp [h]
    · simp [h]
  rw [oneByOne, List.map_cons, ← List.singleton_append, lastState_append,
    lastState_singleton, hone]
  rfl

theorem lastState_oneByOne_append (below above : List DocList)
    (d : DocumentID) : lastState (oneByOne (below ++ above)) d =
      (lastState (oneByOne above) d).or (lastState (oneByOne below) d) := by
  rw [oneByOne, List.map_append]
  exact lastState_append _ _ d

/-- In a descending list an id has one record. -/
theorem lastState_oneByOne {docs : List DocList}
    (hdesc : docs.Pairwise (fun a b => b.docId < a.docId)) (d : DocumentID) :
    lastState (oneByOne docs) d = stateIn docs d := by
  induction docs with
  | nil => rfl
  | cons doc docs ih =>
      obtain ⟨hlt, hrest⟩ := List.pairwise_cons.1 hdesc
      rw [lastState_oneByOne_cons, ih hrest, stateIn, stateIn, List.find?_cons]
      by_cases h : doc.docId = d
      · have hnone : docs.find? (fun e => e.docId == d) = none := by
          rw [List.find?_eq_none]
          intro e he heq
          have := hlt e he
          rw [h, eq_of_beq heq] at this
          exact lt_irrefl d this
        rw [hnone, if_pos h, beq_iff_eq.2 h]
        rfl
      · rw [if_neg h, Option.or_none, beq_false_of_ne h]

theorem merged_congr {lists lists' : List (List DocList)}
    (h : ∀ d, lastState lists d = lastState lists' d) :
    merged lists = merged lists' := by
  have hids : mentioned lists = mentioned lists' := by
    ext d
    rw [mem_mentioned_iff, mem_mentioned_iff, h]
  rw [merged, merged, hids]
  exact List.map_congr_left fun d _ => by rw [h]

/-- A descending list of records is determined by its members. -/
theorem docs_eq_of_desc {l l' : List DocList}
    (h : l.Pairwise (fun a b => b.docId < a.docId))
    (h' : l'.Pairwise (fun a b => b.docId < a.docId))
    (hmem : ∀ doc, doc ∈ l ↔ doc ∈ l') : l = l' := by
  have hnodup : ∀ {l : List DocList},
      l.Pairwise (fun a b => b.docId < a.docId) → l.Nodup := by
    intro l hl
    refine hl.imp fun {a b} hlt heq => ?_
    rw [heq] at hlt
    exact lt_irrefl _ hlt
  exact ((List.perm_ext_iff_of_nodup (hnodup h) (hnodup h')).2
    hmem).eq_of_pairwise
      (fun a b _ _ hab hba => absurd hab hba.not_gt) h h'

theorem stateIn_merged (lists : List (List DocList)) (d : DocumentID) :
    stateIn (merged lists) d = lastState lists d :=
  Option.ext fun _ => (stateIn_eq_some (merged_desc lists)).trans mem_merged

theorem merged_singleton {l : List DocList}
    (hdesc : l.Pairwise (fun a b => b.docId < a.docId)) : merged [l] = l := by
  refine docs_eq_of_desc (merged_desc _) hdesc fun doc => ?_
  rw [mem_merged, lastState_singleton, stateIn_eq_some hdesc]

theorem merged_wellFormed {lists : List (List DocList)}
    (hwf : ∀ l ∈ lists, WellFormed l) : WellFormed (merged lists) where
  desc := merged_desc lists
  nonzero := by
    intro e he
    obtain ⟨d, hd, rfl⟩ := List.mem_map.1 he
    exact ne_zero_of_mentioned hwf (mem_descending.1 hd)
  state := fun e he => lastState_cases hwf (mem_merged.1 he)

theorem WellFormed.filter {l : List DocList} (h : WellFormed l)
    (p : DocList → Bool) : WellFormed (l.filter p) where
  desc := h.desc.filter p
  nonzero := fun e he => h.nonzero e (List.mem_of_mem_filter he)
  state := fun e he => h.state e (List.mem_of_mem_filter he)

theorem length_merged (lists : List (List DocList)) :
    (merged lists).length = (mentioned lists).card := by
  rw [merged, List.length_map, descending, Finset.length_sort]

theorem mem_liveMerged {lists : List (List DocList)} {doc : DocList} :
    doc ∈ liveMerged lists ↔ lastState lists doc.docId = some doc.docState ∧
      doc.docState ≠ kDocumentStateDelete := by
  rw [liveMerged, List.mem_filter, mem_merged, decide_eq_true_iff]

theorem liveMerged_congr {lists lists' : List (List DocList)}
    (h : ∀ d s, s ≠ kDocumentStateDelete →
      (lastState lists d = some s ↔ lastState lists' d = some s)) :
    liveMerged lists = liveMerged lists' := by
  refine docs_eq_of_desc ((merged_desc _).filter _) ((merged_desc _).filter _)
    fun doc => ?_
  show doc ∈ liveMerged lists ↔ doc ∈ liveMerged lists'
  rw [mem_liveMerged, mem_liveMerged]
  exact and_congr_left fun hlive => h _ _ hlive

end Wwsearch.Spec

namespace Wwsearch.Ref

open Wwsearch.Lib Wwsearch.Spec

/-! ## The two maps -/

/-- A buffer's map has the last state of each id. -/
theorem WriteBufferMock.getElem?_change (docs : List DocList) (m : DocStates)
    (d : DocumentID) : (docs.foldl change m)[d]? =
      (lastState (oneByOne docs) d).or m[d]? := by
  induction docs generalizing m with
  | nil => rfl
  | cons doc docs ih =>
      rw [List.foldl_cons, ih, change, lastState_oneByOne_cons,
        Std.ExtTreeMap.getElem?_insert, Option.or_assoc]
      simp only [Std.compare_eq_iff_eq]
      split <;> rfl

theorem filter_state {state : Option DocumentState}
    (h : state ≠ some kDocumentStateDelete) :
    state.filter (fun state => state ≠ kDocumentStateDelete) = state := by
  cases state with
  | none => rfl
  | some s => rw [Option.filter_some, if_pos (by simpa using h)]

/-- The database's map has the last state of each id that is not deleted. -/
theorem VirtualDBMock.getElem?_change (docs : List DocList) {m : DocStates}
    (hm : ∀ d : DocumentID, m[d]? ≠ some kDocumentStateDelete) (d : DocumentID) :
    (docs.foldl change m)[d]? = ((lastState (oneByOne docs) d).or m[d]?).filter
      (fun state => state ≠ kDocumentStateDelete) := by
  induction docs generalizing m with
  | nil =>
      exact (filter_state (hm d)).symm
  | cons doc docs ih =>
      have hhead : ∀ x : DocumentID, (change m doc)[x]? =
          ((if doc.docId = x then some doc.docState else none).or m[x]?).filter
            (fun state => state ≠ kDocumentStateDelete) := by
        intro x
        rw [change]
        split
        · next hdel =>
            rw [Std.ExtTreeMap.getElem?_erase]
            simp only [Std.compare_eq_iff_eq]
            split
            · rw [hdel]
              rfl
            · exact (filter_state (hm x)).symm
        · next hlive =>
            rw [Std.ExtTreeMap.getElem?_insert]
            simp only [Std.compare_eq_iff_eq]
            split
            · rw [Option.some_or, Option.filter_some, if_pos (by simpa using hlive)]
            · exact (filter_state (hm x)).symm
      have hclean : ∀ x : DocumentID,
          (change m doc)[x]? ≠ some kDocumentStateDelete := by
        intro x h
        rw [hhead, Option.filter_eq_some_iff] at h
        exact absurd h.2 (by simp)
      rw [List.foldl_cons, ih hclean, hhead, lastState_oneByOne_cons,
        Option.or_assoc]
      cases lastState (oneByOne docs) d with
      | some state => rfl
      | none =>
          rw [Option.none_or, Option.none_or, Option.filter_filter]
          simp

/-- A map from ids to states, largest id first. -/
theorem reverse_toList {m : DocStates} {docs : List DocList}
    (hdesc : docs.Pairwise (fun a b => b.docId < a.docId))
    (h : ∀ doc : DocList, doc ∈ docs ↔ m[doc.docId]? = some doc.docState) :
    (m.toList.reverse.map fun doc => (⟨doc.1, doc.2⟩ : DocList)) = docs := by
  have hmap : (m.toList.reverse.map
      fun doc => (⟨doc.1, doc.2⟩ : DocList)).Pairwise
        (fun a b => b.docId < a.docId) := by
    rw [List.pairwise_map, List.pairwise_reverse]
    exact Std.ExtTreeMap.ordered_keys_toList.imp fun hlt =>
      compare_lt_iff_lt.1 hlt
  refine docs_eq_of_desc hmap hdesc fun doc => ?_
  rw [h, ← Std.ExtTreeMap.mem_toList_iff_getElem?_eq_some, List.mem_map]
  constructor
  · rintro ⟨kv, hkv, rfl⟩
    exact List.mem_reverse.1 hkv
  · intro hkv
    exact ⟨_, List.mem_reverse.2 hkv, rfl⟩

theorem mergeDoclist_eq {change : DocStates → DocList → DocStates}
    {type : DocListCompressionType} {old value : Bytes}
    {oldDocs docs : List DocList} (hold : recordsOf old = some oldDocs)
    (hvalue : recordsOf value = some docs) :
    mergeDoclist change type old value =
      buildValueString type ((oldDocs ++ docs).foldl change ∅) := by
  have hhandle : ∀ {data : Bytes} {l : List DocList} (m : DocStates),
      recordsOf data = some l →
      handleDoclist change data m = some (l.foldl change m) := by
    intro data l m hl
    obtain ⟨reader, hreader, rfl⟩ := Option.map_eq_some_iff.1 hl
    rw [handleDoclist, hreader]
    rfl
  rw [mergeDoclist, hhandle ∅ hold, Option.bind_eq_bind, Option.bind_some,
    hhandle _ hvalue, Option.bind_some, List.foldl_append]

theorem mergeDoclist_eq_some {change : DocStates → DocList → DocStates}
    {type : DocListCompressionType} {old value result : Bytes}
    (h : mergeDoclist change type old value = some result) :
    ∃ oldDocs docs, recordsOf old = some oldDocs ∧
      recordsOf value = some docs := by
  rw [mergeDoclist, handleDoclist, Option.bind_eq_bind,
    Option.bind_eq_some_iff] at h
  obtain ⟨m, hm, hrest⟩ := h
  obtain ⟨reader, hreader, -⟩ := Option.bind_eq_some_iff.1 hm
  rw [handleDoclist, Option.bind_eq_some_iff] at hrest
  obtain ⟨m', hm', -⟩ := hrest
  obtain ⟨reader', hreader', -⟩ := Option.bind_eq_some_iff.1 hm'
  refine ⟨reader.remaining, reader'.remaining, ?_, ?_⟩
  · rw [recordsOf, hreader]
    rfl
  · rw [recordsOf, hreader']
    rfl

theorem buildValueString_eq {type : DocListCompressionType} {m : DocStates}
    {docs : List DocList}
    (hdesc : docs.Pairwise (fun a b => b.docId < a.docId))
    (h : ∀ doc : DocList, doc ∈ docs ↔ m[doc.docId]? = some doc.docState) :
    buildValueString type m = mergeValue (writeDocList type docs) := by
  rw [buildValueString, reverse_toList hdesc h]
  cases writeDocList type docs with
  | none => rfl
  | some result =>
      obtain ⟨ok, value⟩ := result
      cases ok <;> rfl

/-- A merge in a buffer writes the merged map. -/
theorem WriteBufferMock.mergeDoclist_eq {type : DocListCompressionType}
    {old value : Bytes} {oldDocs docs : List DocList}
    (hold : recordsOf old = some oldDocs)
    (hvalue : recordsOf value = some docs) :
    mergeDoclist change type old value = mergeValue (writeDocList type
      (merged (oneByOne (oldDocs ++ docs)))) := by
  rw [Ref.mergeDoclist_eq hold hvalue]
  refine buildValueString_eq (merged_desc _) fun doc => ?_
  rw [mem_merged, getElem?_change, Std.ExtTreeMap.getElem?_empty,
    Option.or_none]

/-- A merge into the database writes the live part of the merged map. -/
theorem VirtualDBMock.mergeDoclist_eq {type : DocListCompressionType}
    {old value : Bytes} {oldDocs docs : List DocList}
    (hold : recordsOf old = some oldDocs)
    (hvalue : recordsOf value = some docs) :
    mergeDoclist change type old value = mergeValue (writeDocList type
      (liveMerged (oneByOne (oldDocs ++ docs)))) := by
  rw [Ref.mergeDoclist_eq hold hvalue]
  refine buildValueString_eq ((merged_desc _).filter _) fun doc => ?_
  show doc ∈ liveMerged _ ↔ _
  rw [mem_liveMerged, getElem?_change _ (by simp),
    Std.ExtTreeMap.getElem?_empty, Option.or_none, Option.filter_eq_some_iff,
    decide_eq_true_iff]

/-! ## Values that are read back -/

/-- The value of a well-formed list. -/
structure Encodes (value : Bytes) (docs : List DocList) : Prop where
  decodes : docListOf value = some docs
  wellFormed : WellFormed docs

namespace Encodes

variable {type : DocListCompressionType} {value : Bytes} {docs : List DocList}

theorem newDocListReaderCodec (h : Encodes value docs) (fieldId : Int) :
    newDocListReaderCodec value fieldId = some { slice := docs, fieldId } := by
  rw [Ref.newDocListReaderCodec, if_neg, h.decodes]
  · rfl
  · rintro rfl
    exact absurd h.decodes (by simp [docListOf, decodeDocListToFixBytes])

theorem recordsOf (h : Encodes value docs) : recordsOf value = some docs := by
  rw [Spec.recordsOf, h.newDocListReaderCodec]
  refine congrArg some (List.takeWhile_eq_self_iff.2 fun doc hdoc => ?_)
  rw [List.drop_zero] at hdoc
  exact decide_eq_true (h.wellFormed.nonzero doc hdoc)

theorem of_write (hwf : WellFormed docs) (hlen : docs.length < 2 ^ 32) :
    ∃ out, mergeValue (writeDocList type docs) = some out ∧
      Encodes out docs := by
  have hnum := (List.length_filter_le (fun doc => doc.docState ≠ 0)
    docs).trans_lt hlen
  obtain ⟨out, hout⟩ := writeDocList_isSome hwf type hnum
  refine ⟨out, by rw [hout]; rfl, docListOf_writeDocList hwf hnum ?_ hout, hwf⟩
  intro _ p hp
  have hlt := (le_of_mem_deletePositions hp).2
  omega

end Encodes

section Merges

variable {type : DocListCompressionType} {old value : Bytes}
  {oldDocs docs : List DocList}

theorem merged_append_oneByOne (hold : WellFormed oldDocs)
    (hdocs : WellFormed docs) (d : DocumentID) :
    lastState (oneByOne (oldDocs ++ docs)) d = lastState [oldDocs, docs] d := by
  rw [lastState_oneByOne_append, lastState_oneByOne hdocs.desc,
    lastState_oneByOne hold.desc, ← List.singleton_append, lastState_append,
    lastState_singleton, lastState_singleton]

theorem wellFormed_pair (hold : WellFormed oldDocs) (hdocs : WellFormed docs) :
    ∀ l ∈ [oldDocs, docs], WellFormed l := by
  intro l hl
  rcases List.mem_pair.1 hl with rfl | rfl
  · exact hold
  · exact hdocs

/-- Two values merged in a buffer. -/
theorem WriteBufferMock.mergeDoclist_encodes (hold : Encodes old oldDocs)
    (hvalue : Encodes value docs)
    (hcard : (mentioned [oldDocs, docs]).card < 2 ^ 32) :
    ∃ out, mergeDoclist change type old value = some out ∧
      Encodes out (merged [oldDocs, docs]) := by
  rw [mergeDoclist_eq hold.recordsOf hvalue.recordsOf,
    merged_congr (merged_append_oneByOne hold.wellFormed hvalue.wellFormed)]
  refine Encodes.of_write (merged_wellFormed
    (wellFormed_pair hold.wellFormed hvalue.wellFormed)) ?_
  rw [length_merged]
  exact hcard

/-- A value merged into the database. -/
theorem VirtualDBMock.mergeDoclist_encodes (hold : Encodes old oldDocs)
    (hvalue : Encodes value docs)
    (hcard : (mentioned [oldDocs, docs]).card < 2 ^ 32) :
    ∃ out, mergeDoclist change type old value = some out ∧
      Encodes out (liveMerged [oldDocs, docs]) := by
  have hlive : liveMerged (oneByOne (oldDocs ++ docs)) =
      liveMerged [oldDocs, docs] := liveMerged_congr fun d s _ => by
    rw [merged_append_oneByOne hold.wellFormed hvalue.wellFormed]
  rw [mergeDoclist_eq hold.recordsOf hvalue.recordsOf, hlive]
  refine Encodes.of_write ((merged_wellFormed
    (wellFormed_pair hold.wellFormed hvalue.wellFormed)).filter _) ?_
  rw [← length_merged] at hcard
  exact (List.length_filter_le _ _).trans_lt hcard

end Merges

end Wwsearch.Ref
