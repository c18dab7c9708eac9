import Wwsearch.Proofs.Snapshot
import Wwsearch.Proofs.TableScan
import Wwsearch.Spec.Tables

/-!
# What is read of a table

Everything that is read of a table are values of its keys. A read of one key is
of such a key. A scan goes on past the last of them, and what it finds there
ends it, so the scan is determined by what comes before; only the status of a
prefix leaf at its limit is not. How a value came about cannot be seen: a list
that was merged from many operands reads like one that was put.
-/

namespace Wwsearch.Spec

open Wwsearch.Lib Wwsearch.Ref Wwsearch.Ref.DocumentWriter

variable {config : IndexConfig} {faults : Faults} {op : DocListMergeOperator}
  {u : TableID} {db db' : VirtualDB}

/-! ## Reads of one key -/

theorem SameReads.get (h : SameReads op u db db') (column : StorageColumnType)
    {key : Bytes} (hkey : encodeMetaKey u <+: key) :
    db'.get op column key = db.get op column key := by
  have hvalue := congrArg (Option.bind · id) (h column key hkey)
  simp only [Option.bind_map, Function.id_comp] at hvalue
  exact hvalue

theorem SameReads.getStatus (h : SameReads op u db db')
    (column : StorageColumnType) {key : Bytes}
    (hkey : encodeMetaKey u <+: key) :
    db'.getStatus faults op column key = db.getStatus faults op column key :=
  getStatus_congr (h.get column hkey) faults

theorem SameReads.innerGetField (h : SameReads op u db db')
    (mode : EncodeTarget) (document : Document) :
    Searcher.innerGetField config faults op u db' mode document =
      Searcher.innerGetField config faults op u db mode document := by
  rw [Searcher.innerGetField, Searcher.innerGetField,
    h.getStatus _ (prefix_storedFieldKey u _)]

theorem SameReads.acquireCurrentSequence (h : SameReads op u db db')
    (currentMax : UInt64) (items : List AllocSequence) :
    DocumentWriter.acquireCurrentSequence faults op u db' currentMax items =
      DocumentWriter.acquireCurrentSequence faults op u db currentMax items := by
  simp only [DocumentWriter.acquireCurrentSequence,
    h.getStatus _ (prefix_sequenceMetaKey u),
    h.getStatus _ (prefix_sequenceMappingKey u _)]

/-! ## Scans -/

/-- Keys and values, as far as there are any. -/
def entryValues (op : DocListMergeOperator) (entries : List (Bytes × Cell)) :
    List (Bytes × Option Bytes) :=
  entries.map fun x => (x.1, VirtualDB.cellValue op x.2)

/-- An iterator shows values. -/
theorem readableEntries_congr : ∀ {entries entries' : List (Bytes × Cell)},
    entryValues op entries = entryValues op entries' →
    readableEntries op entries = readableEntries op entries'
  | [], [], _ => rfl
  | [], _ :: _, h => by cases h
  | _ :: _, [], h => by cases h
  | (key, cell) :: entries, (key', cell') :: entries', h => by
      obtain ⟨hx, hrest⟩ := List.cons.inj h
      obtain ⟨rfl, hvalue⟩ := Prod.mk.inj hx
      rw [readableEntries, readableEntries, hvalue, readableEntries_congr hrest]

theorem SameReads.entryValues (h : SameReads op u db db')
    (column : StorageColumnType) {p : Bytes} (hp : encodeMetaKey u <+: p) :
    Spec.entryValues op (prefixEntries (db' column) p) =
      Spec.entryValues op (prefixEntries (db column) p) := by
  have hmap : ∀ col : Column, Spec.entryValues op (prefixEntries col p) =
      ((col.filter fun key _ => p.isPrefixOf key).map
        fun _ => VirtualDB.cellValue op).toList := by
    intro col
    rw [Std.ExtTreeMap.toList_map, Std.ExtTreeMap.toList_filter]
    rfl
  rw [hmap, hmap]
  refine congrArg Std.ExtTreeMap.toList (Std.ExtTreeMap.ext_getElem? fun key => ?_)
  have hfilter : ∀ (b : Bool) (cell : Option Cell),
      cell.filter (fun _ => b) = if b then cell else none := by
    intro b cell
    cases cell with
    | none => exact (ite_self none).symm
    | some x => rfl
  rw [Std.ExtTreeMap.getElem?_map, Std.ExtTreeMap.getElem?_map,
    Std.ExtTreeMap.getElem?_filter', Std.ExtTreeMap.getElem?_filter', hfilter,
    hfilter]
  split
  · next hkey => exact h column key (hp.trans (List.isPrefixOf_iff_prefix.1 hkey))
  · rfl

/-- From a key of the table on, the two databases show the same of the
table. -/
theorem SameReads.seek_takeWhile (h : SameReads op u db db')
    (column : StorageColumnType) {p start : Bytes}
    (hp : encodeMetaKey u <+: p) (hstart : p <+: start) :
    (db'.seek op column start).takeWhile (fun x => p.isPrefixOf x.1) =
      (db.seek op column start).takeWhile fun x => p.isPrefixOf x.1 := by
  have hfrom : ∀ entries : List (Bytes × Cell), Spec.entryValues op
      (entries.filter fun x => compare start x.1 != .gt) =
        (Spec.entryValues op entries).filter
          fun x => compare start x.1 != .gt := by
    intro entries
    rw [Spec.entryValues, Spec.entryValues, List.filter_map]
    rfl
  rw [Ref.seek_takeWhile op db' column hstart,
    Ref.seek_takeWhile op db column hstart]
  refine readableEntries_congr ?_
  rw [hfrom, hfrom, h.entryValues column hp]

/-- The entries behind the start key, where it comes first. -/
def skipStart (startKey : Bytes) :
    List (Bytes × Bytes) → List (Bytes × Bytes)
  | (key, value) :: rest =>
      if key = startKey then rest else (key, value) :: rest
  | [] => []

/-- A page begins with what the table has of it. -/
theorem scanEntries_split {column : StorageColumnType} {startKey : Bytes}
    (hstart : startKey = [] ∨ encodeMetaKey u <+: startKey) :
    ∃ others, (∀ x ∈ others, (encodeMetaKey u).isPrefixOf x.1 = false) ∧
      Searcher.scanEntries op db column (encodeMetaKey u) startKey =
        skipStart startKey ((db.seek op column
          (if startKey = [] then encodeMetaKey u else startKey)).takeWhile
            fun x => (encodeMetaKey u).isPrefixOf x.1) ++ others := by
  by_cases hempty : startKey = []
  · obtain ⟨others, hothers, hseek⟩ := @seek_split op db column _ _
      (List.prefix_refl (encodeMetaKey u))
    refine ⟨others, hothers, ?_⟩
    rw [Searcher.scanEntries, if_pos hempty, if_pos hempty, hseek]
    refine congrArg (· ++ others) ?_
    rw [← hseek]
    cases htaken : (db.seek op column (encodeMetaKey u)).takeWhile
        fun x => (encodeMetaKey u).isPrefixOf x.1 with
    | nil => rfl
    | cons x rest =>
        have hx := List.all_eq_true.1 (List.all_takeWhile
          (p := fun x : Bytes × Bytes => (encodeMetaKey u).isPrefixOf x.1))
          x (htaken ▸ List.mem_cons_self)
        have hne : x.1 ≠ startKey := by
          intro heq
          rw [heq, hempty] at hx
          exact Bool.false_ne_true hx
        exact (if_neg hne).symm
  · have hstart := hstart.resolve_left hempty
    obtain ⟨others, hothers, hseek⟩ := @seek_split op db column _ _
      hstart
    refine ⟨others, hothers, ?_⟩
    rw [Searcher.scanEntries, if_neg hempty, if_neg hempty]
    generalize (db.seek op column startKey).takeWhile
      (fun x => (encodeMetaKey u).isPrefixOf x.1) = taken at hseek ⊢
    rw [hseek]
    cases taken with
    | nil =>
        cases others with
        | nil => rfl
        | cons x rest =>
            have hne : x.1 ≠ startKey := by
              intro heq
              have hx := hothers x List.mem_cons_self
              rw [heq, List.isPrefixOf_iff_prefix.2 hstart] at hx
              exact Bool.false_ne_true hx.symm
            exact if_neg hne
    | cons x rest =>
        show (if x.1 = startKey then rest ++ others else x :: rest ++ others) =
          (if x.1 = startKey then rest else x :: rest) ++ others
        split
        · rfl
        · rfl

theorem SameReads.scanTableData (h : SameReads op u db db')
    (column : StorageColumnType) {startKey : Bytes}
    (hstart : startKey = [] ∨ encodeMetaKey u <+: startKey) (maxLen : Nat)
    (writeBatch : List Mutation) (maxBufferSize : Nat) :
    Searcher.scanTableData faults op u db' column startKey maxLen writeBatch
        maxBufferSize =
      Searcher.scanTableData faults op u db column startKey maxLen writeBatch
        maxBufferSize := by
  have hfrom : encodeMetaKey u <+:
      if startKey = [] then encodeMetaKey u else startKey := by
    split
    · exact List.prefix_refl _
    · next hne => exact hstart.resolve_left hne
  obtain ⟨others, hothers, hentries⟩ := @scanEntries_split op u db column _
    hstart
  obtain ⟨others', hothers', hentries'⟩ := @scanEntries_split op u db' column _
    hstart
  rw [h.seek_takeWhile column (List.prefix_refl _) hfrom] at hentries'
  simp only [Searcher.scanTableData, hentries, hentries',
    scanKeys_append hothers, scanKeys_append hothers']

/-- What a prefix leaf finds is in front of the first other key. -/
theorem prefixValues_takeWhile (n : UInt32) (p : Bytes)
    (entries : List (Bytes × Bytes)) : ∀ size : UInt32,
    (prefixValues n p entries size).1 =
      (prefixValues n p (entries.takeWhile fun x => p.isPrefixOf x.1)
        size).1 := by
  induction entries with
  | nil => intro size; rfl
  | cons entry rest ih =>
      intro size
      obtain ⟨key, value⟩ := entry
      rw [List.takeWhile_cons]
      cases hkey : p.isPrefixOf key with
      | false =>
          simp only [prefixValues, hkey, Bool.false_eq_true, if_false,
            Bool.not_false, if_true]
          split
          · rfl
          · rfl
      | true =>
          simp only [prefixValues, hkey, if_true, Bool.not_true,
            Bool.false_eq_true, if_false]
          split
          · rfl
          · simp only [ih]

/-! ## Scorers -/

/-- While scorers are found, the status is OK or the one of a limit. -/
def Running (st : ContextState) : Prop := asideLimit st.status = {}

/-- Two answers with one scorer. Where there is none, what says why is the
same. -/
structure SameAnswer {α : Type} (x x' : Option α × ContextState) : Prop where
  scorer : x.1 = x'.1
  running : ∀ s, x.1 = some s → Running x.2 ∧ Running x'.2
  stopped : x.1 = none → x.2.status = x'.2.status

theorem SameAnswer.map {α β : Type} {x x' : Option α × ContextState}
    (h : SameAnswer x x') (g : α → β) :
    SameAnswer (x.1.map g, x.2) (x'.1.map g, x'.2) where
  scorer := congrArg (Option.map g) h.scorer
  running s hs := by
    obtain ⟨a, ha, -⟩ := Option.map_eq_some_iff.1 hs
    exact h.running a ha
  stopped hnone := h.stopped (Option.map_eq_none_iff.1 hnone)

theorem running_prefixStatus {n : UInt32} {st : ContextState}
    (h : Running st) (reached : Option UInt32) :
    Running { st with status := prefixStatus n st.status reached } := by
  cases reached with
  | none => exact h
  | some size => exact if_pos rfl

/-- The answers on the two databases. -/
abbrev SameAnswers {α : Type} (r r' : Option (Option α × ContextState)) :
    Prop :=
  Option.Rel SameAnswer r r'

theorem SameAnswers.bind_map {α β : Type}
    {r r' : Option (Option α × ContextState)} (h : SameAnswers r r')
    (g : α → β) :
    SameAnswers (r.bind fun x => some (x.1.map g, x.2))
      (r'.bind fun x => some (x.1.map g, x.2)) := by
  cases h with
  | none => exact .none
  | some h => exact .some (h.map g)

section Scorers

variable {st st' : ContextState}

/-- A Boolean leaf behind its read. -/
def readBoolean (f : FieldID) (r : SearchStatus × Bytes) (st : ContextState) :
    Option (Option Scorer × ContextState) :=
  let st := { st with reads := st.reads + 1 }
  if r.1.ok ∨ r.1.documentNotExist then do
    let reader ← newDocListReaderCodec (if r.1.ok then r.2 else []) f.toNat
    some (some (.booleanScorer (.reader reader)), st)
  else some (none, { st with status := r.1 })

theorem booleanScorer_eq (x : SearchContext) (f : FieldID)
    (value : MatchValue) (st : ContextState) :
    Ref.booleanScorer x f value st = readBoolean f
      ((x.live st.reads).getStatus x.faults x.op .invertedIndexColumn
        (encodeInvertedKey x.table f value.toTerm)) st := rfl

theorem readBoolean_sameAnswers (f : FieldID) (r : SearchStatus × Bytes)
    (hst : Running st) (hst' : Running st') :
    SameAnswers (readBoolean f r st) (readBoolean f r st') := by
  by_cases hok : r.1.ok = true ∨ r.1.documentNotExist = true
  · simp only [readBoolean, if_pos hok]
    cases newDocListReaderCodec (if r.1.ok = true then r.2 else []) f.toNat with
    | none => exact .none
    | some reader =>
        exact .some ⟨rfl, fun _ _ => ⟨hst, hst'⟩, fun h => nomatch h⟩
  · simp only [readBoolean, if_neg hok]
    exact .some ⟨rfl, (fun _ h => nomatch h), fun _ => rfl⟩

theorem SameReads.booleanScorer (h : SameReads op u db db') (f : FieldID)
    (value : MatchValue) (hst : Running st) (hst' : Running st') :
    SameAnswers
      (Ref.booleanScorer (tableContext config faults op u db) f value st)
      (Ref.booleanScorer (tableContext config faults op u db') f value st') := by
  have hread : db'.getStatus faults op .invertedIndexColumn
      (encodeInvertedKey u f value.toTerm) = _ :=
    h.getStatus _ (prefix_invertedKey u f _)
  rw [booleanScorer_eq, booleanScorer_eq]
  simp only [tableContext, hread]
  exact readBoolean_sameAnswers f _ hst hst'

theorem SameReads.prefixScorer (h : SameReads op u db db') (f : FieldID)
    (term : Bytes) (n : UInt32) (hst : Running st) (hst' : Running st') :
    SameAnswers
      (Ref.prefixScorer (tableContext config faults op u db) f term n st)
      (Ref.prefixScorer (tableContext config faults op u db') f term n st') := by
  have hvalues : (prefixValues n (encodeInvertedKey u f term) (db'.seek op
      .invertedIndexColumn (encodeInvertedKey u f term)) 0).1 =
        (prefixValues n (encodeInvertedKey u f term) (db.seek op
          .invertedIndexColumn (encodeInvertedKey u f term)) 0).1 := by
    rw [prefixValues_takeWhile, h.seek_takeWhile _ (prefix_invertedKey u f term)
      (List.prefix_refl _), ← prefixValues_takeWhile]
  simp only [Ref.prefixScorer, tableContext, hvalues]
  cases (prefixValues n (encodeInvertedKey u f term) (db.seek op
    .invertedIndexColumn (encodeInvertedKey u f term)) 0).1.mapM
      fun value => newDocListReaderCodec value f.toNat with
  | none => exact .none
  | some readers =>
      exact .some ⟨rfl, fun _ _ =>
        ⟨running_prefixStatus hst _, running_prefixStatus hst' _⟩,
        fun h => absurd h (by simp)⟩

mutual

theorem SameReads.getScorer (h : SameReads op u db db') (fuel : Nat) :
    ∀ (q : Query) (st st' : ContextState), Running st → Running st' →
    SameAnswers
      (Ref.getScorer fuel (tableContext config faults op u db) q st)
      (Ref.getScorer fuel (tableContext config faults op u db') q st')
  | .booleanQuery f value, st, st', hst, hst' => by
      rw [Ref.getScorer, Ref.getScorer]
      exact h.booleanScorer f value hst hst'
  | .prefixQuery f term n, st, st', hst, hst' => by
      rw [Ref.getScorer, Ref.getScorer]
      exact h.prefixScorer f term n hst hst'
  | .andQuery sub, st, st', hst, hst' => by
      rw [Ref.getScorer, Ref.getScorer]
      exact (h.addScorers fuel sub st st' hst hst').bind_map _
  | .orQuery sub, st, st', hst, hst' => by
      rw [Ref.getScorer, Ref.getScorer]
      exact (h.addScorers fuel sub st st' hst hst').bind_map _

theorem SameReads.addScorers (h : SameReads op u db db') (fuel : Nat) :
    ∀ (sub : List Query) (st st' : ContextState), Running st → Running st' →
    SameAnswers
      (Ref.addScorers fuel (tableContext config faults op u db) sub st)
      (Ref.addScorers fuel (tableContext config faults op u db') sub st')
  | [], st, st', hst, hst' => by
      rw [Ref.addScorers, Ref.addScorers]
      exact .some ⟨rfl, fun _ _ => ⟨hst, hst'⟩, fun h => nomatch h⟩
  | q :: rest, st, st', hst, hst' => by
      have hq := h.getScorer fuel q st st' hst hst'
      rw [Ref.addScorers, Ref.addScorers]
      generalize Ref.getScorer fuel (tableContext config faults op u db) q st =
        r at hq ⊢
      generalize Ref.getScorer fuel (tableContext config faults op u db') q st' =
        r' at hq ⊢
      cases hq with
      | none => exact .none
      | @some x x' hx =>
          obtain ⟨o, st⟩ := x
          obtain ⟨o', st'⟩ := x'
          obtain rfl : o = o' := hx.scorer
          cases o with
          | none =>
              exact .some ⟨rfl, (fun _ h => nomatch h), fun _ => hx.stopped rfl⟩
          | some scorer =>
              obtain ⟨hst, hst'⟩ := hx.running scorer rfl
              simp only [Option.bind_eq_bind, Option.bind_some]
              cases scorer.iterator fuel with
              | none => exact .none
              | some it =>
                  exact (h.addScorers fuel rest st st' hst hst').bind_map _

end

end Scorers

/-! ## Queries -/

section Query

variable {σ : Type} [LT σ] [DecidableLT σ]

/-- The end of a call, where its two contexts were running. -/
theorem sameButLimit_queryResult {p : CollectorParams σ}
    {queues : CollectorQueues σ p.sorter} {st st' : ContextState}
    (hst : Running st) (hst' : Running st') (docs : List DocumentID)
    (c : TopNCollector queues) :
    SameButLimit (Searcher.queryResult p st.status docs c)
      (Searcher.queryResult p st'.status docs c) := by
  have haside : ∀ status : SearchStatus, asideLimit status = {} →
      asideLimit (if !status.ok then status else {}) = {} := by
    intro status h
    split
    · exact h
    · rfl
  simp only [Searcher.queryResult]
  split
  · exact ⟨rfl, rfl, rfl⟩
  · exact ⟨rfl, rfl, (haside _ hst).trans (haside _ hst').symm⟩

variable [Zero σ] [Add σ]

theorem SameReads.doQuery (h : SameReads op u db db') (fuel : Nat)
    (a : Searcher.QueryArgs σ) (queues : CollectorQueues σ a.sorter)
    (offset limit : UInt64) (docs : List DocumentID) :
    Option.Rel SameButLimit
      (Searcher.doQuery fuel (tableContext config faults op u db) a queues
        offset limit docs)
      (Searcher.doQuery fuel (tableContext config faults op u db') a queues
        offset limit docs) := by
  have hrecords : ∀ column, RecordsSeenIn (tableContext config faults op u db)
      db' column := fun column d =>
    (h.get column (prefix_storedFieldKey u d)).symm
  have hcollects : CollectsIn (pageParams (tableContext config faults op u db)
      a offset limit) db' := ⟨fun _ => hrecords _, fun _ => hrecords _⟩
  have hscorer := @SameReads.getScorer config faults op u db db' h fuel
    a.query {} {} rfl rfl
  rw [Searcher.doQuery, Searcher.doQuery]
  generalize Ref.getScorer fuel (tableContext config faults op u db) a.query
    {} = r at hscorer ⊢
  generalize Ref.getScorer fuel (tableContext config faults op u db') a.query
    {} = r' at hscorer ⊢
  cases hscorer with
  | none => exact .none
  | @some x x' hx =>
      obtain ⟨o, st⟩ := x
      obtain ⟨o', st'⟩ := x'
      obtain rfl : o = o' := hx.scorer
      cases o with
      | none =>
          have hstatus : st.status = st'.status := hx.stopped rfl
          simp only [Option.bind_eq_bind, Option.bind_some, hstatus]
          exact .some ⟨rfl, rfl, rfl⟩
      | some scorer =>
          obtain ⟨hst, hst'⟩ := hx.running scorer rfl
          simp only [Option.bind_eq_bind, Option.bind_some]
          cases scorer.iterator fuel with
          | none => exact .none
          | some it =>
              let p := pageParams (tableContext config faults op u db) a offset
                limit
              let c : @TopNCollector σ _ _ p.sorter queues :=
                { topN := offset + limit, offset
                  getMatchTotalCnt := a.getMatchTotalCnt }
              have hsame : Option.Rel SameButLimit
                  (do let c ← Searcher.collectLoop p fuel it c
                      let c ← c.finish p
                      some (Searcher.queryResult p st.status docs c))
                  (do let c ← Searcher.collectLoop p fuel it c
                      let c ← c.finish p
                      some (Searcher.queryResult p st'.status docs c)) := by
                cases Searcher.collectLoop p fuel it c with
                | none => exact .none
                | some c =>
                    simp only [Option.bind_eq_bind, Option.bind_some]
                    cases c.finish p with
                    | none => exact .none
                    | some c =>
                        exact .some (@sameButLimit_queryResult σ _ _ p queues
                          st st' hst hst' docs c)
              rw [← collectAll_onState hcollects fuel it c st'.status docs]
                at hsame
              exact hsame

end Query

end Wwsearch.Spec
