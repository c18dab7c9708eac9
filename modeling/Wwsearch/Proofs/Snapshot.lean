import Wwsearch.Proofs.InvertedColumn
import Wwsearch.Proofs.Paging
import Wwsearch.Spec.Snapshot

/-!
# The state that a query is evaluated on

`DoQuery` is a function of what its reads find. So if one state of the database
would have shown it the same, the call is the evaluation of the query on that
state (`doQuery_onState`), and any state will do that occurred while the call
ran. The scans and the doc values go through the snapshot and all see the state
that the call began with. A Boolean leaf reads past it, and two of them can
find what no state ever had at once (`and_of_two_states`). Where they find
nothing but what the snapshot has, the call is evaluated on the snapshot
(`doQuery_onSnapshot`).
-/

namespace Wwsearch.Spec

open Wwsearch.Lib Wwsearch.Ref

/-- A read answers by what the key holds. -/
theorem getStatus_congr {op : DocListMergeOperator} {db db' : VirtualDB}
    {column : StorageColumnType} {key : Bytes}
    (h : db.get op column key = db'.get op column key) (faults : Faults) :
    db.getStatus faults op column key = db'.getStatus faults op column key := by
  rw [VirtualDB.getStatus, VirtualDB.getStatus, h]

/-! ## Leaves -/

section Leaves

variable {context : SearchContext} {db : VirtualDB}

theorem booleanKeys_append (table : TableID) (l l' : List Query) :
    booleanKeys table (l ++ l') = booleanKeys table l ++ booleanKeys table l' :=
  List.filterMap_append

theorem LeavesSeenIn.left {l l' : List Query} {reads : Nat}
    (h : LeavesSeenIn context db (l ++ l') reads) :
    LeavesSeenIn context db l reads where
  booleans i key hkey := by
    refine h.booleans i key ?_
    have hlt := (List.getElem?_eq_some_iff.1 hkey).1
    rw [booleanKeys_append, List.getElem?_append_left hlt]
    exact hkey
  scans f t n hmem := h.scans f t n (List.mem_append_left l' hmem)

theorem LeavesSeenIn.right {l l' : List Query} {reads : Nat}
    (h : LeavesSeenIn context db (l ++ l') reads) :
    LeavesSeenIn context db l'
      (reads + (booleanKeys context.table l).length) where
  booleans i key hkey := by
    rw [Nat.add_assoc]
    refine h.booleans _ key ?_
    rw [booleanKeys_append, List.getElem?_append_right
      (Nat.le_add_right _ _), Nat.add_sub_cancel_left]
    exact hkey
  scans f t n hmem := h.scans f t n (List.mem_append_right l hmem)

/-- A scorer that is got by reading in `db` is the scorer of the call, and it
took as many reads past the snapshot as there are Boolean leaves. -/
structure SameScorer {α : Type} (table : TableID) (leaves : List Query)
    (st : ContextState) (r r' : Option (Option α × ContextState)) : Prop where
  eq : r = r'
  reads : ∀ scorer st', r = some (some scorer, st') →
    st'.reads = st.reads + (booleanKeys table leaves).length

theorem booleanScorer_onState {f : FieldID} {value : MatchValue}
    {st : ContextState}
    (h : LeavesSeenIn context db [.booleanQuery f value] st.reads) :
    SameScorer context.table [.booleanQuery f value] st
      (booleanScorer context f value st)
      (booleanScorer (onState context db) f value st) := by
  have hstatus : (context.live st.reads).getStatus context.faults context.op
      .invertedIndexColumn (encodeInvertedKey context.table f value.toTerm) =
        db.getStatus context.faults context.op .invertedIndexColumn
          (encodeInvertedKey context.table f value.toTerm) :=
    getStatus_congr (h.booleans 0 _ rfl) context.faults
  constructor
  · simp only [booleanScorer, hstatus]
    rfl
  · intro scorer st' hr
    simp only [booleanScorer] at hr
    split at hr
    · obtain ⟨reader, -, hr⟩ := Option.bind_eq_some_iff.1 hr
      rw [← (Prod.mk.inj (Option.some.inj hr)).2]
      rfl
    · exact absurd (Prod.mk.inj (Option.some.inj hr)).1 (by simp)

theorem prefixScorer_onState {f : FieldID} {t : Bytes} {n : UInt32}
    {st : ContextState}
    (h : LeavesSeenIn context db [.prefixQuery f t n] st.reads) :
    SameScorer context.table [.prefixQuery f t n] st
      (prefixScorer context f t n st)
      (prefixScorer (onState context db) f t n st) := by
  have hscan : scanned context context.snapshot f t n = scanned context db f t n :=
    h.scans f t n List.mem_cons_self
  simp only [scanned] at hscan
  constructor
  · simp only [prefixScorer, hscan]
    rfl
  · intro scorer st' hr
    simp only [prefixScorer] at hr
    obtain ⟨readers, -, hr⟩ := Option.bind_eq_some_iff.1 hr
    rw [← (Prod.mk.inj (Option.some.inj hr)).2]
    rfl

theorem SameScorer.map {α β : Type} {leaves : List Query} {st : ContextState}
    {r r' : Option (Option α × ContextState)}
    (h : SameScorer context.table leaves st r r') (g : α → β) :
    SameScorer context.table leaves st
      (r.bind fun x => some (x.1.map g, x.2))
      (r'.bind fun x => some (x.1.map g, x.2)) where
  eq := by rw [h.eq]
  reads scorer st' hr := by
    obtain ⟨⟨o, st''⟩, hx, hr⟩ := Option.bind_eq_some_iff.1 hr
    obtain ⟨ho, rfl⟩ := Prod.mk.inj (Option.some.inj hr)
    obtain ⟨x, rfl, -⟩ := Option.map_eq_some_iff.1 ho
    exact h.reads x st'' hx

mutual

theorem getScorer_onState (fuel : Nat) : ∀ (q : Query) (st : ContextState),
    LeavesSeenIn context db (leaves q) st.reads →
    SameScorer context.table (leaves q) st (getScorer fuel context q st)
      (getScorer fuel (onState context db) q st)
  | .booleanQuery f value, st, h => by
      rw [getScorer, getScorer]
      exact booleanScorer_onState h
  | .prefixQuery f t n, st, h => by
      rw [getScorer, getScorer]
      exact prefixScorer_onState h
  | .andQuery sub, st, h => by
      rw [getScorer, getScorer]
      exact (addScorers_onState fuel sub st h).map _
  | .orQuery sub, st, h => by
      rw [getScorer, getScorer]
      exact (addScorers_onState fuel sub st h).map _

theorem addScorers_onState (fuel : Nat) :
    ∀ (sub : List Query) (st : ContextState),
    LeavesSeenIn context db (leavesOf sub) st.reads →
    SameScorer context.table (leavesOf sub) st
      (addScorers fuel context sub st)
      (addScorers fuel (onState context db) sub st)
  | [], st, h => by
      rw [addScorers, addScorers]
      refine ⟨rfl, fun scorer st' hr => ?_⟩
      rw [← (Prod.mk.inj (Option.some.inj hr)).2]
      rfl
  | q :: rest, st, h => by
      have hq := getScorer_onState fuel q st h.left
      rw [addScorers, addScorers, ← hq.eq]
      cases hr : getScorer fuel context q st with
      | none => exact ⟨rfl, fun _ _ h => nomatch h⟩
      | some r =>
          obtain ⟨_ | scorer, st'⟩ := r
          · exact ⟨rfl, fun _ _ h => nomatch h⟩
          · have hreads := hq.reads scorer st' hr
            have hrest := addScorers_onState fuel rest st'
              (hreads ▸ h.right)
            simp only [Option.bind_eq_bind, Option.bind_some]
            refine ⟨by rw [hrest.eq], fun subs st'' hsubs => ?_⟩
            obtain ⟨it, -, hsubs⟩ := Option.bind_eq_some_iff.1 hsubs
            have hlen := (hrest.map (it :: ·)).reads subs st'' hsubs
            rw [hlen, hreads, leavesOf, booleanKeys_append, List.length_append,
              Nat.add_assoc]

end

end Leaves

/-! ## Records -/

section Records

variable {σ : Type} {p : CollectorParams σ} {db : VirtualDB}

/-- The records that a collector reads are the same in both. -/
structure CollectsIn (p : CollectorParams σ) (db : VirtualDB) : Prop where
  docValues : (p.sorter.isNone && p.filter.isNone && !p.useScoreStrategy) =
    false → RecordsSeenIn p.context db .docValueColumn
  stored : p.useScoreStrategy = true →
    RecordsSeenIn p.context db .storedFieldColumn

/-- The collector of the same call on one state. -/
abbrev collectsOn (p : CollectorParams σ) (db : VirtualDB) : CollectorParams σ :=
  { p with context := onState p.context db }

theorem filterDocs_onState (rows : List (SearchStatus × CollectedDocument σ)) :
    TopNCollector.filterDocs (collectsOn p db) rows =
      TopNCollector.filterDocs p rows := by
  induction rows with
  | nil => rfl
  | cons row rest ih => rw [TopNCollector.filterDocs, ih]; rfl

theorem innerGetField_onState {x : SearchContext} {mode : EncodeTarget}
    (h : RecordsSeenIn x db (Searcher.fieldsColumn mode)) :
    Searcher.innerGetField x.config x.faults x.op x.table x.snapshot mode =
      Searcher.innerGetField x.config x.faults x.op x.table db mode := by
  funext document
  rw [Searcher.innerGetField, Searcher.innerGetField,
    getStatus_congr (h document.documentId)]

variable [LT σ] [DecidableLT σ] [Add σ] {queues : CollectorQueues σ p.sorter}

theorem scoreHits_onState (hscore : p.useScoreStrategy = true)
    (h : CollectsIn p db) (c : TopNCollector queues)
    (hits : List (CollectedDocument σ)) :
    @TopNCollector.scoreHits σ _ _ _ (collectsOn p db) queues c hits =
      TopNCollector.scoreHits p c hits := by
  have hread : Searcher.innerGetField p.context.config p.context.faults
      p.context.op p.context.table p.context.snapshot .storedField = _ :=
    innerGetField_onState (h.stored hscore)
  have hrows : Searcher.getStoredFields p.context.config p.context.faults
      p.context.op p.context.table p.context.snapshot =
        Searcher.getStoredFields p.context.config p.context.faults p.context.op
          p.context.table db := by
    funext documents
    rw [Searcher.getStoredFields, Searcher.getStoredFields, hread]
  simp only [TopNCollector.scoreHits, hrows]
  rfl

/-- `InnerPurge` behind the filters: the hits, and the status of the reads. -/
def purgeHits (p : CollectorParams σ) {queues : CollectorQueues σ p.sorter}
    (c : TopNCollector queues)
    (x : List (CollectedDocument σ) × Option SearchStatus) :
    Option (TopNCollector queues) :=
  let c := TopNCollector.addMatchTotal p
    { c with status := x.2.getD c.status, bufferDocs := [] } x.1.length
  if x.1.isEmpty then some c
  else if p.useScoreStrategy then TopNCollector.scoreHits p c x.1
  else
    let topNDocs :=
      x.1.foldl (queues.docs.pushBounded c.topN.toNat) c.topNDocs
    some { c with topNDocs }

theorem purgeHits_onState (h : CollectsIn p db) (c : TopNCollector queues)
    (x : List (CollectedDocument σ) × Option SearchStatus) :
    @purgeHits σ _ _ _ (collectsOn p db) queues c x = purgeHits p c x := by
  unfold purgeHits
  split
  · rfl
  · cases hscore : p.useScoreStrategy with
    | true => exact (if_pos hscore).trans (scoreHits_onState hscore h _ _)
    | false => exact if_neg (Bool.eq_false_iff.1 hscore)

/-- A purge that reads doc values is a purge of what they leave. -/
theorem innerPurge_eq (c : TopNCollector queues)
    (hbuffer : c.bufferDocs.isEmpty = false)
    (hquick : (p.sorter.isNone && p.filter.isNone && !p.useScoreStrategy) =
      false) :
    TopNCollector.innerPurge p c = purgeHits p c (TopNCollector.filterDocs p
      (TopNCollector.readRows (Searcher.getDocValue p.context.config
        p.context.faults p.context.op p.context.table p.context.snapshot)
          c.bufferDocs)) := by
  simp only [TopNCollector.innerPurge, hbuffer, hquick, Bool.false_eq_true,
    if_false]
  rfl

theorem innerPurge_onState (h : CollectsIn p db) (c : TopNCollector queues) :
    @TopNCollector.innerPurge σ _ _ _ (collectsOn p db) queues c =
      TopNCollector.innerPurge p c := by
  cases hbuffer : c.bufferDocs.isEmpty with
  | true => simp only [TopNCollector.innerPurge, hbuffer, if_true]
  | false =>
      cases hquick : (p.sorter.isNone && p.filter.isNone &&
          !p.useScoreStrategy) with
      | true =>
          simp only [TopNCollector.innerPurge, hbuffer, hquick, if_true,
            Bool.false_eq_true, if_false]
          exact if_pos hquick
      | false =>
          have hread : Searcher.innerGetField p.context.config p.context.faults
              p.context.op p.context.table p.context.snapshot .docValue = _ :=
            innerGetField_onState (h.docValues hquick)
          have hrows : Searcher.getDocValue p.context.config p.context.faults
              p.context.op p.context.table p.context.snapshot =
                Searcher.getDocValue p.context.config p.context.faults
                  p.context.op p.context.table db := by
            funext documents
            rw [Searcher.getDocValue, Searcher.getDocValue, hread]
          rw [innerPurge_eq c hbuffer hquick, hrows, ← purgeHits_onState h,
            ← filterDocs_onState]
          exact innerPurge_eq (p := collectsOn p db) c hbuffer hquick

theorem finish_onState (h : CollectsIn p db) (c : TopNCollector queues) :
    @TopNCollector.finish σ _ _ _ (collectsOn p db) queues c =
      TopNCollector.finish p c := by
  simp only [TopNCollector.finish, innerPurge_onState h]
  rfl

variable [Zero σ]

theorem collect_onState (h : CollectsIn p db) (c : TopNCollector queues)
    (d : DocumentID) (fieldId : Int) :
    @TopNCollector.collect σ _ _ _ _ (collectsOn p db) queues c d fieldId =
      TopNCollector.collect p c d fieldId := by
  simp only [TopNCollector.collect, innerPurge_onState h]
  rfl

theorem collectLoop_onState (h : CollectsIn p db) (fuel : Nat) :
    ∀ (it : DocIdSetIterator) (c : TopNCollector queues),
    @Searcher.collectLoop σ _ _ _ _ (collectsOn p db) queues fuel it c =
      Searcher.collectLoop p fuel it c := by
  induction fuel with
  | zero => intro it c; rfl
  | succ fuel ih =>
      intro it c
      simp only [Searcher.collectLoop, collect_onState h, ih]
      rfl

/-- All that comes behind the scorer. -/
theorem collectAll_onState (h : CollectsIn p db) (fuel : Nat)
    (it : DocIdSetIterator) (c : TopNCollector queues) (status : SearchStatus)
    (docs : List DocumentID) :
    (do let c ← @Searcher.collectLoop σ _ _ _ _ (collectsOn p db) queues fuel
          it c
        let c ← @TopNCollector.finish σ _ _ _ (collectsOn p db) queues c
        some (@Searcher.queryResult σ _ _ (collectsOn p db) queues status
          docs c)) =
      (do let c ← Searcher.collectLoop p fuel it c
          let c ← TopNCollector.finish p c
          some (Searcher.queryResult p status docs c)) := by
  simp only [collectLoop_onState h, finish_onState h]
  rfl

end Records

/-! ## The call -/

section Call

variable {σ : Type} [LT σ] [DecidableLT σ] [Zero σ] [Add σ]
  {context : SearchContext} {a : Searcher.QueryArgs σ} {db : VirtualDB}

/-- A call is the evaluation of the query on a state that shows it the
same. -/
theorem doQuery_onState (h : SeenIn context a db) (fuel : Nat)
    (queues : CollectorQueues σ a.sorter) (offset limit : UInt64)
    (docs : List DocumentID) :
    Searcher.doQuery fuel context a queues offset limit docs =
      Searcher.doQuery fuel (onState context db) a queues offset limit docs := by
  have hcollects : CollectsIn (pageParams context a offset limit) db := by
    refine ⟨fun hquick => h.docValues ?_, fun hscore => h.stored ?_⟩
    · simpa [pageParams, CollectorParams.new, CollectorParams.useScoreStrategy]
        using hquick
    · simpa [pageParams, CollectorParams.new, CollectorParams.useScoreStrategy]
        using hscore
  have hscorer := (getScorer_onState fuel a.query {} h.leaves).eq
  rw [Searcher.doQuery, Searcher.doQuery, ← hscorer]
  cases getScorer fuel context a.query {} with
  | none => rfl
  | some r =>
      obtain ⟨_ | scorer, st⟩ := r
      · rfl
      · cases hit : scorer.iterator fuel with
        | none => simp only [Option.bind_eq_bind, Option.bind_some, hit]; rfl
        | some it =>
            simp only [Option.bind_eq_bind, Option.bind_some, hit]
            exact (collectAll_onState hcollects fuel it _ _ _).symm

end Call

/-- Where no Boolean leaf finds anything but what the snapshot has, the
snapshot shows the call all that it was shown. -/
theorem seenIn_snapshot {σ : Type} {context : SearchContext}
    {a : Searcher.QueryArgs σ}
    (h : ∀ i key, (booleanKeys context.table (leaves a.query))[i]? = some key →
      (context.live i).get context.op .invertedIndexColumn key =
        context.snapshot.get context.op .invertedIndexColumn key) :
    SeenIn context a context.snapshot where
  leaves :=
    { booleans := fun i key hkey => by
        rw [Nat.zero_add]
        exact h i key hkey
      scans := fun _ _ _ _ => rfl }
  docValues _ := fun _ => rfl
  stored _ := fun _ => rfl

/-- As long as no Boolean leaf finds a list that the snapshot does not have,
the call is the evaluation of the query on the snapshot. -/
theorem doQuery_onSnapshot {σ : Type} [LT σ] [DecidableLT σ] [Zero σ] [Add σ]
    {context : SearchContext} {a : Searcher.QueryArgs σ}
    (h : ∀ i key, (booleanKeys context.table (leaves a.query))[i]? = some key →
      (context.live i).get context.op .invertedIndexColumn key =
        context.snapshot.get context.op .invertedIndexColumn key) (fuel : Nat)
    (queues : CollectorQueues σ a.sorter) (offset limit : UInt64)
    (docs : List DocumentID) :
    Searcher.doQuery fuel context a queues offset limit docs =
      Searcher.doQuery fuel (onState context context.snapshot) a queues offset
        limit docs :=
  doQuery_onState (seenIn_snapshot h) fuel queues offset limit docs

/-- In every call during which the database had a state that shows each read
what it found, the call is the evaluation of the whole query on a state that
the database had. The snapshot is such a state as long as no Boolean leaf
finds a list that the snapshot does not have. -/
theorem query_sees_one_state {σ : Type} [LT σ] [DecidableLT σ] [Zero σ] [Add σ]
    (h : CallHistory) (config : IndexConfig) (faults : Faults)
    (op : DocListMergeOperator) (table : TableID) (a : Searcher.QueryArgs σ)
    (hseen : ∃ k, SeenIn (h.context config faults op table) a (h.state k)) :
    ∃ k, ∀ (queues : CollectorQueues σ a.sorter) (offset limit : UInt64)
      (docs : List DocumentID) (fuel : Nat),
      let context := h.context config faults op table
      Searcher.doQuery fuel context a queues offset limit docs =
        Searcher.doQuery fuel (onState context (h.state k)) a queues offset
          limit docs := by
  obtain ⟨k, hk⟩ := hseen
  exact ⟨k, fun queues offset limit docs fuel =>
    doQuery_onState hk fuel queues offset limit docs⟩

/-- A call of the index writer for document 7 with this text. -/
def sevenIs (mode : DocumentUpdaterType) (text : Bytes) : WriteCall where
  mode := mode
  documents := [seven text]
  distinct := List.nodup_singleton _

/-- Document 7 has the term `A`, and is replaced by one with `B` before the
second read or, if `early`, before the first. -/
def replacedMeanwhile (early : Bool) : CallHistory :=
  let start := runCalls spaceConfig millionOperator ⟨1, 2⟩ .empty
    [sevenIs .add [65]]
  { start
    batches := [callMutations spaceConfig millionOperator ⟨1, 2⟩ start
      (sevenIs .replace [66])]
    readAt := fun n => if early then 1 else min n 1
    mono := by
      intro n m h
      dsimp only
      split
      · exact le_refl 1
      · exact min_le_min_right 1 h }

/-- The query for both terms. -/
def bothTerms : Searcher.QueryArgs Nat where
  query := .andQuery [.booleanQuery 1 (.term [65]), .booleanQuery 1 (.term [66])]

def plainQueues : CollectorQueues Nat none where
  docs := listQueue _
  scores := listQueue _

/-- Both reads come behind the flush, and there is a state that both of them
see. -/
theorem query_sees_one_state_early :
    ∃ k, ∀ fuel,
      let context := (replacedMeanwhile true).context spaceConfig {}
        millionOperator ⟨1, 2⟩
      Searcher.doQuery fuel context bothTerms plainQueues 0 10 [] =
        Searcher.doQuery fuel (onState context ((replacedMeanwhile true).state
          k)) bothTerms plainQueues 0 10 [] := by
  obtain ⟨k, hk⟩ := query_sees_one_state (replacedMeanwhile true) spaceConfig {}
    millionOperator ⟨1, 2⟩ bothTerms ⟨1,
      { leaves :=
          { booleans := fun _ _ _ => rfl
            scans := fun f t n h => by
              simp [bothTerms, leaves, leavesOf] at h }
        docValues := fun h => absurd h (by decide)
        stored := fun h => absurd h (by decide) }⟩
  exact ⟨k, fun fuel => hk plainQueues 0 10 [] fuel⟩

theorem replacedMeanwhile_state (early : Bool) (k : Nat) :
    (replacedMeanwhile early).state k = (replacedMeanwhile early).start ∨
      (replacedMeanwhile early).state k = (replacedMeanwhile early).state 1 := by
  cases k with
  | zero => exact .inl rfl
  | succ k => exact .inr (by simp [CallHistory.state, replacedMeanwhile])

/-- The first leaf is read before the flush and the second one behind it. The
query returns document 7, which has both terms in no state. -/
theorem and_of_two_states :
    ¬ ∀ ids, Page ((replacedMeanwhile false).context spaceConfig {}
        millionOperator ⟨1, 2⟩) bothTerms plainQueues 0 10 ids →
      ∃ k, Page (onState ((replacedMeanwhile false).context spaceConfig {}
        millionOperator ⟨1, 2⟩) ((replacedMeanwhile false).state k)) bothTerms
          plainQueues 0 10 ids := by
  intro h
  obtain ⟨k, hk⟩ := h [7] ⟨{}, none, Searcher.doQuery_settles 30
    (by decide +kernel)⟩
  have hempty : Page (onState ((replacedMeanwhile false).context spaceConfig {}
      millionOperator ⟨1, 2⟩) ((replacedMeanwhile false).state k)) bothTerms
        plainQueues 0 10 [] := by
    rcases replacedMeanwhile_state false k with hstate | hstate
    · rw [hstate]
      exact ⟨{}, none, Searcher.doQuery_settles 30
        (by decide +kernel)⟩
    · rw [hstate]
      exact ⟨{}, none, Searcher.doQuery_settles 30
        (by decide +kernel)⟩
  exact absurd (hk.unique hempty) (by decide)

end Wwsearch.Spec
