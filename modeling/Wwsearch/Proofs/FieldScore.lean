import Wwsearch.Proofs.Collecting
import Wwsearch.Proofs.HitFields
import Wwsearch.Proofs.Snapshot

/-!
# What a strategy is asked

The collector hands a strategy a document with its stored fields and the field
that its hit came with. If the record of every hit that can be scored has the
field (`Scorable`), then strategies that answer the same for documents with the
field cannot be told apart by a query (`doQuery_strategies`). The proof goes
down the collector: what goes into the buffer is a hit, what comes out of the
filters keeps its id and its field, and what is scored is the stored record of
the id. A document takes its id from its doc-value record when that is read,
so the record has to carry the id it is kept for.
-/

namespace Wwsearch.Spec

open Wwsearch.Lib Wwsearch.Ref Wwsearch.Ref.TopNCollector

/-- If a hit of the document is scored, then with a record that has the
field. -/
def Scorable (context : SearchContext) (d : DocumentID) (f : FieldID) : Prop :=
  (storedRow context d).1.ok = true ∨
      (storedRow context d).1.documentNotExist = true →
    ((storedValues context d).findField f).isSome = true

/-- Reading doc values does not change the id of a document. -/
def KeepsIds (context : SearchContext) : Prop :=
  ∀ d, (docValueRow context d).2.documentId = d

variable {σ : Type}

/-- Strategies that answer the same where the field is there. -/
structure SameFound (l l' : List (ScoreStrategy σ)) : Prop where
  isEmpty : l.isEmpty = l'.isEmpty
  answers : ∀ (document : Document) (f : Int),
    (document.findField (UInt8.ofInt f)).isSome = true →
    l.map (fun strategy => strategy document f) =
      l'.map fun strategy => strategy document f

/-- The collector of the same call with other strategies. -/
abbrev scoresWith (p : CollectorParams σ) (l : List (ScoreStrategy σ)) :
    CollectorParams σ :=
  { p with scoreStrategyList := l }

/-- A buffered hit. -/
def FoundIn (context : SearchContext) (doc : CollectedDocument σ) : Prop :=
  Fresh doc ∧ Scorable context (idOf doc) (UInt8.ofInt doc.matchFieldId)

variable {p : CollectorParams σ} {l : List (ScoreStrategy σ)}

theorem filterDocs_scoresWith
    (rows : List (SearchStatus × CollectedDocument σ)) :
    filterDocs (scoresWith p l) rows = filterDocs p rows := by
  induction rows with
  | nil => rfl
  | cons row rest ih => rw [filterDocs, ih]; rfl

theorem mem_filterDocs {doc : CollectedDocument σ}
    (rows : List (SearchStatus × CollectedDocument σ)) :
    doc ∈ (filterDocs p rows).1 → ∃ row ∈ rows, row.2 = doc := by
  induction rows with
  | nil => exact fun h => absurd h List.not_mem_nil
  | cons row rest ih =>
      obtain ⟨status, document⟩ := row
      intro h
      rw [filterDocs] at h
      dsimp only at h
      split at h
      · split at h
        · rcases List.mem_cons.1 h with rfl | h
          · exact ⟨_, List.mem_cons_self, rfl⟩
          · obtain ⟨row, hrow, hdoc⟩ := ih h
            exact ⟨row, List.mem_cons_of_mem _ hrow, hdoc⟩
        · obtain ⟨row, hrow, hdoc⟩ := ih h
          exact ⟨row, List.mem_cons_of_mem _ hrow, hdoc⟩
      · exact absurd h List.not_mem_nil

/-- What passes the filters is a hit of the buffer with its doc values. -/
theorem scorable_of_hit (hids : KeepsIds p.context)
    {docs : List (CollectedDocument σ)}
    (hfound : ∀ doc ∈ docs, FoundIn p.context doc) {hit : CollectedDocument σ}
    (hhit : hit ∈ (filterDocs p (readRows (Searcher.getDocValue
      p.context.config p.context.faults p.context.op p.context.table
        p.context.snapshot) docs)).1) :
    Scorable p.context (idOf hit) (UInt8.ofInt hit.matchFieldId) := by
  obtain ⟨row, hrow, rfl⟩ := mem_filterDocs _ hhit
  unfold Searcher.getDocValue at hrow
  rw [readRows_map] at hrow
  obtain ⟨doc, hdoc, rfl⟩ := List.mem_map.1 hrow
  obtain ⟨hfresh, hscorable⟩ := hfound doc hdoc
  have hid : (Searcher.innerGetField p.context.config p.context.faults
      p.context.op p.context.table p.context.snapshot .docValue
        doc.document).2.documentId = idOf doc := by
    rw [hfresh]
    exact hids (idOf doc)
  show Scorable p.context (Searcher.innerGetField p.context.config
    p.context.faults p.context.op p.context.table p.context.snapshot .docValue
      doc.document).2.documentId (UInt8.ofInt doc.matchFieldId)
  rw [hid]
  exact hscorable

theorem mapM_congr {α β : Type} {f g : α → Option β} {l : List α}
    (h : ∀ x ∈ l, f x = g x) : l.mapM f = l.mapM g := by
  induction l with
  | nil => rfl
  | cons x l ih =>
      rw [List.mapM_cons, List.mapM_cons, h x List.mem_cons_self,
        ih fun y hy => h y (List.mem_cons_of_mem x hy)]

section Scores

variable [Add σ]

theorem addScores_scoresWith (h : SameFound p.scoreStrategyList l)
    {doc : CollectedDocument σ} (hfield : (doc.document.findField
      (UInt8.ofInt doc.matchFieldId)).isSome = true) :
    addScores (scoresWith p l) doc = addScores p doc := by
  have hanswers := h.answers doc.document doc.matchFieldId hfield
  rw [addScores, addScores]
  generalize p.scoreStrategyList = strategies at hanswers
  clear hfield h
  induction strategies generalizing l doc with
  | nil =>
      obtain rfl := List.map_eq_nil_iff.1 hanswers.symm
      rfl
  | cons strategy rest ih =>
      cases l with
      | nil => cases hanswers
      | cons strategy' rest' =>
          obtain ⟨hhead, htail⟩ := List.cons.inj hanswers
          have hhead : strategy doc.document doc.matchFieldId =
            strategy' doc.document doc.matchFieldId := hhead
          rw [List.foldlM_cons, List.foldlM_cons, hhead]
          cases strategy' doc.document doc.matchFieldId with
          | none => rfl
          | some score =>
              exact @ih rest' { doc with
                documentScore := doc.documentScore + score } htail

variable [LT σ] [DecidableLT σ] {queues : CollectorQueues σ p.sorter}

theorem scoreHits_scoresWith (h : SameFound p.scoreStrategyList l)
    (c : TopNCollector queues) {hits : List (CollectedDocument σ)}
    (hhits : ∀ hit ∈ hits,
      Scorable p.context (idOf hit) (UInt8.ofInt hit.matchFieldId)) :
    @scoreHits σ _ _ _ (scoresWith p l) queues c hits = scoreHits p c hits := by
  have hscores : ∀ row ∈ (readRows (Searcher.getStoredFields p.context.config
      p.context.faults p.context.op p.context.table p.context.snapshot)
      (hits.map fun doc => { doc with document :=
        { doc.document with fields := [] } })).filter
          (fun row => row.1.ok || row.1.documentNotExist),
      addScores (scoresWith p l) row.2 = addScores p row.2 := by
    intro row hrow
    obtain ⟨hrow, hstatus⟩ := List.mem_filter.1 hrow
    unfold Searcher.getStoredFields at hrow
    rw [readRows_map, List.map_map] at hrow
    obtain ⟨hit, hmem, rfl⟩ := List.mem_map.1 hrow
    exact addScores_scoresWith h
      (hhits hit hmem (Bool.or_eq_true_iff.1 hstatus))
  have hmapM := mapM_congr hscores
  simp only [scoreHits]
  split
  · rw [← hmapM]
  · rfl

theorem purgeHits_scoresWith (h : SameFound p.scoreStrategyList l)
    (c : TopNCollector queues)
    {x : List (CollectedDocument σ) × Option SearchStatus}
    (hhits : ∀ hit ∈ x.1,
      Scorable p.context (idOf hit) (UInt8.ofInt hit.matchFieldId)) :
    @purgeHits σ _ _ _ (scoresWith p l) queues c x = purgeHits p c x := by
  have huse : (scoresWith p l).useScoreStrategy = p.useScoreStrategy :=
    congrArg (!·) h.isEmpty.symm
  unfold purgeHits
  split
  · rfl
  · rw [huse]
    split
    · exact scoreHits_scoresWith h _ hhits
    · rfl

theorem innerPurge_scoresWith (h : SameFound p.scoreStrategyList l)
    (hids : KeepsIds p.context) (c : TopNCollector queues)
    (hfound : ∀ doc ∈ c.bufferDocs, FoundIn p.context doc) :
    @innerPurge σ _ _ _ (scoresWith p l) queues c = innerPurge p c := by
  have huse : (scoresWith p l).useScoreStrategy = p.useScoreStrategy :=
    congrArg (!·) h.isEmpty.symm
  cases hbuffer : c.bufferDocs.isEmpty with
  | true => simp only [innerPurge, hbuffer, if_true]
  | false =>
      cases hquick : (p.sorter.isNone && p.filter.isNone &&
          !p.useScoreStrategy) with
      | true =>
          simp only [innerPurge, hbuffer, huse, hquick, if_true,
            Bool.false_eq_true, if_false]
          rfl
      | false =>
          rw [innerPurge_eq c hbuffer hquick,
            ← purgeHits_scoresWith h c fun hit hhit =>
              scorable_of_hit hids hfound hhit, ← filterDocs_scoresWith]
          exact innerPurge_eq (p := scoresWith p l) c hbuffer
            (by rw [huse]; exact hquick)

theorem finish_scoresWith (h : SameFound p.scoreStrategyList l)
    (hids : KeepsIds p.context) (c : TopNCollector queues)
    (hfound : ∀ doc ∈ c.bufferDocs, FoundIn p.context doc) :
    @finish σ _ _ _ (scoresWith p l) queues c = finish p c := by
  have huse : (scoresWith p l).useScoreStrategy = p.useScoreStrategy :=
    congrArg (!·) h.isEmpty.symm
  simp only [finish, innerPurge_scoresWith h hids c hfound, huse]
  rfl

variable [Zero σ]

theorem collect_scoresWith (h : SameFound p.scoreStrategyList l)
    (hids : KeepsIds p.context) (c : TopNCollector queues)
    (hfound : ∀ doc ∈ c.bufferDocs, FoundIn p.context doc) (x : Hit)
    (hx : Scorable p.context x.1 (UInt8.ofInt x.2)) :
    @collect σ _ _ _ _ (scoresWith p l) queues c x.1 x.2 =
        collect p c x.1 x.2 ∧
      ∀ c', collect p c x.1 x.2 = some c' →
        ∀ doc ∈ c'.bufferDocs, FoundIn p.context doc := by
  have hbuffered : ∀ doc ∈ (buffered c x).bufferDocs, FoundIn p.context doc := by
    intro doc hdoc
    rcases List.mem_append.1 hdoc with hdoc | hdoc
    · exact hfound doc hdoc
    · obtain rfl := List.mem_singleton.1 hdoc
      exact ⟨rfl, hx⟩
  have hpurge := innerPurge_scoresWith h hids c hfound
  have hpurge' := innerPurge_scoresWith h hids (buffered c x) hbuffered
  have hempty : ∀ {c c' : TopNCollector queues}, innerPurge p c = some c' →
      ∀ doc ∈ c'.bufferDocs, FoundIn p.context doc := by
    intro c c' hc' doc hdoc
    rw [(innerPurge_leaves hc').2] at hdoc
    exact absurd hdoc List.not_mem_nil
  rw [collect, collect]
  dsimp only
  split
  · exact ⟨hpurge, fun c' => hempty⟩
  · split
    · exact ⟨hpurge', fun c' => hempty⟩
    · refine ⟨rfl, fun c' hc' => ?_⟩
      obtain rfl := Option.some.inj hc'
      exact hbuffered

/-- A step without an answer leads to nothing. -/
theorem nowhere {α : Type} {P : α → Prop} (a : α) (h : none = some a) : P a :=
  absurd h.symm (Option.some_ne_none a)

/-- The loop of `DoQuery` over an iterator that names fields. -/
theorem collectLoop_scoresWith (h : SameFound p.scoreStrategyList l)
    (hids : KeepsIds p.context) (fuel : Nat) :
    ∀ (it : DocIdSetIterator) (c : TopNCollector queues),
    Names (Scorable p.context) it →
    (∀ doc ∈ c.bufferDocs, FoundIn p.context doc) →
    @Searcher.collectLoop σ _ _ _ _ (scoresWith p l) queues fuel it c =
        Searcher.collectLoop p fuel it c ∧
      ∀ c', Searcher.collectLoop p fuel it c = some c' →
        ∀ doc ∈ c'.bufferDocs, FoundIn p.context doc := by
  induction fuel with
  | zero => exact fun it c _ _ => ⟨rfl, nowhere⟩
  | succ fuel ih =>
      intro it c hit hfound
      rw [Searcher.collectLoop, Searcher.collectLoop]
      by_cases hgo : it.docID ≠ noMoreDocs ∧ c.enough p = false
      · obtain ⟨hsame, hfound'⟩ := collect_scoresWith h hids c hfound
          (it.docID, it.fieldId) (hit.shown hgo.1)
        have hgo' : it.docID ≠ noMoreDocs ∧
          @enough σ _ _ (scoresWith p l) queues c = false := hgo
        rw [if_pos hgo', if_pos hgo, hsame]
        cases hc : collect p c it.docID it.fieldId with
        | none => exact ⟨rfl, nowhere⟩
        | some c₁ =>
            cases hnext : DocIdSetIterator.call fuel .nextDoc it with
            | none => exact ⟨rfl, nowhere⟩
            | some it' =>
                exact ih it' c₁ ((keepsNames _ fuel).call _ it it' hit hnext)
                  (hfound' c₁ hc)
      · have hgo' : ¬ (it.docID ≠ noMoreDocs ∧
          @enough σ _ _ (scoresWith p l) queues c = false) := hgo
        rw [if_neg hgo', if_neg hgo]
        refine ⟨rfl, fun c' hc' => ?_⟩
        obtain rfl := Option.some.inj hc'
        exact hfound

end Scores

/-! ## The query -/

section Query

variable {config : IndexConfig} {faults : Faults} {op : DocListMergeOperator}
  {table : TableID} {db : VirtualDB}

/-- What reading a record into a document answers: the fields of the record
behind its own, or the document as it was. -/
theorem innerGetField_cases (config : IndexConfig) (faults : Faults)
    (op : DocListMergeOperator) (table : TableID) (db : VirtualDB)
    (mode : EncodeTarget) (document : Document) :
    let r := Searcher.innerGetField config faults op table db mode document
    let record := recordOf config op table db (Searcher.fieldsColumn mode)
      document.documentId
    (∃ doc, record = some doc ∧
      r.2 = { doc with fields := document.fields ++ doc.fields }) ∨
    r.2 = document ∧ r.1.ok = false ∧
      (r.1.documentNotExist = true → record = none) := by
  intro r record
  have hread := getStatus_cases faults op db (Searcher.fieldsColumn mode)
    (encodeStoredFieldKey table document.documentId)
  have hrecord : record = (db.get op (Searcher.fieldsColumn mode)
      (encodeStoredFieldKey table document.documentId)).bind
        (Document.deSerializeFromByte config.pb {}) := rfl
  obtain ⟨st, hst⟩ : ∃ st, db.getStatus faults op (Searcher.fieldsColumn mode)
    (encodeStoredFieldKey table document.documentId) = st := ⟨_, rfl⟩
  have hr : r = Searcher.innerGetField config faults op table db mode
    document := rfl
  rw [Searcher.innerGetField, hst] at hr
  rw [hst] at hread
  rcases hread with ⟨msg, -, rfl⟩ | ⟨value, hget, rfl⟩ | ⟨hget, rfl⟩
  · rw [hr]
    exact .inr ⟨rfl, rfl, fun h => absurd h Bool.false_ne_true⟩
  · rw [hget, Option.bind_some, Document.deSerializeFromByte] at hrecord
    replace hr := hr.trans (if_pos rfl)
    rw [Document.deSerializeFromByte] at hr
    cases hparse : config.pb.parse
        (value.take value.length.toUInt32.toNat) with
    | none =>
        rw [hparse] at hr
        rw [hr]
        exact .inr ⟨rfl, rfl, fun h => absurd h Bool.false_ne_true⟩
    | some message =>
        rw [hparse] at hr hrecord
        rw [hr, hrecord]
        exact .inl ⟨_, rfl, rfl⟩
  · rw [hget, Option.bind_none] at hrecord
    rw [hr]
    exact .inr ⟨rfl, rfl, fun _ => hrecord⟩

theorem keepsIds_of_records
    (h : ∀ d doc, docValueDocument config op table db d = some doc →
      doc.documentId = d) :
    KeepsIds (tableContext config faults op table db) := by
  intro d
  rcases innerGetField_cases config faults op table db .docValue
    { documentId := d } with ⟨doc, hdoc, hrow⟩ | ⟨hrow, -⟩
  · exact (congrArg Document.documentId hrow).trans (h d doc hdoc)
  · exact congrArg Document.documentId hrow

theorem scorable_of_hasField {d : DocumentID} {f : FieldID}
    (h : HasField config op table db d f) :
    Scorable (tableContext config faults op table db) d f := by
  obtain ⟨doc, hdoc, hfield⟩ := h
  have hrecord : recordOf config op table db
      (Searcher.fieldsColumn .storedField) d = some doc := hdoc
  intro hstatus
  rcases innerGetField_cases config faults op table db .storedField
    { documentId := d } with ⟨doc', hdoc', hrow⟩ | ⟨-, hno, hnone⟩
  · obtain rfl := Option.some.inj (hrecord.symm.trans hdoc')
    have hvalues : storedValues (tableContext config faults op table db) d =
      doc := hrow
    rw [hvalues]
    exact hfield
  · rcases hstatus with hok | hnot
    · exact absurd (hno.symm.trans hok) Bool.false_ne_true
    · exact absurd (hrecord.symm.trans (hnone hnot)) (Option.some_ne_none doc)

variable [Zero σ] [Add σ] [Mul σ] [Div σ] [NatCast σ]

/-- A strategy answers for a document that has the field. -/
theorem sameFound_score (strategies : List StringScoreStrategy)
    (null : Document → Int → σ) :
    SameFound (strategies.map (·.scoreOr null))
      (strategies.map (·.score)) := by
  refine ⟨?_, fun document f hfield => ?_⟩
  · rw [List.isEmpty_map, List.isEmpty_map]
  · rw [List.map_map, List.map_map]
    refine List.map_congr_left fun s _ => ?_
    obtain ⟨field, hfind⟩ := Option.isSome_iff_exists.1 hfield
    simp only [Function.comp_apply, StringScoreStrategy.scoreOr,
      StringScoreStrategy.score, hfind, Option.map_some]
    split
    · rfl
    · rfl

variable [LT σ] [DecidableLT σ]

/-- Where every posting is of a field that the stored record has, and every
doc-value record carries its own id, no query follows a null pointer. -/
theorem alwaysFinds_of_hasField (hkeys : WellKeyed db)
    (hlists : ListsName (HasField config op table db) op table db)
    (hids : ∀ d doc, docValueDocument config op table db d = some doc →
      doc.documentId = d) :
    AlwaysFinds σ (tableContext config faults op table db) := by
  intro fuel a strategies queues offset limit docs null
  have hscorable : ListsName (Scorable (tableContext config faults op table db))
      op table db := fun f t doc hdoc hne =>
    scorable_of_hasField (hlists f t doc hdoc hne)
  have hkeep := @keepsIds_of_records config faults op table db hids
  have hsame := sameFound_score strategies null
  rw [Searcher.doQuery, Searcher.doQuery]
  dsimp only
  cases hscorer : getScorer fuel (tableContext config faults op table db)
      a.query {} with
  | none => rfl
  | some r =>
      obtain ⟨_ | scorer, st⟩ := r
      · rfl
      · have hnames := getScorer_names hkeys hscorable fuel a.query {} st scorer
          hscorer
        simp only [Option.bind_eq_bind, Option.bind_some]
        cases hit : scorer.iterator fuel with
        | none => rfl
        | some it =>
            let context := tableContext config faults op table db
            let p := pageParams context
              { a with scoreStrategyList := strategies.map (·.scoreOr null) }
              offset limit
            let c : @TopNCollector σ _ _ p.sorter queues :=
              { topN := offset + limit, offset
                getMatchTotalCnt := a.getMatchTotalCnt }
            obtain ⟨hloop, hfound⟩ := collectLoop_scoresWith (p := p) hsame
              hkeep fuel it c (hnames.iterator hit)
              fun doc hdoc => absurd hdoc List.not_mem_nil
            have hcollect :
                (do let c ← @Searcher.collectLoop σ _ _ _ _ (scoresWith p
                      (strategies.map (·.score))) queues fuel it c
                    let c ← @finish σ _ _ _ (scoresWith p
                      (strategies.map (·.score))) queues c
                    some (Searcher.queryResult p st.status docs c)) =
                (do let c ← Searcher.collectLoop p fuel it c
                    let c ← finish p c
                    some (Searcher.queryResult p st.status docs c)) := by
              rw [hloop]
              cases hc : Searcher.collectLoop p fuel it c with
              | none => rfl
              | some c' =>
                  have hfinish := finish_scoresWith (p := p) hsame hkeep c'
                    (hfound c' hc)
                  simp only [Option.bind_eq_bind, Option.bind_some, hfinish]
            exact hcollect

end Query

end Wwsearch.Spec
