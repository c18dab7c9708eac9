import Wwsearch.Proofs.Search
import Wwsearch.Proofs.TopN

/-!
# Searches after a run

Three ways to say that a search is right. Whatever was written to any tables, a
page has no document that it should not have, none twice, and no more than it
was asked for (`search_sound`). After a run on the table alone, and while no
limit stands in the way, it is a page of the ranking of all documents that
satisfy the tree and pass the filters (`search_ranks`). And where the calls were
not disturbed, these are the documents of the plain map (`search_refines_map`).
-/

namespace Wwsearch.Spec

open Wwsearch.Lib Wwsearch.Ref

variable {config : IndexConfig} {op : DocListMergeOperator} {table : TableID}

/-! ## Records of the map -/

theorem mem_overlay {r : FieldRecord} (old : List FieldRecord) :
    ∀ {given : List FieldRecord}, r ∈ overlay given old → r ∈ given ∨ r ∈ old := by
  induction old with
  | nil => exact fun h => .inl h
  | cons x old ih =>
      intro given h
      rw [overlay] at h
      split at h
      · exact (ih h).imp_right (List.mem_cons_of_mem x)
      · rcases ih h with h | h
        · rcases List.mem_append.1 h with h | h
          · exact .inl h
          · exact .inr (List.mem_singleton.1 h ▸ List.mem_cons_self)
        · exact .inr (List.mem_cons_of_mem x h)

theorem forall_records_written {P : FieldRecord → Prop}
    {mode : DocumentUpdaterType} {given records : List FieldRecord}
    {old : Option (List FieldRecord)} (hgiven : ∀ r ∈ given, P r)
    (hold : ∀ l ∈ old, ∀ r ∈ l, P r)
    (h : MapWrite.written mode given old = some records) :
    ∀ r ∈ records, P r := by
  have hover : ∀ r ∈ overlay given (old.getD []), P r := by
    intro r hr
    rcases mem_overlay _ hr with hr | hr
    · exact hgiven r hr
    · cases old with
      | none => exact absurd hr List.not_mem_nil
      | some l => exact hold l rfl r hr
  cases mode with
  | add | replace | addWithoutRead => exact Option.some.inj h ▸ hgiven
  | update | addOrUpdate => exact Option.some.inj h ▸ hover
  | delete => exact nomatch h

/-- What holds of all that is given holds of all that the map has. -/
theorem forall_records_run {P : FieldRecord → Prop} (ws : List MapWrite)
    (hws : ∀ w ∈ ws, ∀ p ∈ w.batch, ∀ r ∈ p.2, P r) (d : DocumentID) :
    ∀ records ∈ MapWrite.run ws d, ∀ r ∈ records, P r := by
  induction ws using List.reverseRecOn with
  | nil => exact fun _ h => nomatch h
  | append_singleton before w ih =>
      intro records hrecords
      have hold := ih fun w hw => hws w (List.mem_append_left _ hw)
      rw [MapWrite.run, List.foldl_append] at hrecords
      rw [MapWrite.run] at hold
      generalize before.foldl MapWrite.step (fun _ => none) = m at hrecords hold
      rw [List.foldl_cons, List.foldl_nil, MapWrite.step] at hrecords
      split at hrecords
      · rw [MapWrite.apply] at hrecords
        split at hrecords
        · exact hold records hrecords
        · next p hp =>
            exact forall_records_written (hws w (by simp) p
              (List.mem_of_find?_eq_some hp)) hold hrecords
      · exact hold records hrecords

/-! ## Tables side by side -/

/-- What a run makes of a table is what its calls on the table make of it. -/
theorem sameTable_runCalls (config : IndexConfig) (op : DocListMergeOperator)
    {run : List TableOperation} {calls : List WriteCall}
    (h : run.filter (fun o => o.table = table) =
      calls.map fun c => ⟨table, .writeDocuments c.batch⟩) :
    SameTable table (runCalls config op table .empty calls)
      (TableOperation.runAll config op .empty run) := by
  have hown : TableOperation.runAll config op .empty
      (run.filter fun o => o.table = table) =
        runCalls config op table .empty calls := by
    rw [h, TableOperation.runAll, List.foldl_map]
    rfl
  rw [← hown]
  refine (sameTable_own longKeys_empty longKeys_empty (SameTable.refl _ _)
    fun o ho htable faults column startKey maxLen hoperation => ?_).symm
  have hmem : o ∈ run.filter fun o => o.table = table :=
    List.mem_filter.2 ⟨ho, decide_eq_true htable⟩
  rw [h] at hmem
  obtain ⟨c, -, rfl⟩ := List.mem_map.1 hmem
  cases hoperation

section Search

variable {σ : Type} [LT σ] [DecidableLT σ] [Zero σ] [Add σ]

/-- The same table answers with the same documents. -/
theorem SameTable.settles {db db' : VirtualDB} (h : SameTable table db db')
    {a : Searcher.QueryArgs σ} {queues : CollectorQueues σ a.sorter}
    {offset limit : UInt64} {r : Searcher.QueryResult}
    (hr : Settles (fun fuel => Searcher.doQuery fuel (quietContext config op
      table db) a queues offset limit []) r) :
    ∃ r', Settles (fun fuel => Searcher.doQuery fuel (quietContext config op
      table db') a queues offset limit []) r' ∧ SameButLimit r r' := by
  obtain ⟨n, hn⟩ := hr
  have hrel := @SameTable.doQuery config {} op table db db' σ _ _ _ _ h n a queues
    offset limit []
  have hanswer : Searcher.doQuery n (tableContext config {} op table db) a queues
    offset limit [] = some r := hn n (Nat.le_refl n)
  rw [hanswer] at hrel
  cases hr' : Searcher.doQuery n (tableContext config {} op table db') a queues
      offset limit [] with
  | none =>
      rw [hr'] at hrel
      cases hrel
  | some r' =>
      rw [hr'] at hrel
      cases hrel with
      | some hsame => exact ⟨r', Searcher.doQuery_settles n hr', hsame⟩

theorem SameTable.storedDocument {db db' : VirtualDB}
    (h : SameTable table db db') (d : DocumentID) :
    Spec.storedDocument config op table db' d =
      Spec.storedDocument config op table db d := by
  rw [storedDocument_eq, storedDocument_eq,
    h.get .storedFieldColumn (prefix_storedFieldKey table d)]

theorem SameTable.docValues {db db' : VirtualDB} (h : SameTable table db db')
    (d : DocumentID) :
    Spec.docValues (quietContext config op table db') d =
      Spec.docValues (quietContext config op table db) d :=
  congrArg Prod.snd (h.innerGetField .docValue { documentId := d })

/-- After any searchable run, between any operations on other tables, a query
without score strategies is answered, and its page has no document that is
not stored with a record that satisfies the tree and with doc values that pass
the filters, has none twice, and has no more than the limit: also where a prefix
leaf reached its limit, where a list was cut at its cap, and whatever the queues
are. -/
theorem search_sound (config : IndexConfig) (op : DocListMergeOperator)
    (table : TableID) (run : List TableOperation)
    (hrun : SearchableRun table run) (a : Searcher.QueryArgs σ)
    (hscore : a.scoreStrategyList = []) (hfit : TermsFit a.query)
    (queues : CollectorQueues σ a.sorter) (offset limit : UInt64) :
    let db := TableOperation.runAll config op .empty run
    let context := quietContext config op table db
    ∃ r, Settles (fun fuel => Searcher.doQuery fuel context a queues offset
        limit []) r ∧
      SoundPage context a limit (Sought config op table db a.query) r.docs := by
  obtain ⟨calls, hcalls, hown⟩ := hrun
  obtain ⟨docs, hwritten⟩ := Written.runCalls op calls hcalls
    (written_empty config table)
  obtain ⟨r, ids, hr, -, -, -, -, hsound, -⟩ := hwritten.search op a
    hscore hfit queues offset limit
  have hsame := sameTable_runCalls config op hown
  obtain ⟨r', hr', hlimit⟩ := hsame.settles hr
  refine ⟨r', hr', ?_⟩
  rw [← hlimit.docs]
  refine ⟨hsound.nodup, hsound.length_le, fun d hd => ?_, fun d hd => ?_⟩
  · obtain ⟨doc, hdoc, hholds⟩ :=
      hwritten.denote_subset hfit (hsound.sought d hd)
    exact ⟨doc, (hsame.storedDocument d).trans hdoc, hholds⟩
  · rw [hsame.docValues d]
    exact hsound.filtered d hd

/-- After every searchable run on a table, while no term is in more documents
than a list may hold: a query without score strategies is answered, and unless
its status is that a prefix leaf came to its limit, its page stands in one ranking
of the documents that are stored with a record that satisfies the tree, those
of them that the collector looks at and the filters let through. -/
theorem search_ranks (config : IndexConfig) (op : DocListMergeOperator)
    (table : TableID) (calls : List WriteCall) (hcalls : Searchable calls)
    (hcap : WithinCap config op table (runCalls config op table .empty calls))
    (a : Searcher.QueryArgs σ) (hscore : a.scoreStrategyList = [])
    (hfit : TermsFit a.query) (queues : CollectorQueues σ a.sorter)
    (offset limit : UInt64) (hpage : offset.toNat + limit.toNat < 2 ^ 64) :
    let db := runCalls config op table .empty calls
    let context := quietContext config op table db
    ∃ r, Settles (fun fuel => Searcher.doQuery fuel context a queues offset
        limit []) r ∧
      (r.status = {} ∨ r.status.code = kReachMaxDocListSizeLimit) ∧
      (r.status = {} → ∃ ids : List DocumentID,
        ids.Pairwise (fun a b => b < a) ∧
        (∀ d, d ∈ ids ↔ d ∈ Sought config op table db a.query) ∧
        PageOf context a offset limit ids r) := by
  intro db context
  obtain ⟨docs, hwritten⟩ := Written.runCalls op calls hcalls
    (written_empty config table)
  obtain ⟨r, ids, hr, hstatus, hdesc, hids, hall, -, hpageOf⟩ :=
    hwritten.search op a hscore hfit queues offset limit
  refine ⟨r, hr, hstatus, fun hok => ⟨ids, hdesc, fun d => ?_,
    hpageOf hpage⟩⟩
  rw [← hwritten.denote_eq hcap hfit]
  exact ⟨hids d, hall hok d⟩

/-- No list is too long where few documents were written at all. -/
theorem withinCap_of_written {calls : List WriteCall} {ids : List DocumentID}
    (hids : ∀ d ∉ ids, ∀ c ∈ calls, c.documentFor d = none)
    (hlen : ids.length ≤ op.maxDocListNum.toNat) :
    WithinCap config op table (runCalls config op table .empty calls) := by
  intro f t l hnodup hterm
  have hsub : l ⊆ ids := by
    intro d hd
    obtain ⟨doc, hdoc, -⟩ := hterm d hd
    by_contra hne
    rw [storedDocument_of_not_written (hids d hne)] at hdoc
    cases hdoc
  exact (List.subperm_of_subset hnodup hsub).length_le.trans hlen

/-- The documents with the term `D` in field 1. -/
def searchD : Searcher.QueryArgs Nat where
  query := .booleanQuery 1 (.term [68])

theorem documentFor_seven {d : DocumentID} (hd : d ∉ [7]) {c : WriteCall}
    (hc : c ∈ [addSeven, updateSeven]) : c.documentFor d = none := by
  rw [List.mem_singleton] at hd
  simp only [List.mem_cons, List.not_mem_nil, or_false] at hc
  rcases hc with rfl | rfl
  · simp [WriteCall.documentFor, addSeven, seven, Ne.symm hd]
  · simp [WriteCall.documentFor, updateSeven, seven, Ne.symm hd]

theorem searchable_seven : Searchable [addSeven, updateSeven] :=
  ⟨by simp [ReadFirst, addSeven, updateSeven], by decide⟩

theorem searchable_addSeven : Searchable [addSeven] :=
  ⟨by simp [ReadFirst, addSeven], by decide⟩

/-- Before the update another table is dropped. -/
def sevenRun : List TableOperation :=
  [⟨⟨1, 2⟩, .writeDocuments addSeven.batch⟩, ⟨⟨1, 3⟩, .dropTable {} none⟩,
    ⟨⟨1, 2⟩, .writeDocuments updateSeven.batch⟩]

theorem search_sound_sevenRun :
    ∃ r, Settles (fun fuel => Searcher.doQuery fuel (quietContext spaceConfig
        millionOperator ⟨1, 2⟩ (TableOperation.runAll spaceConfig
          millionOperator .empty sevenRun)) searchD plainQueues 0 10 []) r ∧
      SoundPage (quietContext spaceConfig millionOperator ⟨1, 2⟩
        (TableOperation.runAll spaceConfig millionOperator .empty sevenRun))
        searchD 10 (Sought spaceConfig millionOperator ⟨1, 2⟩
          (TableOperation.runAll spaceConfig millionOperator .empty sevenRun)
          searchD.query) r.docs :=
  search_sound spaceConfig millionOperator ⟨1, 2⟩ sevenRun
    ⟨[addSeven, updateSeven], searchable_seven, rfl⟩ searchD rfl
    (by rw [searchD, TermsFit]; decide) plainQueues 0 10

theorem search_ranks_seven :
    let db := runCalls spaceConfig millionOperator ⟨1, 2⟩ .empty
      [addSeven, updateSeven]
    let context := quietContext spaceConfig millionOperator ⟨1, 2⟩ db
    ∃ (r : Searcher.QueryResult) (ids : List DocumentID),
      Settles (fun fuel => Searcher.doQuery fuel context searchD plainQueues 0
        10 []) r ∧
      r.status = {} ∧ ids.Pairwise (fun a b => b < a) ∧
      (∀ d, d ∈ ids ↔ d ∈ Sought spaceConfig millionOperator ⟨1, 2⟩ db
        searchD.query) ∧
      PageOf context searchD 0 10 ids r := by
  have hfit : TermsFit searchD.query := by rw [searchD, TermsFit]; decide
  obtain ⟨r, hr, -, hpage⟩ := search_ranks spaceConfig millionOperator ⟨1, 2⟩
    [addSeven, updateSeven] searchable_seven
    (withinCap_of_written (fun _ hd _ hc => documentFor_seven hd hc) (by decide))
    searchD rfl hfit plainQueues 0 10 (by decide)
  obtain ⟨docs, hwritten⟩ := Written.runCalls millionOperator
    [addSeven, updateSeven] searchable_seven (written_empty spaceConfig ⟨1, 2⟩)
  have hstatus : r.status = {} := (hwritten.search_status rfl hfit hr).2
    (withinLimits_booleanQuery 1 _)
  obtain ⟨ids, hdesc, hids, hpageOf⟩ := hpage hstatus
  exact ⟨r, ids, hr, hstatus, hdesc, hids, hpageOf⟩

/-! ## The plain map -/

omit [LT σ] [DecidableLT σ] [Zero σ] [Add σ] in
/-- A record of a field has all that its terms depend on. -/
theorem expandedTerms_ofField {field : IndexField}
    (h : field.flag.notStoreInvertTerm = false) :
    (FieldRecord.ofField field).expandedTerms config =
      DocumentWriter.expandedTerms config field := by
  have hterm : ∀ term, DocumentWriter.expandTerm config
      { flag := field.flag, fieldType := field.fieldType, terms := field.terms
        suffixLen := (FieldRecord.ofField field).suffixLen } term =
      DocumentWriter.expandTerm config field term := by
    intro term
    rw [DocumentWriter.expandTerm, DocumentWriter.expandTerm]
    simp only
    split
    · next hbuild =>
        have hlen : (if (FieldRecord.ofField field).suffixLen ≠ 0 then
            (FieldRecord.ofField field).suffixLen else 5) =
            if field.suffixLen ≠ 0 then field.suffixLen else 5 := by
          simp only [FieldRecord.ofField, hbuild.1, if_true]
          split
          · next hzero => simp [hzero]
          · rfl
        rw [hlen]
    · rfl
  have hterms : (FieldRecord.ofField field).terms = field.terms := by
    simp [FieldRecord.ofField, h]
  rw [FieldRecord.expandedTerms, DocumentWriter.expandedTerms,
    DocumentWriter.expandedTerms, hterms]
  exact List.flatMap_congr fun term _ => hterm term

theorem recordTerm_ofField {doc : Document} (h : TermsStored doc) {f : FieldID}
    {t : Bytes} :
    RecordTerm config (doc.fields.map FieldRecord.ofField) f t ↔
      Indexed config doc.fields f t := by
  constructor
  · rintro ⟨r, hr, hid, ht⟩
    obtain ⟨field, hfield, rfl⟩ := List.mem_map.1 hr
    rw [expandedTerms_ofField (h field hfield)] at ht
    exact ⟨field, hfield, hid, ht⟩
  · rintro ⟨field, hfield, hid, ht⟩
    refine ⟨_, List.mem_map_of_mem hfield, hid, ?_⟩
    rw [expandedTerms_ofField (h field hfield)]
    exact ht

theorem termsStored_reread {doc : Document} (h : TermsStored doc) :
    TermsStored (doc.reread .storedField) := by
  intro field hfield
  obtain ⟨field, hmem, rfl⟩ := List.mem_map.1 hfield
  rw [IndexField.reread_flag]
  exact h field hmem

/-- The map that a table decodes to has the terms of its stored records. -/
theorem Written.recordTerm_iff {db : VirtualDB}
    {docs : DocumentID → Option Document} (h : Written config table db docs)
    {d : DocumentID} {f : FieldID} {t : Bytes} :
    (∃ records, documentMap config op table db d = some records ∧
        RecordTerm config records f t) ↔
      StoredTerm config op table db d f t := by
  rw [documentMap, StoredTerm, h.keeps.storedDocument]
  cases hdoc : docs d with
  | none => simp
  | some doc =>
      have hiff : RecordTerm config ((doc.reread .storedField).fields.map
          FieldRecord.ofField) f t ↔ _ :=
        recordTerm_ofField (termsStored_reread (h.termsStored d doc hdoc))
      simpa using hiff

/-- A cap on the map is one on the table. -/
theorem Written.withinCap_of_map {db : VirtualDB}
    {docs : DocumentID → Option Document} (h : Written config table db docs)
    {m : DocumentMap} (hmap : documentMap config op table db = m)
    (hcap : ∀ (f : FieldID) (t : Bytes) (ids : List DocumentID), ids.Nodup →
      (∀ d ∈ ids, ∃ records, m d = some records ∧
        RecordTerm config records f t) →
      ids.length ≤ op.maxDocListNum.toNat) :
    WithinCap config op table db := by
  subst hmap
  exact fun f t ids hnodup hids =>
    hcap f t ids hnodup fun d hd => h.recordTerm_iff.2 (hids d hd)

theorem Written.matches_eq {db : VirtualDB}
    {docs : DocumentID → Option Document} (h : Written config table db docs)
    (q : Query) : (documentMap config op table db).matches config q =
      Sought config op table db q := by
  ext d
  have hstored : ∀ doc, docs d = some doc →
      TermsStored (doc.reread .storedField) :=
    fun doc hdoc => termsStored_reread (h.termsStored d doc hdoc)
  simp only [DocumentMap.matches, Sought, documentMap, h.keeps.storedDocument,
    Set.mem_ofPred_eq, Option.map_map, Option.map_eq_some_iff]
  constructor
  · rintro ⟨records, ⟨doc, hdoc, rfl⟩, hq⟩
    exact ⟨_, ⟨doc, hdoc, rfl⟩,
      (holds_congr (fun f t => recordTerm_ofField (hstored doc hdoc)) q).1 hq⟩
  · rintro ⟨_, ⟨doc, hdoc, rfl⟩, hq⟩
    exact ⟨_, ⟨doc, hdoc, rfl⟩,
      (holds_congr (fun f t => recordTerm_ofField (hstored doc hdoc)) q).2 hq⟩

theorem UndisturbedRun.readFirst {calls : List WriteCall}
    (h : UndisturbedRun config op table calls) : ReadFirst calls := by
  intro c hc
  obtain ⟨before, after, hsplit⟩ := List.append_of_mem hc
  exact (h before c after hsplit).reads

omit [LT σ] [DecidableLT σ] [Zero σ] [Add σ] in
/-- Without filters and sort conditions a page is cut out of the ids. -/
theorem PageOf.window {context : SearchContext} {q : Query}
    {offset limit : UInt64} {ids : List DocumentID}
    {r : Searcher.QueryResult} (hread : ReadableDocValues context)
    (hdesc : ids.Pairwise fun a b => b < a)
    (h : PageOf context ({ query := q } : Searcher.QueryArgs σ) offset limit ids
      r) :
    r.docs = ((lookedAt context ids).drop offset.toNat).take limit.toNat := by
  obtain ⟨s, hperm, hsorted, hdocs⟩ := h.ranking
  have hmatching : matching context ({ query := q } : Searcher.QueryArgs σ) ids =
      lookedAt context ids :=
    List.filter_eq_self.2 fun _ _ => rfl
  rw [hmatching] at hperm
  have hlooked := hdesc.sublist (lookedAt_sublist context ids)
  have hties := noTies_of_no_sorter (a := ({ query := q } :
    Searcher.QueryArgs σ)) hread rfl hlooked
  have hweak := strictWeak_sortsBefore context
    ({ query := q } : Searcher.QueryArgs σ)
  have hfront : Sorted (sortsBefore context ({ query := q } :
      Searcher.QueryArgs σ)) (lookedAt context ids) := by
    refine hlooked.imp fun {d e} hlt => hweak.asymm ?_
    rw [sortsBefore, sorter, (hread d).2, (hread e).2]
    exact decide_eq_true hlt
  rw [hdocs, hsorted.eq_of_perm hfront (hties.perm hperm.symm) hperm]

/-- After every run of undisturbed calls that can be searched, a query is a query
of the plain map: unless its status is that a prefix leaf came to its limit, it
returns the page of the ids under which the map has what satisfies the tree, in
descending order and as far as the total limit looks, where in the map no more
ids than a list may hold have a term in common. -/
theorem search_refines_map (config : IndexConfig) (op : DocListMergeOperator)
    (table : TableID) (calls : List WriteCall)
    (h : UndisturbedRun config op table calls)
    (hflags : ∀ c ∈ calls, ∀ document ∈ c.documents, ∀ field ∈ document.fields,
      field.flag.notStoreInvertTerm = false)
    (hcap : ∀ (f : FieldID) (t : Bytes) (ids : List DocumentID), ids.Nodup →
      (∀ d ∈ ids, ∃ records, MapWrite.run (calls.map (·.mapWrite config)) d =
        some records ∧ RecordTerm config records f t) →
      ids.length ≤ op.maxDocListNum.toNat)
    (q : Query) (hfit : TermsFit q) (queues : CollectorQueues σ none)
    (offset limit : UInt64) (hpage : offset.toNat + limit.toNat < 2 ^ 64) :
    let context := quietContext config op table
      (runCalls config op table .empty calls)
    let m := MapWrite.run (calls.map (·.mapWrite config))
    ∃ r, Settles (fun fuel => Searcher.doQuery fuel context { query := q } queues
        offset limit []) r ∧
      (r.status = {} ∨ r.status.code = kReachMaxDocListSizeLimit) ∧
      (r.status = {} → ∃ ids : List DocumentID,
        ids.Pairwise (fun a b => b < a) ∧
        (∀ d, d ∈ ids ↔ d ∈ m.matches config q) ∧
        r.docs = ((lookedAt context ids).drop offset.toNat).take
          limit.toNat) := by
  intro context m
  obtain ⟨docs, hwritten⟩ := Written.runCalls op calls
    ⟨h.readFirst, hflags⟩ (written_empty config table)
  have hmap : documentMap config op table
      (runCalls config op table .empty calls) = m := documentMap_runCalls h
  have hwithin := hwritten.withinCap_of_map hmap hcap
  obtain ⟨r, ids, hr, hstatus, hdesc, hids, hall, -, hpageOf⟩ :=
    hwritten.search op { query := q } rfl hfit queues offset
      limit
  refine ⟨r, hr, hstatus, fun hok => ⟨ids, hdesc, fun d => ?_,
    (hpageOf hpage).window (hwritten.readableDocValues op) hdesc⟩⟩
  rw [← hmap, hwritten.matches_eq, ← hwritten.denote_eq hwithin hfit]
  exact ⟨hids d, hall hok d⟩

/-- Nothing passes the cap in the map either where few documents were written. -/
theorem mapCap_of_written {calls : List WriteCall} {ids : List DocumentID}
    (h : UndisturbedRun config op table calls)
    (hids : ∀ d ∉ ids, ∀ c ∈ calls, c.documentFor d = none)
    (hlen : ids.length ≤ op.maxDocListNum.toNat) (f : FieldID) (t : Bytes)
    (l : List DocumentID) (hnodup : l.Nodup)
    (hl : ∀ d ∈ l, ∃ records, MapWrite.run (calls.map (·.mapWrite config)) d =
      some records ∧ RecordTerm config records f t) :
    l.length ≤ op.maxDocListNum.toNat := by
  have hsub : l ⊆ ids := by
    intro d hd
    obtain ⟨records, hrecords, -⟩ := hl d hd
    by_contra hne
    rw [← documentMap_runCalls h, documentMap,
      storedDocument_of_not_written (hids d hne)] at hrecords
    cases hrecords
  exact (List.subperm_of_subset hnodup hsub).length_le.trans hlen

theorem undisturbed_addSeven :
    UndisturbedRun spaceConfig millionOperator ⟨1, 2⟩ [addSeven] := by
  intro before c after hsplit
  match before, hsplit with
  | [], hsplit =>
      obtain rfl := (List.cons.inj hsplit).1
      refine ⟨rfl, rfl, by decide, by decide, by decide +kernel, ?_, ?_⟩
      · intro _ document hdoc
        obtain rfl := List.mem_singleton.1 hdoc
        exact ⟨fun _ _ => by decide +kernel, fun _ _ => by decide +kernel⟩
      · exact fun _ => by decide +kernel
  | x :: before, hsplit =>
      exact absurd (congrArg List.length hsplit) (by simp)

/-- The documents with the term `C` in field 1. -/
def searchC : Query := .booleanQuery 1 (.term [67])

theorem search_refines_map_addSeven :
    let context := quietContext spaceConfig millionOperator ⟨1, 2⟩
      (runCalls spaceConfig millionOperator ⟨1, 2⟩ .empty [addSeven])
    let m := MapWrite.run [addSeven.mapWrite spaceConfig]
    ∃ (r : Searcher.QueryResult) (ids : List DocumentID),
      Settles (fun fuel => Searcher.doQuery fuel context
        ({ query := searchC } : Searcher.QueryArgs Nat) plainQueues 0 10 []) r ∧
      r.status = {} ∧ ids.Pairwise (fun a b => b < a) ∧
      (∀ d, d ∈ ids ↔ d ∈ m.matches spaceConfig searchC) ∧
      r.docs = ((lookedAt context ids).drop 0).take 10 := by
  have hfit : TermsFit searchC := by rw [searchC, TermsFit]; decide
  have hcap := mapCap_of_written undisturbed_addSeven (fun d hd c hc =>
    documentFor_seven hd (List.mem_cons.2 (.inl (List.mem_singleton.1 hc))))
    (by decide)
  obtain ⟨r, hr, -, hpage⟩ := search_refines_map spaceConfig millionOperator
    ⟨1, 2⟩ [addSeven] undisturbed_addSeven (by decide) hcap searchC hfit
    plainQueues 0 10 (by decide)
  obtain ⟨docs, hwritten⟩ := Written.runCalls millionOperator [addSeven]
    searchable_addSeven (written_empty spaceConfig ⟨1, 2⟩)
  have hstatus : r.status = {} := (hwritten.search_status rfl hfit hr).2
    (withinLimits_booleanQuery 1 _)
  obtain ⟨ids, hdesc, hids, hdocs⟩ := hpage hstatus
  exact ⟨r, ids, hr, hstatus, hdesc, hids, hdocs⟩

end Search

end Wwsearch.Spec
