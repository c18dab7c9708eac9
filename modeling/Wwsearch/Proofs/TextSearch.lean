import Wwsearch.Proofs.SearchRuns
import Wwsearch.Spec.Search

/-!
# The words of a text find it

The space tokenizer cuts a text into its words (`mem_buildTerms`), so the record
of a text has them for its terms (`textRecords_run`), and the tree of the words
of another text is satisfied where all of them are (`mem_matches_textQuery`). No
leaf of such a tree has a limit, so the status is OK (`withinLimits_textQuery`).
-/

namespace Wwsearch.Spec

open Wwsearch.Lib Wwsearch.Ref

/-! ## The terms of a text -/

/-- The terms of a text are its words. -/
theorem mem_buildTerms {t : Bytes} : ∀ {fuel : Nat} {buffer : Bytes}
    {terms : TermSet}, buffer.length ≤ fuel →
    (t ∈ TokenizerSpaceImpl.buildTerms fuel buffer terms ↔
      t ∈ terms ∨ TextWord buffer t)
  | 0, buffer, terms, hlen => by
      obtain rfl := List.length_eq_zero_iff.1 (Nat.le_zero.1 hlen)
      exact (or_iff_left not_isWord_nil).symm
  | fuel + 1, buffer, terms, hlen => by
      rw [TokenizerSpaceImpl.buildTerms]
      refine Iff.trans ?_ (or_congr_right isWord_dropWhile)
      cases hdrop : buffer.dropWhile TokenizerSpaceImpl.isSkipChar with
      | nil => exact (or_iff_left not_isWord_nil).symm
      | cons c rest =>
          have hhead :=
            List.head?_dropWhile_not TokenizerSpaceImpl.isSkipChar buffer
          rw [hdrop] at hhead
          have hc : TokenizerSpaceImpl.isSkipChar c = false := by simpa using hhead
          -- the word takes up some of the buffer
          have hless : ((c :: rest).dropWhile
              (!TokenizerSpaceImpl.isSkipChar ·)).length ≤ fuel := by
            have hbuffer := (List.dropWhile_sublist
              TokenizerSpaceImpl.isSkipChar (l := buffer)).length_le
            have hrest := (List.dropWhile_sublist
              (!TokenizerSpaceImpl.isSkipChar ·) (l := rest)).length_le
            rw [hdrop, List.length_cons] at hbuffer
            rw [List.dropWhile_cons, if_pos (by rw [hc]; rfl)]
            omega
          dsimp only
          rw [mem_buildTerms hless, isWord_cons hc, Std.ExtTreeSet.mem_insert,
            Std.compare_eq_iff_eq, eq_comm, or_assoc, or_left_comm]

/-- Every field comes with the terms that the tokenizer has for it. -/
theorem mem_doFields {documentId : DocumentID} {field : IndexField} :
    ∀ {fields : List IndexField},
    field ∈ (tokenizerSpaceImpl.doFields documentId fields).1 →
    ∃ given ∈ fields, ∃ terms,
      tokenizerSpaceImpl.fieldTerms documentId given = some terms ∧
      field = { given with terms }
  | [], h => by cases h
  | given :: rest, h => by
      rw [Tokenizer.doFields] at h
      cases hterms : tokenizerSpaceImpl.fieldTerms documentId given with
      | none =>
          simp only [tokenizerSpaceImpl] at hterms
          split at hterms
          · split at hterms
            · cases hterms
            · cases hterms
          · cases hterms
      | some terms =>
          rw [hterms] at h
          rcases List.mem_cons.1 h with rfl | h
          · exact ⟨given, List.mem_cons_self, terms, hterms, rfl⟩
          · obtain ⟨given', hgiven, hfield⟩ := mem_doFields h
            exact ⟨given', List.mem_cons_of_mem _ hgiven, hfield⟩

/-- The record of a text has the text, and the words of the text for its
terms. -/
def TextRecord (config : IndexConfig) (r : FieldRecord) : Prop :=
  ∃ s, r.value = some (.string s) ∧
    ∀ t, t ∈ r.expandedTerms config ↔ TextWord s t

theorem textRecord_ofField {config : IndexConfig} {documentId : DocumentID}
    {given : IndexField} (hgiven : TextField given)
    (hkeeps : given.flag.notStoreInvertTerm = false) {terms : TermSet}
    (hterms : tokenizerSpaceImpl.fieldTerms documentId given = some terms) :
    TextRecord config (FieldRecord.ofField { given with terms }) := by
  refine ⟨given.stringValue, ?_, fun t => ?_⟩
  · simp only [FieldRecord.ofField, valueOf, hgiven.storedField, hgiven.string,
      if_true]
  · have hsplit : terms = TokenizerSpaceImpl.buildTerms given.stringValue.length
        given.stringValue ∅ := by
      simp only [tokenizerSpaceImpl, hgiven.invertIndex, hgiven.string,
        hgiven.tokenize, hgiven.fresh, if_true, and_self] at hterms
      exact (Option.some.inj hterms).symm
    have hwords : t ∈ terms ↔ TextWord given.stringValue t := by
      rw [hsplit, mem_buildTerms (Nat.le_refl _)]
      exact or_iff_right Std.ExtTreeSet.not_mem_empty
    have hwhole : DocumentWriter.expandTerm config { given with terms } =
        fun term => [term] := by
      funext term
      rw [DocumentWriter.expandTerm, if_neg]
      simp [hgiven.wholeTerms]
    rw [@expandedTerms_ofField config { given with terms } hkeeps,
      DocumentWriter.expandedTerms, hwhole, List.flatMap_singleton',
      List.mem_filter, Std.ExtTreeSet.mem_toList, hwords]
    exact and_iff_left_of_imp fun hword => decide_eq_true hword.ne_nil

theorem textRecords_run {config : IndexConfig}
    (hspace : config.tokenizer = tokenizerSpaceImpl) {calls : List WriteCall}
    {f : FieldID} (htexts : ∀ c ∈ calls, GivesTexts f c)
    (hflags : ∀ c ∈ calls, ∀ document ∈ c.documents, ∀ field ∈ document.fields,
      field.flag.notStoreInvertTerm = false) (d : DocumentID) :
    ∀ records ∈ MapWrite.run (calls.map (·.mapWrite config)) d,
      ∀ r ∈ records, r.fieldId = f → TextRecord config r := by
  refine forall_records_run _ (fun w hw p hp r hr hf => ?_) d
  obtain ⟨c, hc, rfl⟩ := List.mem_map.1 hw
  obtain ⟨document, hdocument, rfl⟩ := List.mem_map.1 hp
  obtain ⟨field, hfield, rfl⟩ := List.mem_map.1 hr
  rw [hspace] at hfield
  obtain ⟨given, hgiven, terms, hterms, rfl⟩ := mem_doFields hfield
  exact textRecord_ofField (htexts c hc document hdocument given hgiven hf)
    (hflags c hc document hdocument given hgiven) hterms

/-- The search for all words of a text finds the documents that have them. -/
theorem mem_matches_textQuery {config : IndexConfig} {m : DocumentMap}
    {f : FieldID} (hm : ∀ d, ∀ records ∈ m d, ∀ r ∈ records, r.fieldId = f →
      TextRecord config r) {text : Bytes} {d : DocumentID} :
    d ∈ m.matches config (textQuery f text) ↔
      (∃ w, TextWord text w) ∧ ∀ w, TextWord text w → m.HasWord d f w := by
  have hword : ∀ w, w ∈ (TokenizerSpaceImpl.buildTerms text.length text
      ∅).toList ↔ TextWord text w := fun w => by
    rw [Std.ExtTreeSet.mem_toList, mem_buildTerms (Nat.le_refl _)]
    exact or_iff_right Std.ExtTreeSet.not_mem_empty
  have hhas : ∀ {records}, m d = some records → ∀ w,
      (RecordTerm config records f w ↔ m.HasWord d f w) := by
    intro records hd w
    constructor
    · rintro ⟨r, hr, hf, hw⟩
      obtain ⟨s, hs, hiff⟩ := hm d records hd r hr hf
      exact ⟨records, hd, r, hr, hf, s, hs, (hiff w).1 hw⟩
    · rintro ⟨records', hd', r, hr, hf, s, hs, hw⟩
      obtain rfl := Option.some.inj (hd.symm.trans hd')
      obtain ⟨s', hs', hiff⟩ := hm d records hd r hr hf
      rw [hs] at hs'
      cases hs'
      exact ⟨r, hr, hf, (hiff w).2 hw⟩
  have hnonempty : (∃ w, TextWord text w) ↔ (TokenizerSpaceImpl.buildTerms
      text.length text ∅).toList.map (fun w => Query.booleanQuery f (.term w)) ≠
        [] := by
    rw [Ne, List.map_eq_nil_iff, List.eq_nil_iff_forall_not_mem]
    simp only [hword, not_forall, not_not]
  rw [hnonempty]
  constructor
  · rintro ⟨records, hd, hholds⟩
    rw [textQuery, Holds] at hholds
    obtain ⟨hne, hall⟩ := hholds
    refine ⟨hne, fun w hw => (hhas hd w).1 ?_⟩
    have hholds := hall _ (List.mem_map_of_mem ((hword w).2 hw))
    rwa [Holds] at hholds
  · rintro ⟨hne, hall⟩
    obtain ⟨w, hw⟩ := hnonempty.2 hne
    obtain ⟨records, hd, -⟩ := hall w hw
    refine ⟨records, hd, ?_⟩
    rw [textQuery, Holds]
    refine ⟨hne, fun q hq => ?_⟩
    obtain ⟨w, hw, rfl⟩ := List.mem_map.1 hq
    rw [Holds]
    exact (hhas hd w).2 (hall w ((hword w).1 hw))

/-! ## The status -/

section Search

variable {σ : Type} [LT σ] [DecidableLT σ] [Zero σ] [Add σ]
  {config : IndexConfig} {op : DocListMergeOperator} {table : TableID}

/-- No leaf of the tree has a limit. -/
theorem withinLimits_textQuery (op : DocListMergeOperator) (table : TableID)
    (db : VirtualDB) (f : FieldID) (text : Bytes) :
    WithinLimits op table db (textQuery f text) := by
  rw [textQuery, WithinLimits]
  intro q hq
  obtain ⟨w, -, rfl⟩ := List.mem_map.1 hq
  rw [WithinLimits]
  trivial

theorem termsFit_textQuery (f : FieldID) {text : Bytes}
    (hlen : text.length < 2 ^ 32) : TermsFit (textQuery f text) := by
  rw [textQuery, TermsFit]
  intro q hq
  obtain ⟨w, hw, rfl⟩ := List.mem_map.1 hq
  rw [Std.ExtTreeSet.mem_toList, mem_buildTerms (Nat.le_refl _)] at hw
  rw [TermsFit]
  have hword := (hw.resolve_left Std.ExtTreeSet.not_mem_empty).length_le
  exact lt_of_le_of_lt hword hlen

/-- **A search by a text.** After every run of undisturbed calls that give texts
for a field, the search for the words of a text is answered with status OK, and
its page is cut out of the documents whose texts have, in the map, each of these
words: in descending order, as far as the total limit looks. -/
theorem text_search_refines_map (config : IndexConfig)
    (hspace : config.tokenizer = tokenizerSpaceImpl) (op : DocListMergeOperator)
    (table : TableID) (calls : List WriteCall)
    (h : UndisturbedRun config op table calls)
    (hflags : ∀ c ∈ calls, ∀ document ∈ c.documents, ∀ field ∈ document.fields,
      field.flag.notStoreInvertTerm = false)
    (hcap : ∀ (f : FieldID) (t : Bytes) (ids : List DocumentID), ids.Nodup →
      (∀ d ∈ ids, ∃ records, MapWrite.run (calls.map (·.mapWrite config)) d =
        some records ∧ RecordTerm config records f t) →
      ids.length ≤ op.maxDocListNum.toNat)
    (f : FieldID) (htexts : ∀ c ∈ calls, GivesTexts f c) (text : Bytes)
    (hlen : text.length < 2 ^ 32) (queues : CollectorQueues σ none)
    (offset limit : UInt64) (hpage : offset.toNat + limit.toNat < 2 ^ 64) :
    let context := quietContext config op table
      (runCalls config op table .empty calls)
    let m := MapWrite.run (calls.map (·.mapWrite config))
    ∃ (r : Searcher.QueryResult) (ids : List DocumentID),
      Settles (fun fuel => Searcher.doQuery fuel context
        { query := textQuery f text } queues offset limit []) r ∧
      r.status = {} ∧
      ids.Pairwise (fun a b => b < a) ∧
      (∀ d, d ∈ ids ↔ (∃ w, TextWord text w) ∧
        ∀ w, TextWord text w → m.HasWord d f w) ∧
      r.docs = ((lookedAt context ids).drop offset.toNat).take
        limit.toNat := by
  intro context m
  have hfit := termsFit_textQuery f hlen
  obtain ⟨docs, hwritten⟩ := Written.runCalls op calls
    ⟨h.readFirst, hflags⟩ (written_empty config table)
  have hmap : documentMap config op table
      (runCalls config op table .empty calls) = m := documentMap_runCalls h
  have hwithin := hwritten.withinCap_of_map hmap hcap
  obtain ⟨r, ids, hr, -, hdesc, hids, hall, -, hpageOf⟩ :=
    hwritten.search op { query := textQuery f text } rfl hfit queues offset
      limit
  have hok : r.status = {} :=
    (hwritten.search_status rfl hfit hr).2
      (withinLimits_textQuery op table _ f text)
  refine ⟨r, ids, hr, hok, hdesc, fun d => ?_,
    (hpageOf hpage).window (hwritten.readableDocValues op) hdesc⟩
  have hmatches := @mem_matches_textQuery config m f
    (textRecords_run hspace htexts hflags) text d
  rw [← hmatches, ← hmap, hwritten.matches_eq, ← hwritten.denote_eq hwithin hfit]
  exact ⟨hids d, hall hok d⟩

theorem givesTexts_addSeven : GivesTexts 1 addSeven := by
  intro document hdocument field hfield _
  obtain rfl := List.mem_singleton.1 hdocument
  obtain rfl := List.mem_singleton.1 hfield
  exact ⟨rfl, by decide, by decide, by decide, by decide, rfl⟩

/-- Document 7 has the text `AB C`, and the search is by the text `C AB`. -/
theorem text_search_refines_map_addSeven :
    let context := quietContext spaceConfig millionOperator ⟨1, 2⟩
      (runCalls spaceConfig millionOperator ⟨1, 2⟩ .empty [addSeven])
    let m := MapWrite.run [addSeven.mapWrite spaceConfig]
    ∃ (r : Searcher.QueryResult) (ids : List DocumentID),
      Settles (fun fuel => Searcher.doQuery fuel context
        ({ query := textQuery 1 [67, 32, 65, 66] } : Searcher.QueryArgs Nat)
        plainQueues 0 10 []) r ∧
      r.status = {} ∧ ids.Pairwise (fun a b => b < a) ∧
      (∀ d, d ∈ ids ↔ (∃ w, TextWord [67, 32, 65, 66] w) ∧
        ∀ w, TextWord [67, 32, 65, 66] w → m.HasWord d 1 w) ∧
      r.docs = ((lookedAt context ids).drop 0).take 10 := by
  have hcap := mapCap_of_written undisturbed_addSeven (fun d hd c hc =>
    documentFor_seven hd (List.mem_cons.2 (.inl (List.mem_singleton.1 hc))))
    (by decide)
  exact text_search_refines_map spaceConfig rfl millionOperator ⟨1, 2⟩
    [addSeven] undisturbed_addSeven (by decide) hcap 1
    (fun c hc => List.mem_singleton.1 hc ▸ givesTexts_addSeven)
    [67, 32, 65, 66] (by decide) plainQueues 0 10 (by decide)

end Search

end Wwsearch.Spec
