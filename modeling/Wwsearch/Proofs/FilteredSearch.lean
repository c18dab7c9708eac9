import Wwsearch.Proofs.SearchRuns
import Wwsearch.Spec.Filters

/-!
# Filtered searches and the plain map

What the collector gets for a document is its doc-value record, and where every
field flagged DocValue is flagged Stored as well, that is what the map has of it
(`docValues_eq`). A filter looks up the first field with its id there, and
answers by the value alone (`matchValue_iff`). So a search with the filters of
the library and with any sort conditions is a search of the map.
-/

namespace Wwsearch.Spec

open Wwsearch.Lib Wwsearch.Ref

/-! ## A filter and a value -/

/-- What the checks of a type say of the value. -/
inductive TypedValue (field : IndexField) : FieldValue → Prop
  | string : field.checkFieldTypeString = true →
      field.checkFieldTypeNumeric = false →
      TypedValue field (.string field.stringValue)
  | numeric : field.checkFieldTypeString = false →
      field.checkFieldTypeNumeric = true →
      TypedValue field (.numeric field.numericValue)
  | unknown : field.checkFieldTypeString = false →
      field.checkFieldTypeNumeric = false → TypedValue field .unknown

theorem typedValue (field : IndexField) : TypedValue field (valueOf field) := by
  rw [valueOf]
  by_cases hstring : field.fieldType = kStringIndexField
  · rw [if_pos hstring]
    exact .string (by simp [IndexField.checkFieldTypeString, hstring])
      (by rw [IndexField.checkFieldTypeNumeric, hstring]; decide)
  · have hno : field.checkFieldTypeString = false := by
      simp [IndexField.checkFieldTypeString, hstring]
    rw [if_neg hstring]
    by_cases hnumeric : field.fieldType = kUint32IndexField ∨
        field.fieldType = kUint64IndexField
    · rw [if_pos hnumeric]
      exact .numeric hno (by
        simpa [IndexField.checkFieldTypeNumeric] using hnumeric)
    · rw [if_neg hnumeric]
      exact .unknown hno (by
        simpa [IndexField.checkFieldTypeNumeric] using hnumeric)

/-- The strings that are counted are no more than 32 bits count. -/
theorem innerMatch_iff {values : List Bytes} (hlen : values.length < 2 ^ 32)
    (num : UInt32) (field : IndexField) :
    FilterRule.innerMatch values num field = true ↔
      min num.toNat values.length ≤
        values.countP fun t => decide (t <:+: field.stringValue) := by
  have hcount := List.countP_le_length (p := fun t => decide (t <:+:
    field.stringValue)) (l := values)
  rw [FilterRule.innerMatch, FilterRule.minShouldMatch]
  simp only [decide_eq_true_eq]
  split
  · next h =>
      rw [UInt32.le_iff_toNat_le, UInt32.toNat_ofNat', UInt32.toNat_ofNat',
        Nat.mod_eq_of_lt hlen, Nat.mod_eq_of_lt (hcount.trans_lt hlen),
        Nat.min_eq_right h.le]
  · next h =>
      rw [UInt32.le_iff_toNat_le, UInt32.toNat_ofNat',
        Nat.mod_eq_of_lt (hcount.trans_lt hlen),
        Nat.min_eq_left (Nat.not_lt.1 h)]

section Match

variable (own field : IndexField)

theorem compareValues_eq (numeric : UInt64 → UInt64 → Bool)
    (string : Bytes → Bytes → Bool) :
    FilterRule.compareValues own field numeric string =
      match valueOf own, valueOf field with
      | .numeric n, .numeric k => numeric n k
      | .string s, .string t => string s t
      | _, _ => false := by
  have hown := typedValue own
  have hfield := typedValue field
  rw [FilterRule.compareValues]
  generalize valueOf own = v at hown
  generalize valueOf field = w at hfield
  cases hown <;> cases hfield <;> simp [*]

theorem findValue_eq (found : Bool → Bool) :
    FilterRule.findValue own field found =
      match valueOf own, valueOf field with
      | .string t, .string s => found (decide (t <:+: s))
      | _, _ => false := by
  have hown := typedValue own
  have hfield := typedValue field
  rw [FilterRule.findValue]
  generalize valueOf own = v at hown
  generalize valueOf field = w at hfield
  cases hown <;> cases hfield <;> simp [*]

theorem findNumeric_eq (found : Bool → Bool) :
    FilterRule.findNumeric own field found =
      match valueOf own, valueOf field with
      | .numeric _, .numeric n => found (own.numericList.contains n)
      | _, _ => false := by
  have hown := typedValue own
  have hfield := typedValue field
  rw [FilterRule.findNumeric]
  generalize valueOf own = v at hown
  generalize valueOf field = w at hfield
  cases hown <;> cases hfield <;> simp [*]

end Match

/-- A filter answers by the value. -/
theorem matchValue_iff {rule : FilterRule} (hfit : ListsFit rule)
    (field : IndexField) :
    rule.matchValue field = true ↔ Accepts rule (valueOf field) := by
  cases rule with
  | equalFilter own =>
      rw [FilterRule.matchValue, compareValues_eq, Accepts]
      cases valueOf own <;> cases valueOf field <;> simp
  | notEqualFilter own =>
      rw [FilterRule.matchValue, compareValues_eq, Accepts]
      cases valueOf own <;> cases valueOf field <;>
        simp [FieldValue.SameKind]
  | rangeFilter own first last =>
      have hfield := typedValue field
      rw [FilterRule.matchValue, Accepts]
      generalize valueOf field = v at hfield
      cases hfield <;> simp [*]
  | inFilter own =>
      rw [FilterRule.matchValue, findValue_eq, Accepts]
      cases valueOf own <;> cases valueOf field <;> simp
  | notInFilter own =>
      rw [FilterRule.matchValue, findValue_eq, Accepts]
      cases valueOf own <;> cases valueOf field <;> simp
  | inNumericListFilter own =>
      rw [FilterRule.matchValue, findNumeric_eq, Accepts]
      cases valueOf own <;> cases valueOf field <;> simp
  | notInNumericListFilter own =>
      rw [FilterRule.matchValue, findNumeric_eq, Accepts]
      cases valueOf own <;> cases valueOf field <;> simp
  | matchStringListFilter own values revert num =>
      have hfield := typedValue field
      have hmatch := innerMatch_iff hfit num field
      rw [FilterRule.matchValue, Accepts]
      generalize valueOf field = v at hfield
      cases hfield with
      | string hstring hnumeric =>
          rw [hstring]
          cases revert with
          | false => simpa using hmatch
          | true => simpa using not_congr hmatch
      | numeric hstring hnumeric => simp [hstring]
      | unknown hstring hnumeric => simp [hstring]

/-! ## The doc values of the map -/

/-- A record of a field that is stored is the field, as a doc-value record has
it. -/
theorem field_ofField {field : IndexField} (hdv : field.flag.docValue = true)
    (hstored : field.flag.storedField = true) :
    (FieldRecord.ofField field).field = field.reread .docValue := by
  have hcarries : field.carries .docValue = true := hdv
  have hvalue : (FieldRecord.ofField field).value = some (valueOf field) :=
    if_pos hstored
  have hstring : (FieldRecord.ofField field).field.stringValue =
      (field.reread .docValue).stringValue := by
    rw [IndexField.reread_stringValue, hcarries, FieldRecord.field, hvalue,
      valueOf]
    by_cases h : field.fieldType = kStringIndexField
    · simp [h]
    · have hno : ¬ (true = true ∧ field.fieldType = kStringIndexField) :=
        fun hboth => h hboth.2
      rw [if_neg h, if_neg hno]
      by_cases hnum : field.fieldType = kUint32IndexField ∨
          field.fieldType = kUint64IndexField
      · rw [if_pos hnum]
      · rw [if_neg hnum]
  have hnumeric : (FieldRecord.ofField field).field.numericValue =
      (field.reread .docValue).numericValue := by
    rw [IndexField.reread_numericValue, hcarries, FieldRecord.field, hvalue,
      valueOf]
    by_cases h : field.fieldType = kStringIndexField
    · rw [if_pos h, h, if_neg (by decide)]
    · rw [if_neg h]
      by_cases hnum : field.fieldType = kUint32IndexField ∨
          field.fieldType = kUint64IndexField
      · rw [if_pos hnum, if_pos ⟨rfl, hnum⟩]
      · rw [if_neg hnum, if_neg fun hboth => hnum hboth.2]
  have hsuffix : (FieldRecord.ofField field).field.suffixLen =
      (field.reread .docValue).suffixLen := by
    rw [IndexField.reread_suffixLen, IndexField.effectiveSuffixLen,
      FieldRecord.field, FieldRecord.ofField]
    by_cases h : field.suffixLen = 0
    · simp [h]
    · simp [h]
  have hid := IndexField.reread_fieldId .docValue field
  have hflag := IndexField.reread_flag .docValue field
  have hrest : (field.reread .docValue).useOuterSegmentTerms = false ∧
      (field.reread .docValue).terms = ∅ ∧
      (field.reread .docValue).numericList = [] := ⟨rfl, rfl, rfl⟩
  have htype := IndexField.reread_fieldType .docValue field
  generalize field.reread .docValue = r at *
  cases r
  obtain ⟨rfl, rfl, rfl⟩ := hrest
  dsimp only at hid hflag htype hstring hnumeric hsuffix
  rw [← hstring, ← hnumeric, ← hsuffix, hid, hflag, htype]
  rfl

/-- Every record with the flag DocValue has the flag Stored. -/
def ValuesStored (records : List FieldRecord) : Prop :=
  ∀ r ∈ records, r.flag.docValue = true → r.flag.storedField = true

theorem fields_ofField {fields : List IndexField}
    (h : ValuesStored (fields.map FieldRecord.ofField)) :
    ((fields.map FieldRecord.ofField).filter (·.flag.docValue)).map
        FieldRecord.field =
      (fields.filter (·.flag.docValue)).map (·.reread .docValue) := by
  rw [List.filter_map, List.map_map]
  have hfilter : fields.filter ((fun r : FieldRecord => r.flag.docValue) ∘
      FieldRecord.ofField) = fields.filter (·.flag.docValue) := rfl
  rw [hfilter]
  refine List.map_congr_left fun field hfield => ?_
  obtain ⟨hmem, hdv⟩ := List.mem_filter.1 hfield
  exact field_ofField hdv (h _ (List.mem_map_of_mem hmem) hdv)

/-- The doc values that the collector reads are those of the map. -/
theorem Written.docValues_eq {config : IndexConfig} {table : TableID}
    {db : VirtualDB} {docs : DocumentID → Option Document}
    (h : Written config table db docs) (op : DocListMergeOperator)
    (hstored : ∀ d records, documentMap config op table db d = some records →
      ValuesStored records) (d : DocumentID) :
    docValues (quietContext config op table db) d =
      (documentMap config op table db).docValues d := by
  obtain ⟨status, -, hrow⟩ := h.docValueRow_eq op d
  have hmap := @Keeps.documentMap config op table _ _ h.keeps d
  rw [docValues, hrow, DocumentMap.docValues, hmap]
  cases hdoc : docs d with
  | none => rfl
  | some doc =>
      rw [hdoc, Option.map_some] at hmap
      rw [Option.map_some, Option.getD_some, fields_ofField (hstored d _ hmap)]
      cases hdv : hasDocValue doc with
      | true =>
          rw [Option.filter_some, if_pos hdv]
          show doc.reread .docValue = _
          rw [Document.reread, Document.recordFields, h.ids d doc hdoc]
      | false =>
          rw [Option.filter_some, if_neg (by rw [hdv]; decide)]
          have hnil : doc.fields.filter (·.flag.docValue) = [] := by
            rw [List.filter_eq_nil_iff]
            intro field hfield hyes
            rw [hasDocValue, List.any_eq_false] at hdv
            exact hdv field hfield hyes
          rw [hnil]
          rfl

/-! ## What the records are flagged -/

theorem valuesStored_mapWrite {config : IndexConfig} {c : WriteCall}
    (hc : KeepsValues c) : ∀ p ∈ (c.mapWrite config).batch,
    ValuesStored p.2 := by
  intro p hp r hr
  obtain ⟨document, hdocument, rfl⟩ := List.mem_map.1 hp
  obtain ⟨field, hfield, rfl⟩ := List.mem_map.1 hr
  obtain ⟨given, hgiven, hflag⟩ :=
    flag_of_mem_doFields config.tokenizer document.documentId _ hfield
  show field.flag.docValue = true → field.flag.storedField = true
  rw [hflag]
  exact hc document hdocument given hgiven

theorem valuesStored_run {config : IndexConfig} (calls : List WriteCall)
    (hcalls : ∀ c ∈ calls, KeepsValues c) (d : DocumentID) :
    ∀ records ∈ MapWrite.run (calls.map (·.mapWrite config)) d,
      ValuesStored records := by
  refine forall_records_run _ (fun w hw => ?_) d
  obtain ⟨c, hc, rfl⟩ := List.mem_map.1 hw
  exact valuesStored_mapWrite (hcalls c hc)

/-! ## Filters on the map -/

section Passes

variable {m : DocumentMap} {d : DocumentID}

theorem find?_field {fields : List IndexField}
    (h : ValuesStored (fields.map FieldRecord.ofField)) (f : FieldID) :
    ((((fields.map FieldRecord.ofField).filter (·.flag.docValue)).map
        FieldRecord.field).find? (·.fieldId == f)).map valueOf =
      ((fields.map FieldRecord.ofField).find? fun r =>
        r.flag.docValue && r.fieldId == f).bind (·.value) := by
  induction fields with
  | nil => rfl
  | cons field fields ih =>
      have hrest := ih fun r hr => h r (List.mem_cons_of_mem _ hr)
      rw [List.map_cons, List.filter_cons, List.find?_cons]
      cases hdv : (FieldRecord.ofField field).flag.docValue with
      | false =>
          rw [if_neg (by decide), Bool.false_and]
          exact hrest
      | true =>
          have hstored := h _ List.mem_cons_self hdv
          have hfield := field_ofField hdv hstored
          rw [if_pos rfl, List.map_cons, List.find?_cons, Bool.true_and]
          have hid : (FieldRecord.ofField field).field.fieldId =
            (FieldRecord.ofField field).fieldId := rfl
          rw [hid]
          split
          · have hcarries : field.carries .docValue = true := hdv
            have hvalue : (FieldRecord.ofField field).value =
              some (valueOf field) := if_pos hstored
            rw [Option.map_some, Option.bind_some, hvalue, hfield, valueOf_reread,
              if_pos hcarries]
          · exact hrest

/-- The field that a filter is shown has the value of the map. -/
theorem findField_docValues (hof : ∀ records ∈ m d, ValuesStored records ∧
      ∃ fields : List IndexField, records = fields.map FieldRecord.ofField)
    (f : FieldID) :
    ((m.docValues d).findField f).map valueOf = m.value d f := by
  rw [DocumentMap.docValues, Document.findField, DocumentMap.value]
  cases hm : m d with
  | none => rfl
  | some records =>
      obtain ⟨hstored, fields, rfl⟩ := hof records hm
      exact find?_field hstored f

theorem satisfies_iff (hof : ∀ records ∈ m d, ValuesStored records ∧
      ∃ fields : List IndexField, records = fields.map FieldRecord.ofField)
    {rule : FilterRule} (hfit : ListsFit rule) :
    rule.filter.matchField ((m.docValues d).findField rule.filter.fieldId) =
        true ↔ m.Satisfies d rule := by
  have hvalue := findField_docValues hof rule.ownField.fieldId
  have hid : rule.filter.fieldId = rule.ownField.fieldId := rfl
  rw [DocumentMap.Satisfies, ← hvalue, hid]
  cases (m.docValues d).findField rule.ownField.fieldId with
  | none => simp [FilterRule.filter]
  | some field => simpa [FilterRule.filter] using matchValue_iff hfit field

/-- The count of the collector is the number of filters that are passed. -/
theorem matchFilter_iff (hof : ∀ records ∈ m d, ValuesStored records ∧
      ∃ fields : List IndexField, records = fields.map FieldRecord.ofField)
    {rules : List FilterRule} (hfit : ∀ rule ∈ rules, ListsFit rule)
    (hlen : rules.length < 2 ^ 32) {num min' : UInt32}
    (hmin : min'.toNat = neededFilters rules num) :
    matchFilter (some (rules.map FilterRule.filter)) min' (m.docValues d) = true ↔
      m.Passes d rules num := by
  classical
  have hcount : (rules.map FilterRule.filter).countP (fun rule =>
      rule.matchField ((m.docValues d).findField rule.fieldId)) =
      rules.countP fun rule => decide (m.Satisfies d rule) := by
    rw [List.countP_map]
    refine List.countP_congr fun rule hrule => ?_
    rw [Function.comp_apply, satisfies_iff hof (hfit rule hrule),
      decide_eq_true_eq]
  have hle := List.countP_le_length (p := fun rule =>
    decide (m.Satisfies d rule)) (l := rules)
  rw [matchFilter]
  simp only [hcount, decide_eq_true_eq]
  rw [UInt32.le_iff_toNat_le, UInt32.toNat_ofNat', hmin,
    Nat.mod_eq_of_lt (hle.trans_lt hlen), DocumentMap.Passes]

end Passes

/-! ## The search -/

section Search

variable {σ : Type} [LT σ] [DecidableLT σ] [Zero σ] [Add σ]

omit [LT σ] [DecidableLT σ] [Zero σ] [Add σ] in
/-- What the collector lets through is what passes in the map. -/
theorem matchFilter_params {context : SearchContext} {m : DocumentMap}
    {d : DocumentID} (hof : ∀ records ∈ m d, ValuesStored records ∧
      ∃ fields : List IndexField, records = fields.map FieldRecord.ofField)
    {a : Searcher.QueryArgs σ} {rules : List FilterRule}
    (hrules : a.filter.getD [] = rules.map FilterRule.filter)
    (hfit : ∀ rule ∈ rules, ListsFit rule) (hlen : rules.length < 2 ^ 32) :
    matchFilter a.filter (pageParams context a 0 0).minMatchFilterNum
        (m.docValues d) = true ↔ m.Passes d rules a.minMatchFilterNum := by
  cases hfilter : a.filter with
  | none =>
      rw [hfilter] at hrules
      obtain rfl := List.map_eq_nil_iff.1 hrules.symm
      refine iff_of_true rfl ?_
      rw [DocumentMap.Passes, neededFilters, if_pos (Nat.eq_zero_or_pos
        a.minMatchFilterNum.toNat |>.imp (UInt32.toNat_inj.1 ·) id)]
      exact Nat.zero_le _
  | some l =>
      rw [hfilter, Option.getD_some] at hrules
      subst hrules
      refine matchFilter_iff hof hfit hlen ?_
      rw [toNat_minMatchFilterNum hfilter (by rwa [List.length_map]),
        neededFilters, neededFilters, List.length_map]

/-- **A filtered and sorted search is one of the plain map.** After every run of
undisturbed calls that can be searched and store their doc values: unless a
prefix leaf came to its limit, the page is cut out of one ranking, by the map's
doc values, of the documents that have in the map what satisfies the tree and
values that the filters are for, as many as are asked for. -/
theorem filtered_search_refines_map (config : IndexConfig)
    (op : DocListMergeOperator) (table : TableID) (calls : List WriteCall)
    (h : UndisturbedRun config op table calls)
    (hflags : ∀ c ∈ calls, ∀ document ∈ c.documents, ∀ field ∈ document.fields,
      field.flag.notStoreInvertTerm = false)
    (hvalues : ∀ c ∈ calls, KeepsValues c)
    (hcap : ∀ (f : FieldID) (t : Bytes) (ids : List DocumentID), ids.Nodup →
      (∀ d ∈ ids, ∃ records, MapWrite.run (calls.map (·.mapWrite config)) d =
        some records ∧ RecordTerm config records f t) →
      ids.length ≤ op.maxDocListNum.toNat)
    (a : Searcher.QueryArgs σ) (hscore : a.scoreStrategyList = [])
    (hfit : TermsFit a.query) (rules : List FilterRule)
    (hrules : a.filter.getD [] = rules.map FilterRule.filter)
    (hlists : ∀ rule ∈ rules, ListsFit rule) (hlen : rules.length < 2 ^ 32)
    (queues : CollectorQueues σ a.sorter) (offset limit : UInt64)
    (hpage : offset.toNat + limit.toNat < 2 ^ 64) :
    let context := quietContext config op table
      (runCalls config op table .empty calls)
    let m := MapWrite.run (calls.map (·.mapWrite config))
    ∃ r, Settles (fun fuel => Searcher.doQuery fuel context a queues offset
        limit []) r ∧
      (r.status = {} ∨ r.status.code = kReachMaxDocListSizeLimit) ∧
      (r.status = {} → ∃ ids ranking : List DocumentID,
        ids.Pairwise (fun a b => b < a) ∧
        (∀ d, d ∈ ids ↔ d ∈ m.matches config a.query) ∧
        ranking.Nodup ∧
        (∀ d, d ∈ ranking ↔ d ∈ lookedAt context ids ∧
          m.Passes d rules a.minMatchFilterNum) ∧
        Sorted (fun d e => sorter a.sorter (m.docValues d) (m.docValues e))
          ranking ∧
        r.docs = (ranking.drop offset.toNat).take limit.toNat ∧
        r.getMatchTotalCnt =
          a.getMatchTotalCnt.map (· + ranking.length.toUInt32)) := by
  intro context m
  obtain ⟨docs, hwritten⟩ := Written.runCalls op calls
    ⟨h.readFirst, hflags⟩ (written_empty config table)
  have hmap : documentMap config op table
      (runCalls config op table .empty calls) = m := documentMap_runCalls h
  have hstored : ∀ d, ∀ records ∈ m d, ValuesStored records :=
    valuesStored_run calls hvalues
  have hvaluesEq : docValues context = m.docValues := by
    funext d
    rw [← hmap]
    refine hwritten.docValues_eq op (fun d records hd => ?_) d
    rw [hmap] at hd
    exact hstored d records hd
  have hof : ∀ d, ∀ records ∈ m d, ValuesStored records ∧
      ∃ fields : List IndexField, records = fields.map FieldRecord.ofField := by
    intro d records hd
    refine ⟨hstored d records hd, ?_⟩
    rw [← hmap, documentMap] at hd
    obtain ⟨doc, -, rfl⟩ := Option.map_eq_some_iff.1 hd
    exact ⟨_, rfl⟩
  have hwithin := hwritten.withinCap_of_map hmap hcap
  obtain ⟨r, ids, hr, hstatus, hdesc, hids, hall, -, hpageOf⟩ :=
    hwritten.search op a hscore hfit queues offset limit
  obtain ⟨⟨ranking, hperm, hsorted, hdocs⟩, htotal⟩ := hpageOf hpage
  refine ⟨r, hr, hstatus, fun hok => ⟨ids, ranking, hdesc, fun d => ?_, ?_,
    fun d => ?_, ?_, hdocs, ?_⟩⟩
  · rw [← hmap, hwritten.matches_eq, ← hwritten.denote_eq hwithin hfit]
    exact ⟨hids d, hall hok d⟩
  · have hnodup : ids.Nodup := hdesc.imp fun h => h.ne'
    exact hperm.nodup_iff.2 ((hnodup.sublist
      (lookedAt_sublist context ids)).filter _)
  · rw [hperm.mem_iff, matching, List.mem_filter, hvaluesEq]
    exact and_congr_right fun _ => matchFilter_params (hof d) hrules hlists hlen
  · rw [← hvaluesEq]
    exact hsorted
  · rw [htotal, hperm.length_eq]

/-- Document 7 has a text to be found by and a number for filters. -/
def addRated : WriteCall where
  mode := .add
  documents := [⟨7, [{ fieldId := 1, flag := ⟨19⟩, fieldType := kStringIndexField
                       stringValue := [65, 66, 32, 67] },
    { fieldId := 2, flag := ⟨6⟩, fieldType := kUint64IndexField
      numericValue := 30 }]⟩]
  distinct := by decide

theorem undisturbed_addRated :
    UndisturbedRun spaceConfig millionOperator ⟨1, 2⟩ [addRated] := by
  intro before c after hsplit
  match before, hsplit with
  | [], hsplit =>
      obtain rfl := (List.cons.inj hsplit).1
      refine ⟨rfl, rfl, by decide, by decide, by decide +kernel, ?_, ?_⟩
      · intro _ document hdoc
        obtain rfl := List.mem_singleton.1 hdoc
        exact ⟨fun _ _ => by decide +kernel, fun _ _ => by decide +kernel⟩
      · exact fun _ => by decide +kernel
  | x :: before, hsplit =>
      exact absurd (congrArg List.length hsplit) (by simp)

/-- The documents with the term `C` and a number from 10 to 40 in field 2. -/
def searchRated : Searcher.QueryArgs Nat where
  query := .booleanQuery 1 (.term [67])
  filter := some [(FilterRule.rangeFilter { fieldId := 2 } 10 40).filter]

theorem filtered_search_refines_map_addRated :
    let context := quietContext spaceConfig millionOperator ⟨1, 2⟩
      (runCalls spaceConfig millionOperator ⟨1, 2⟩ .empty [addRated])
    let m := MapWrite.run [addRated.mapWrite spaceConfig]
    ∃ (r : Searcher.QueryResult) (ids ranking : List DocumentID),
      Settles (fun fuel => Searcher.doQuery fuel context searchRated plainQueues
        0 10 []) r ∧
      r.status = {} ∧ ids.Pairwise (fun a b => b < a) ∧
      (∀ d, d ∈ ids ↔ d ∈ m.matches spaceConfig searchRated.query) ∧
      ranking.Nodup ∧
      (∀ d, d ∈ ranking ↔ d ∈ lookedAt context ids ∧
        m.Passes d [.rangeFilter { fieldId := 2 } 10 40] 0) ∧
      Sorted (fun d e => sorter none (m.docValues d) (m.docValues e)) ranking ∧
      r.docs = (ranking.drop 0).take 10 ∧ r.getMatchTotalCnt = none := by
  have hids : ∀ d ∉ [7], ∀ c ∈ [addRated], c.documentFor d = none := by
    intro d hd c hc
    rw [List.mem_singleton] at hd
    obtain rfl := List.mem_singleton.1 hc
    simp [WriteCall.documentFor, addRated, Ne.symm hd]
  have hfit : TermsFit searchRated.query := by rw [searchRated, TermsFit]; decide
  obtain ⟨r, hr, -, hpage⟩ := filtered_search_refines_map spaceConfig
    millionOperator ⟨1, 2⟩ [addRated] undisturbed_addRated (by decide)
    (by simp [KeepsValues, addRated]; decide)
    (mapCap_of_written undisturbed_addRated hids (by decide))
    searchRated rfl hfit [.rangeFilter { fieldId := 2 } 10 40] rfl
    (by simp [ListsFit]) (by decide) plainQueues 0 10 (by decide)
  obtain ⟨docs, hwritten⟩ := Written.runCalls millionOperator [addRated]
    ⟨by simp [ReadFirst, addRated], by decide⟩ (written_empty spaceConfig ⟨1, 2⟩)
  have hstatus : r.status = {} := (hwritten.search_status rfl hfit hr).2
    (withinLimits_booleanQuery 1 _)
  obtain ⟨ids, ranking, hpage⟩ := hpage hstatus
  exact ⟨r, ids, ranking, hr, hstatus, hpage⟩

end Search

end Wwsearch.Spec
