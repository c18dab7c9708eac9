import Wwsearch.Proofs.FieldScore
import Wwsearch.Proofs.Isolation

/-!
# Postings and fields over a run

`FieldsPresent` is the invariant: whatever is posted of a document is of a field
that its stored record has. The merge operator shows no more than what is
posted, so a query finds the field of every hit (`alwaysFinds_of_present`).

A batch takes effect on one document by itself. What it makes of the posting
under a term and of the stored record are two folds over the same updaters,
and `leavesField_sound` follows both at once, by induction on the updaters: the
two propositions that `LeavesField` carries along stand for what the mutations so
far have left (`Tracks`).
-/

namespace Wwsearch.Spec

open Wwsearch.Lib Wwsearch.Ref Wwsearch.Ref.DocumentWriter
  Wwsearch.Ref.IndexWriter

variable {config : IndexConfig} {op : DocListMergeOperator} {table : TableID}
  {db : VirtualDB} {f : FieldID} {t : Bytes} {d : DocumentID}

/-- The field of a posting is in its key, whatever the length of the term. -/
theorem field_of_invertedKey {f' : FieldID} {t' : Bytes}
    (h : encodeInvertedKey table f' t' = encodeInvertedKey table f t) :
    f' = f := by
  rw [encodeInvertedKey_cut, encodeInvertedKey_cut] at h
  exact (List.cons.inj (List.append_cancel_left h)).1

/-! ## The records of one updater -/

section Updater

variable {du : DocumentUpdater}

theorem mem_touching {m : Mutation} :
    m ∈ (invertedMutations config table du).filter
        (·.touches .invertedIndexColumn (encodeInvertedKey table f t)) ↔
      du.status.ok = true ∧ ∃ s ok value,
        (PostsTerm config table du f t ∧ s = kDocumentStateOK ∨
          TakesBack config table du f t ∧ s = kDocumentStateDelete) ∧
        writeDocList config.compressionType
          [⟨du.newDocument.documentId, s⟩] = some (ok, value) ∧
        m = .merge .invertedIndexColumn (encodeInvertedKey table f t)
          value := by
  rw [List.mem_filter, invertedMutations]
  constructor
  · rintro ⟨hm, htouch⟩
    split at hm
    · next hok =>
        obtain ⟨f', t', s, ok, value, hrec, hw, rfl⟩ := mem_termMutations.1 hm
        have hkey : encodeInvertedKey table f' t' =
            encodeInvertedKey table f t :=
          of_decide_eq_true (Bool.and_eq_true_iff.1 htouch).2
        obtain rfl := field_of_invertedKey hkey
        refine ⟨hok, s, ok, value, ?_, hw, by rw [hkey]⟩
        rcases hrec with ⟨hnew, hold, hs⟩ | ⟨hold, hnew, hs⟩
        · exact .inl ⟨⟨t', hkey, hnew, hold⟩, hs⟩
        · exact .inr ⟨⟨t', hkey, hold, hnew⟩, hs⟩
    · exact absurd hm List.not_mem_nil
  · rintro ⟨hok, s, ok, value, hrec, hw, rfl⟩
    refine ⟨?_, by simp [Mutation.touches, Mutation.column]⟩
    rw [if_pos hok]
    rcases hrec with ⟨⟨t', hkey, hnew, hold⟩, hs⟩ | ⟨⟨t', hkey, hold, hnew⟩, hs⟩
    · exact mem_termMutations.2
        ⟨f, t', s, ok, value, .inl ⟨hnew, hold, hs⟩, hw, by rw [hkey]⟩
    · exact mem_termMutations.2
        ⟨f, t', s, ok, value, .inr ⟨hold, hnew, hs⟩, hw, by rw [hkey]⟩

/-- The lists that the updater adds under the key. -/
def listsUnder (config : IndexConfig) (table : TableID) (f : FieldID)
    (t : Bytes) (du : DocumentUpdater) : List (List DocList) :=
  ((invertedMutations config table du).filter
    (·.touches .invertedIndexColumn (encodeInvertedKey table f t))).map
      mutationList

theorem state_of_record {s : DocumentState} {P Q : Prop}
    (h : P ∧ s = kDocumentStateOK ∨ Q ∧ s = kDocumentStateDelete) :
    s = kDocumentStateOK ∨ s = kDocumentStateDelete := by
  rcases h with ⟨-, hs⟩ | ⟨-, hs⟩
  · exact .inl hs
  · exact .inr hs

/-- They speak of the updater's own document only. -/
theorem lastState_listsUnder (hid : du.newDocument.documentId ≠ 0)
    {s : DocumentState} (h : lastState (listsUnder config table f t du) d =
      some s) :
    (du.newDocument.documentId = d ∧ du.status.ok = true) ∧
      (PostsTerm config table du f t ∧ s = kDocumentStateOK ∨
        TakesBack config table du f t ∧ s = kDocumentStateDelete) := by
  obtain ⟨layer, hlayer, hs⟩ := Overlay.read_mem h
  obtain ⟨list, hlist, rfl⟩ := List.mem_map.1 hlayer
  obtain ⟨m, hm, rfl⟩ := List.mem_map.1 hlist
  obtain ⟨hok, s', ok, value, hrec, hw, rfl⟩ := mem_touching.1 hm
  have hone := (stores_singleton hid (state_of_record hrec) hw).2
  rw [mutationList, hone] at hs
  have hmem := (stateIn_eq_some (List.pairwise_singleton _ _)).1 hs
  obtain ⟨rfl, rfl⟩ := DocList.mk.inj (List.mem_singleton.1 hmem)
  exact ⟨⟨rfl, hok⟩, hrec⟩

/-- An updater that takes its document back says something of it. -/
theorem lastState_listsUnder_ne_none (hid : du.newDocument.documentId ≠ 0)
    (hok : du.status.ok = true) (htakes : TakesBack config table du f t) :
    lastState (listsUnder config table f t du) du.newDocument.documentId ≠
      none := by
  obtain ⟨value, hw⟩ := exists_writeDocList_singleton hid
    (.inr rfl : kDocumentStateDelete = kDocumentStateOK ∨ _)
    config.compressionType
  have hm := mem_touching.2
    ⟨hok, _, true, value, .inr ⟨htakes, rfl⟩, hw, rfl⟩
  have hone := (stores_singleton hid (.inr rfl) hw).2
  intro hnone
  have hlayer := Overlay.read_eq_none.1 hnone _
    (List.mem_map_of_mem (List.mem_map_of_mem hm))
  rw [mutationList, hone] at hlayer
  exact stateIn_eq_none.1 hlayer _ List.mem_cons_self rfl

/-! ## The records of a batch -/

/-- The cell is a record with the field. -/
def CellHas (config : IndexConfig) (op : DocListMergeOperator) (f : FieldID)
    (cell : Option Cell) : Prop :=
  ∃ doc, (cell.bind (VirtualDB.cellValue op)).bind
      (Document.deSerializeFromByte config.pb {}) = some doc ∧
    (doc.findField f).isSome = true

theorem findField_reread (doc : Document) (f : FieldID) :
    ((doc.reread .storedField).findField f).isSome =
      (doc.findField f).isSome := by
  simp only [Document.reread, Document.recordFields, Document.findField,
    List.find?_map, Option.isSome_map, Function.comp_def,
    IndexField.reread_fieldId]

/-- The record that an updater puts. -/
theorem cellHas_put (hwritable : Writable config du)
    (hok : du.status.ok = true) (hdel : du.delete = false)
    (hfield : (du.newDocument.findField f).isSome = true)
    (cell : Option Cell) : CellHas config op f
      ((storedMutations config table du).foldl Mutation.applyCell cell) := by
  obtain ⟨value, flag, hser, hlen⟩ := hwritable.stored hok hdel
  rw [storedMutations, if_pos hok, hdel, if_neg Bool.false_ne_true, hser]
  refine ⟨du.newDocument.reread .storedField,
    Document.deSerializeFromByte_serializeToBytes hser hlen, ?_⟩
  rw [findField_reread]
  exact hfield

theorem filter_storedMutations (du : DocumentUpdater) (d : DocumentID) :
    (storedMutations config table du).filter
        (·.touches .storedFieldColumn (encodeStoredFieldKey table d)) =
      if du.newDocument.documentId = d then storedMutations config table du
      else [] := by
  have htouch : ∀ m ∈ storedMutations config table du,
      m.touches .storedFieldColumn (encodeStoredFieldKey table d) =
        decide (du.newDocument.documentId = d) := by
    intro m hm
    rw [storedMutations_touch hm, decide_eq_true rfl, Bool.true_and]
    exact decide_eq_decide.2
      ⟨encodeStoredFieldKey_inj, fun h => congrArg _ h⟩
  split
  · next hid =>
      exact List.filter_eq_self.2 fun m hm =>
        (htouch m hm).trans (decide_eq_true hid)
  · next hid =>
      refine List.filter_eq_nil_iff.2 fun m hm => ?_
      rw [htouch m hm, decide_eq_false hid]
      exact Bool.false_ne_true

/-- What the two propositions of `LeavesField` stand for. -/
structure Tracks (config : IndexConfig) (op : DocListMergeOperator)
    (f : FieldID) (d : DocumentID) (lists : List (List DocList))
    (cell : Option Cell) (posted hasField : Prop) : Prop where
  posted : lastState lists d = some kDocumentStateOK → posted
  hasField : hasField → CellHas config op f cell

section Step

variable {lists : List (List DocList)} {cell : Option Cell}
  {posted hasField : Prop}

/-- What the updater makes of the record of the document. -/
def cellAfter (config : IndexConfig) (table : TableID) (d : DocumentID)
    (cell : Option Cell) (du : DocumentUpdater) : Option Cell :=
  ((storedMutations config table du).filter (·.touches .storedFieldColumn
    (encodeStoredFieldKey table d))).foldl Mutation.applyCell cell

/-- An updater of the document. -/
theorem Tracks.own (h : Tracks config op f d lists cell posted hasField)
    (hnonzero : du.newDocument.documentId ≠ 0) (hwritable : Writable config du)
    (hid : du.newDocument.documentId = d) (hok : du.status.ok = true) :
    Tracks config op f d (lists ++ listsUnder config table f t du)
      (cellAfter config table d cell du)
      (PostsTerm config table du f t ∨
        posted ∧ ¬ TakesBack config table du f t)
      (du.delete = false ∧ (du.newDocument.findField f).isSome = true) where
  posted hstate := by
    rw [lastState_append] at hstate
    cases hnew : lastState (listsUnder config table f t du) d with
    | some s =>
        rw [hnew, Option.some_or] at hstate
        rcases (lastState_listsUnder hnonzero hnew).2 with
          ⟨hposts, -⟩ | ⟨-, hdelete⟩
        · exact .inl hposts
        · rw [hdelete] at hstate
          exact absurd (Option.some.inj hstate) (by decide)
    | none =>
        rw [hnew, Option.none_or] at hstate
        refine .inr ⟨h.posted hstate, fun htakes => ?_⟩
        rw [← hid] at hnew
        exact lastState_listsUnder_ne_none hnonzero hok htakes hnew
  hasField := by
    rintro ⟨hdel, hhas⟩
    rw [cellAfter, filter_storedMutations, if_pos hid]
    exact cellHas_put hwritable hok hdel hhas cell

/-- An updater of another document, or one that failed. -/
theorem Tracks.other (h : Tracks config op f d lists cell posted hasField)
    (hnonzero : du.newDocument.documentId ≠ 0)
    (hother : ¬ (du.newDocument.documentId = d ∧ du.status.ok = true)) :
    Tracks config op f d (lists ++ listsUnder config table f t du)
      (cellAfter config table d cell du) posted hasField where
  posted hstate := by
    rw [lastState_append] at hstate
    cases hnew : lastState (listsUnder config table f t du) d with
    | some s => exact absurd (lastState_listsUnder hnonzero hnew).1 hother
    | none =>
        rw [hnew, Option.none_or] at hstate
        exact h.posted hstate
  hasField hhas := by
    rw [cellAfter, filter_storedMutations]
    split
    · next hid =>
        rw [storedMutations, if_neg fun hok => hother ⟨hid, hok⟩]
        exact h.hasField hhas
    · exact h.hasField hhas

end Step

/-- What `LeavesField` says of the updaters holds of what their mutations
make of the lists of the term and of the record. -/
theorem leavesField_sound (updaters : List DocumentUpdater) :
    ∀ (lists : List (List DocList)) (cell : Option Cell)
      (posted hasField : Prop),
    (∀ du ∈ updaters, du.newDocument.documentId ≠ 0) →
    (∀ du ∈ updaters, Writable config du) →
    Tracks config op f d lists cell posted hasField →
    LeavesField config table f t d updaters posted hasField →
    lastState (lists ++ updaters.flatMap (listsUnder config table f t)) d =
      some kDocumentStateOK →
    CellHas config op f (((updaters.flatMap (storedMutations config table)).filter
      (·.touches .storedFieldColumn (encodeStoredFieldKey table d))).foldl
        Mutation.applyCell cell) := by
  induction updaters with
  | nil =>
      intro lists cell posted hasField _ _ htracks hleaves hlast
      rw [List.flatMap_nil, List.append_nil] at hlast
      exact htracks.hasField (hleaves (htracks.posted hlast))
  | cons du rest ih =>
      intro lists cell posted hasField hids hwritable htracks hleaves hlast
      have hnonzero := hids du List.mem_cons_self
      have hids' : ∀ x ∈ rest, x.newDocument.documentId ≠ 0 :=
        fun x hx => hids x (List.mem_cons_of_mem du hx)
      have hwritable' : ∀ x ∈ rest, Writable config x :=
        fun x hx => hwritable x (List.mem_cons_of_mem du hx)
      rw [List.flatMap_cons, ← List.append_assoc] at hlast
      rw [List.flatMap_cons, List.filter_append, List.foldl_append]
      rw [LeavesField] at hleaves
      split at hleaves
      · next hown =>
          exact ih _ _ _ _ hids' hwritable' (htracks.own hnonzero
            (hwritable du List.mem_cons_self) hown.1 hown.2) hleaves hlast
      · next hother =>
          exact ih _ _ _ _ hids' hwritable' (htracks.other hnonzero hother)
            hleaves hlast

end Updater

/-! ## The invariant -/

/-- A list that the operator takes, or one that stops the process when it is
read. -/
def Listed (value : Bytes) : Prop :=
  2 ^ 31 ≤ value.length ∨ Stores value (listOf value)

/-- What is posted is of a field that the stored record has. The rest is what
it takes to keep that: the lists of a term were merged only, no document has
the id zero, and a doc-value record carries its id. -/
structure FieldsPresent (config : IndexConfig) (op : DocListMergeOperator)
    (table : TableID) (db : VirtualDB) : Prop where
  cell : ∀ f t, MergesOf Listed
    (db .invertedIndexColumn)[encodeInvertedKey table f t]?
  field : ∀ f t d, Posted table db f t d → HasField config op table db d f
  noZero : storedDocument config op table db 0 = none
  ids : ∀ d doc, docValueDocument config op table db d = some doc →
    doc.documentId = d

/-- No list comes out of a merge with a list that is too long. -/
theorem cellValue_of_long {cell : Cell} {value : Bytes}
    (hmem : value ∈ cell.operands) (hlong : 2 ^ 31 ≤ value.length)
    (hbase : cell.base = none) : VirtualDB.cellValue op cell = none := by
  have hmapM : ∀ l : List Bytes, value ∈ l →
      l.mapM DocListMergeOperator.decodeDocList = none := by
    intro l
    induction l with
    | nil => exact fun h => absurd h List.not_mem_nil
    | cons v l ih =>
        intro h
        rw [List.mapM_cons]
        rcases List.mem_cons.1 h with rfl | h
        · rw [DocListMergeOperator.decodeDocList, if_neg (not_lt.2 hlong)]
          rfl
        · cases DocListMergeOperator.decodeDocList v with
          | none => rfl
          | some docs => rw [ih h]; rfl
  rw [VirtualDB.cellValue, hbase]
  split
  · rfl
  · rw [DocListMergeOperator.fullMergeV2, Option.toList_none, List.nil_append,
      hmapM _ hmem]
    rfl

/-- A list that is read has posted documents only. -/
theorem FieldsPresent.lists (h : FieldsPresent config op table db) :
    ListsName (HasField config op table db) op table db := by
  intro f t doc hdoc _
  have hcell := h.cell f t
  by_cases hlong : ∃ x ∈ (db .invertedIndexColumn)[encodeInvertedKey table f t]?,
      ∃ value ∈ x.operands, 2 ^ 31 ≤ value.length
  · obtain ⟨x, hx, value, hvalue, hlong⟩ := hlong
    rw [termList, VirtualDB.get, Option.mem_def.1 hx, Option.bind_some,
      cellValue_of_long hvalue hlong (hcell x hx).1] at hdoc
    exact absurd hdoc List.not_mem_nil
  · have hterm : TermCell
        (db .invertedIndexColumn)[encodeInvertedKey table f t]? := by
      refine termCell_iff.2 fun x hx =>
        ⟨(hcell x hx).1, (hcell x hx).2.1, fun value hvalue => ?_⟩
      exact ((hcell x hx).2.2 value hvalue).resolve_left fun hge =>
        hlong ⟨x, hx, value, hvalue, hge⟩
    rw [termList_eq hterm, fullMerge] at hdoc
    obtain ⟨d, hd, rfl⟩ := List.mem_map.1 hdoc
    refine h.field f t d ?_
    rw [topLive] at hd
    exact mem_idsWith.1 (mem_descending.1 (List.mem_of_mem_take hd))

theorem not_posted_empty : ¬ Posted table .empty f t d := by
  rw [Posted, VirtualDB.empty, Std.ExtTreeMap.getElem?_empty]
  intro h
  cases h

theorem fieldsPresent_empty : FieldsPresent config op table .empty where
  cell f t := by
    rw [VirtualDB.empty, Std.ExtTreeMap.getElem?_empty]
    intro x hx
    cases hx
  field _ _ _ h := absurd h not_posted_empty
  noZero := by
    rw [storedDocument_eq, VirtualDB.get, VirtualDB.empty,
      Std.ExtTreeMap.getElem?_empty]
    rfl
  ids d doc h := by
    rw [docValueDocument, recordOf, VirtualDB.get, VirtualDB.empty,
      Std.ExtTreeMap.getElem?_empty] at h
    cases h

/-- The invariant is about the keys of the table. -/
theorem FieldsPresent.sameTable {db' : VirtualDB} (hsame : SameTable table db db')
    (h : FieldsPresent config op table db) :
    FieldsPresent config op table db' := by
  have hlists : ∀ f t, (db' .invertedIndexColumn)[encodeInvertedKey table f t]? =
      (db .invertedIndexColumn)[encodeInvertedKey table f t]? :=
    fun f t => hsame _ _ (prefix_invertedKey table f t)
  have hrecords : ∀ column d, recordOf config op table db' column d =
      recordOf config op table db column d := by
    intro column d
    rw [recordOf, recordOf, hsame.get column (prefix_storedFieldKey table d)]
  constructor
  · intro f t
    rw [hlists]
    exact h.cell f t
  · intro f t d hposted
    rw [Posted, hlists] at hposted
    obtain ⟨doc, hdoc, hfield⟩ := h.field f t d hposted
    exact ⟨doc, (hrecords _ d).trans hdoc, hfield⟩
  · exact (hrecords _ 0).trans h.noZero
  · intro d doc hdoc
    exact h.ids d doc ((hrecords _ d).symm.trans hdoc)

/-! ## A batch -/

section Batch

variable {updaters : List DocumentUpdater}

/-- A record of doc values carries the id that it is kept for. -/
def CellCarries (config : IndexConfig) (op : DocListMergeOperator)
    (d : DocumentID) (cell : Option Cell) : Prop :=
  ∀ doc, (cell.bind (VirtualDB.cellValue op)).bind
    (Document.deSerializeFromByte config.pb {}) = some doc → doc.documentId = d

theorem newDocValue_documentId (du : DocumentUpdater) :
    (newDocValue du).documentId = du.newDocument.documentId := by
  rw [newDocValue]
  split
  · rfl
  · rfl

theorem cellCarries_apply {du : DocumentUpdater}
    (hwritable : Writable config du) {m : Mutation}
    (hm : m ∈ docValueMutations config table du) (cell : Option Cell) :
    CellCarries config op du.newDocument.documentId
      (Mutation.applyCell cell m) := by
  have hdelete : ∀ key, CellCarries config op du.newDocument.documentId
      (Mutation.applyCell cell (.delete .docValueColumn key)) :=
    fun key doc hdoc => absurd hdoc.symm (Option.some_ne_none doc)
  rw [docValueMutations] at hm
  split at hm
  · next hok =>
      split at hm
      · rw [deleteOldMutations_mem hm]
        exact hdelete _
      · next hdel =>
          obtain ⟨value, flag, hser, hlen⟩ := hwritable.docValue hok
            (Bool.eq_false_iff.2 hdel)
          rw [hser] at hm
          cases flag with
          | false =>
              rw [deleteOldMutations_mem hm]
              exact hdelete _
          | true =>
              obtain rfl := List.mem_singleton.1 hm
              intro doc hdoc
              have hread : Document.deSerializeFromByte config.pb {} value =
                  some ((newDocValue du).reread .docValue) :=
                Document.deSerializeFromByte_serializeToBytes hser (hlen rfl)
              obtain rfl := Option.some.inj (hread.symm.trans hdoc)
              exact newDocValue_documentId du
  · exact absurd hm List.not_mem_nil

theorem FieldsPresent.batch (h : FieldsPresent config op table db)
    (hids : ∀ du ∈ updaters, du.newDocument.documentId ≠ 0)
    (hwritable : ∀ du ∈ updaters, Writable config du)
    (hleaves : ∀ f t d, LeavesField config table f t d updaters
      (Posted table db f t d) (HasField config op table db d f)) :
    FieldsPresent config op table
      (db.applyAll (batchMutations config table updaters)) := by
  have hfold : ∀ (f : FieldID) (t : Bytes), _ := fun f t =>
    foldl_mergesOf (Q := Listed) ((updaters.flatMap
      (invertedMutations config table)).filter
        (·.touches .invertedIndexColumn (encodeInvertedKey table f t)))
      _ (h.cell f t) fun m hm => by
        rw [List.filter_flatMap] at hm
        obtain ⟨du, hdu, hm⟩ := List.mem_flatMap.1 hm
        obtain ⟨-, s, ok, value, hrec, hw, rfl⟩ := mem_touching.1 hm
        exact ⟨_, _, value, rfl, .inr
          (stores_singleton (hids du hdu) (state_of_record hrec) hw).1⟩
  have hlists : ∀ (f : FieldID) (t : Bytes), ((updaters.flatMap
      (invertedMutations config table)).filter
        (·.touches .invertedIndexColumn (encodeInvertedKey table f t))).map
          mutationList = updaters.flatMap (listsUnder config table f t) := by
    intro f t
    rw [List.filter_flatMap, List.map_flatMap]
    rfl
  constructor
  · intro f t
    rw [applyAll_getElem?, filter_batchMutations_inverted]
    exact (hfold f t).1
  · intro f t d hposted
    rw [Posted, applyAll_getElem?, filter_batchMutations_inverted,
      (hfold f t).2, hlists] at hposted
    obtain ⟨doc, hdoc, hfield⟩ := leavesField_sound updaters _ _ _ _ hids
      hwritable ⟨id, id⟩ (hleaves f t d) hposted
    refine ⟨doc, ?_, hfield⟩
    rw [storedDocument_eq, VirtualDB.get, applyAll_getElem?,
      filter_batchMutations_stored]
    exact hdoc
  · rw [storedDocument_eq, VirtualDB.get, applyAll_getElem?,
      filter_batchMutations_stored, List.filter_flatMap,
      List.flatMap_eq_nil_iff.2 fun du hdu => by
        rw [filter_storedMutations, if_neg (hids du hdu)]]
    exact h.noZero
  · intro d doc hdoc
    rw [docValueDocument, recordOf, VirtualDB.get, applyAll_getElem?,
      filter_batchMutations_docValue] at hdoc
    refine List.foldlRecOn (motive := CellCarries config op d) _
      Mutation.applyCell (h.ids d) (fun cell _ m htouching => ?_) doc hdoc
    obtain ⟨hm, htouch⟩ := List.mem_filter.1 htouching
    obtain ⟨du, hdu, hown⟩ := List.mem_flatMap.1 hm
    rw [docValueMutations_touch hown, decide_eq_true rfl, Bool.true_and]
      at htouch
    obtain rfl := encodeStoredFieldKey_inj (of_decide_eq_true htouch)
    exact cellCarries_apply (hwritable du hdu) hown cell

end Batch

/-! ## An ingest call -/

section Ingest

variable {faults : Faults} {indices : List InvertIndexItem}

/-- The list of an item is read as its records. -/
theorem listOf_item {item : InvertIndexItem} {value : Bytes}
    (hids : ∀ d ∈ item.docList, d ≠ 0)
    (h : writeDocList config.compressionType item.records =
      some (true, value)) :
    Listed value ∧ listOf value = item.records := by
  have hwf : WellFormed item.records := by
    refine ⟨List.pairwise_map.2 item.decreasing, fun e he => ?_, fun e he => ?_⟩
    · obtain ⟨d, hd, rfl⟩ := List.mem_map.1 he
      exact hids d hd
    · obtain ⟨d, -, rfl⟩ := List.mem_map.1 he
      exact .inl rfl
  have hnone : item.records.filter (fun doc => doc.docState ≠ 0) = [] := by
    refine List.filter_eq_nil_iff.2 fun e he => ?_
    obtain ⟨d, -, rfl⟩ := List.mem_map.1 he
    simp [kDocumentStateOK]
  have hpositions : deletePositions 0 item.records = [] := by
    rw [← List.length_eq_zero_iff, length_deletePositions, hnone]
    rfl
  have hread : docListOf value = some item.records := by
    refine docListOf_writeDocList hwf ?_ ?_ h
    · rw [hnone]
      exact Nat.two_pow_pos 32
    · rw [hpositions]
      exact fun _ p hp => absurd hp List.not_mem_nil
  have hlist : listOf value = item.records := by
    rw [listOf, hread, Option.getD_some]
  refine ⟨?_, hlist⟩
  rcases Nat.lt_or_ge value.length (2 ^ 31) with hlt | hge
  · exact .inr ⟨hlt, hlist ▸ hread, hlist ▸ hwf⟩
  · exact .inl hge

/-- What the merges say of a document, an item of the field says of it. -/
theorem exists_item {ms : List Mutation} {s : DocumentState}
    (hms : ∀ m ∈ ms, ∃ item ∈ indices, ItemMerge config table item m)
    (hids : ∀ item ∈ indices, ∀ d ∈ item.docList, d ≠ 0)
    (h : lastState ((ms.filter (·.touches .invertedIndexColumn
      (encodeInvertedKey table f t))).map mutationList) d = some s) :
    ∃ item ∈ indices, item.fieldId = f ∧ d ∈ item.docList := by
  obtain ⟨layer, hlayer, hs⟩ := Overlay.read_mem h
  obtain ⟨list, hlist, rfl⟩ := List.mem_map.1 hlayer
  obtain ⟨m, hm, rfl⟩ := List.mem_map.1 hlist
  obtain ⟨hm, htouch⟩ := List.mem_filter.1 hm
  obtain ⟨item, hitem, value, hvalue, rfl⟩ := hms m hm
  have hkey : encodeInvertedKey table item.fieldId item.term =
      encodeInvertedKey table f t :=
    of_decide_eq_true (Bool.and_eq_true_iff.1 htouch).2
  rw [mutationList, (listOf_item (hids item hitem) hvalue).2] at hs
  have hdesc : item.records.Pairwise fun a b => b.docId < a.docId :=
    List.pairwise_map.2 item.decreasing
  obtain ⟨d', hd', hrecord⟩ := List.mem_map.1 ((stateIn_eq_some hdesc).1 hs)
  obtain ⟨rfl, -⟩ := DocList.mk.inj hrecord
  exact ⟨item, hitem, field_of_invertedKey hkey, hd'⟩

theorem FieldsPresent.ingest (h : FieldsPresent config op table db)
    {ms : List Mutation}
    (hms : ∀ m ∈ ms, ∃ item ∈ indices, ItemMerge config table item m)
    (hfields : ∀ item ∈ indices, ∀ d ∈ item.docList,
      HasField config op table db d item.fieldId) :
    FieldsPresent config op table (db.applyAll ms) := by
  have hids : ∀ item ∈ indices, ∀ d ∈ item.docList, d ≠ 0 := by
    rintro item hitem _ hd rfl
    obtain ⟨doc, hdoc, -⟩ := hfields item hitem 0 hd
    exact Option.some_ne_none doc (hdoc.symm.trans h.noZero)
  have hrecords : ∀ column d, column ≠ .invertedIndexColumn →
      recordOf config op table (db.applyAll ms) column d =
        recordOf config op table db column d := by
    intro column d hcolumn
    rw [recordOf, recordOf, VirtualDB.get, VirtualDB.get,
      applyAll_getElem?_of_untouched fun m hm => ?_]
    obtain ⟨item, -, value, -, rfl⟩ := hms m hm
    rw [Mutation.touches, Mutation.column, decide_eq_false hcolumn.symm,
      Bool.false_and]
  have hfold : ∀ (f : FieldID) (t : Bytes), _ := fun f t =>
    foldl_mergesOf (Q := Listed) (ms.filter
      (·.touches .invertedIndexColumn (encodeInvertedKey table f t)))
      _ (h.cell f t) fun m hm => by
        obtain ⟨item, hitem, value, hvalue, rfl⟩ :=
          hms m (List.mem_filter.1 hm).1
        exact ⟨_, _, value, rfl, (listOf_item (hids item hitem) hvalue).1⟩
  constructor
  · intro f t
    rw [applyAll_getElem?]
    exact (hfold f t).1
  · intro f t d hposted
    have hhas : HasField config op table db d f := by
      rw [Posted, applyAll_getElem?, (hfold f t).2, lastState_append] at hposted
      cases hnew : lastState ((ms.filter (·.touches .invertedIndexColumn
          (encodeInvertedKey table f t))).map mutationList) d with
      | none =>
          rw [hnew, Option.none_or] at hposted
          exact h.field f t d hposted
      | some s =>
          obtain ⟨item, hitem, hfield, hd⟩ := exists_item hms hids hnew
          exact hfield ▸ hfields item hitem d hd
    obtain ⟨doc, hdoc, hfield⟩ := hhas
    exact ⟨doc, (hrecords _ d (by decide)).trans hdoc, hfield⟩
  · exact (hrecords _ 0 (by decide)).trans h.noZero
  · intro d doc hdoc
    exact h.ids d doc ((hrecords _ d (by decide)).symm.trans hdoc)

/-- An ingest call writes merges of its items, or nothing. -/
theorem ingestInvertIndex_cases {storeBuffer : Option StoreBuffer} :
    let r := ingestInvertIndex config faults table db storeBuffer indices
    r.db = db ∨ storeBuffer = none ∧ r.status.ok = true ∧
      Applies (fun m => ∃ item ∈ indices, ItemMerge config table item m)
        db r.db := by
  intro r
  cases hok : r.status.ok with
  | false => exact .inl (finishBuffer_failed hok).1
  | true =>
      cases storeBuffer with
      | some sb =>
          exact .inl ((finishBuffer_ok (fun _ => rfl) hok).buffered (by simp))
      | none =>
          refine .inr ⟨rfl, rfl, finishBuffer_applies fun _ _ m hm => ?_⟩
          refine (ingestItems_mem indices _ m hm).resolve_left ?_
          exact List.not_mem_nil

end Ingest

/-! ## The run -/

theorem fieldsPresent_batch {c : BatchCall}
    (hkeep : c.KeepsFields config op table db)
    (h : FieldsPresent config op table db) :
    FieldsPresent config op table (c.perform config op table db).db := by
  rw [perform_effect, effect]
  split
  · next hwrites =>
      have hs := innerWriteDocuments_ok hwrites.1
      refine h.batch ?_ ?_ (hkeep hwrites.2 hwrites.1)
      · intro du hdu
        obtain ⟨read, hread, rfl⟩ := List.mem_map.1 hdu
        obtain ⟨given, hgiven, hreadAs⟩ := forall₂_mem_right hs.readAs read hread
        rw [ready_documentId, hreadAs.newDocument_eq]
        exact hs.id_ne_zero given hgiven
      · intro du hdu
        obtain ⟨read, hread, rfl⟩ := List.mem_map.1 hdu
        exact hs.writable read hread
  · exact h

/-- A step that keeps fields keeps them in all tables. -/
theorem fieldsPresent_perform {o : TableOperation}
    (hkeep : o.KeepsFields config op db)
    (h : ∀ table, FieldsPresent config op table db) :
    ∀ table, FieldsPresent config op table (o.perform config op db) := by
  intro table
  by_cases htable : o.table = table
  · subst htable
    obtain ⟨table, operation⟩ := o
    cases operation with
    | writeDocuments c => exact fieldsPresent_batch hkeep (h table)
    | ingestInvertIndex faults storeBuffer indices =>
        show FieldsPresent config op table
          (ingestInvertIndex config faults table db storeBuffer indices).db
        rcases @ingestInvertIndex_cases config table db faults indices
          storeBuffer with hsame | ⟨hnone, hok, ms, hdb, hms⟩
        · rw [hsame]
          exact h table
        · rw [hdb]
          exact (h table).ingest hms (hkeep hnone hok)
    | acquireCurrentSequence _ _ _ => exact absurd hkeep id
    | acquireNewSequence _ => exact absurd hkeep id
    | dropTable _ _ => exact absurd hkeep id
    | deleteTableData _ _ _ _ => exact absurd hkeep id
  · exact (h table).sameTable (sameTable_perform htable)

theorem fieldsPresent_runAll (run : List TableOperation) :
    ∀ {db : VirtualDB}, TableOperation.KeepsFieldsAll config op db run →
    (∀ table, FieldsPresent config op table db) →
    ∀ table, FieldsPresent config op table
      (TableOperation.runAll config op db run) := by
  induction run with
  | nil => exact fun _ h => h
  | cons o run ih =>
      intro db hkeep h
      exact ih hkeep.2 (fieldsPresent_perform hkeep.1 h)

/-- In a run of batches and ingest calls that keep fields, on any tables, every
state is one in which no query on any table follows the null pointer of a
missing field, whatever its tree, its filters and its strategies are. -/
theorem keepsFields_alwaysFinds (σ : Type) [LT σ] [DecidableLT σ] [Zero σ]
    [Add σ] [Mul σ] [Div σ] [NatCast σ] (config : IndexConfig) (faults : Faults)
    (op : DocListMergeOperator) (table : TableID) (run : List TableOperation)
    (hkeep : TableOperation.KeepsFieldsAll config op .empty run) :
    AlwaysFinds σ (tableContext config faults op table
      (TableOperation.runAll config op .empty run)) := by
  have hpresent := fieldsPresent_runAll run hkeep
    (fun _ => fieldsPresent_empty) table
  exact alwaysFinds_of_hasField
    (TableOperation.wellKeyed_runAll run wellKeyed_empty) hpresent.lists
    hpresent.ids

/-- What an updater posts is of a field that its new document has. -/
theorem PostsTerm.hasField {du : DocumentUpdater}
    (h : PostsTerm config table du f t) :
    du.delete = false ∧ (du.newDocument.findField f).isSome = true := by
  obtain ⟨-, -, ⟨hdel, field, hmem, hid, -⟩, -⟩ := h
  refine ⟨hdel, ?_⟩
  rw [Document.findField, List.find?_isSome]
  exact ⟨field, hmem, beq_iff_eq.2 hid⟩

/-- An updater by itself leaves what it posts. -/
theorem leavesField_singleton {du : DocumentUpdater} {posted hasField : Prop}
    (hposted : ¬ posted) :
    LeavesField config table f t d [du] posted hasField := by
  rw [LeavesField]
  split
  · rintro (hposts | ⟨h, -⟩)
    · exact hposts.hasField
    · exact absurd h hposted
  · exact fun h => absurd h hposted

theorem hasField_iff : HasField config op table db d f ↔
    ((storedDocument config op table db d).bind (·.findField f)).isSome =
      true := by
  rw [HasField]
  cases storedDocument config op table db d with
  | none => simp
  | some doc => simp

/-- An ingest call that posts the document under the term in field 1. -/
def postsOne (d : DocumentID) (t : Bytes) : TableOperation where
  table := ⟨1, 2⟩
  operation := .ingestInvertIndex {} none
    [{ fieldId := 1, term := t, docList := [d]
       decreasing := List.pairwise_singleton _ d }]

/-- Document 7 is added with a field 1, and posted once more in it. -/
theorem keepsFields_alwaysFinds_sevenIs :
    AlwaysFinds Nat (tableContext spaceConfig {} millionOperator ⟨1, 2⟩
      (TableOperation.runAll spaceConfig millionOperator .empty
        [⟨⟨1, 2⟩, .writeDocuments (sevenIs .add [65]).batch⟩,
          postsOne 7 [66]])) := by
  refine keepsFields_alwaysFinds Nat spaceConfig {} millionOperator ⟨1, 2⟩ _
    ⟨fun _ _ f t d => ?_, fun _ _ item hitem d hd => ?_, trivial⟩
  · have hlength : ((sevenIs .add [65]).batch.read spaceConfig millionOperator
        ⟨1, 2⟩ .empty).1.length = 1 := length_readDocuments _
    obtain ⟨read, hread⟩ := List.length_eq_one_iff.1 hlength
    rw [hread]
    exact leavesField_singleton not_posted_empty
  · obtain rfl := List.mem_singleton.1 hitem
    obtain rfl := List.mem_singleton.1 hd
    rw [hasField_iff]
    decide +kernel

/-- A query for `A` in field 1 that scores its hits for `A`. -/
def scoresA (score : StringScoreStrategy → ScoreStrategy Nat) :
    Searcher.QueryArgs Nat where
  query := .booleanQuery 1 (.term [65])
  scoreStrategyList := [⟨[65], 1, 1⟩].map score

/-- A document that is posted and not stored is found, and is scored without a
field. -/
theorem ingested_not_alwaysFinds :
    ¬ AlwaysFinds Nat (tableContext spaceConfig {} millionOperator ⟨1, 2⟩
      (TableOperation.runAll spaceConfig millionOperator .empty
        [postsOne 7 [65]])) := by
  intro h
  have hnull := h 30 (scoresA (·.score)) [⟨[65], 1, 1⟩] plainQueues 0 10 []
    fun _ _ => 0
  revert hnull
  decide +kernel

/-- A document with this one field. -/
def sevenWith (mode : DocumentUpdaterType) (f : FieldID) (flag : UInt8) :
    BatchCall where
  mode := mode
  updaters := [{ newDocument := { seven [65] with
    fields := [{ fieldId := f, flag := ⟨flag⟩
                 fieldType := kStringIndexField, stringValue := [65] }] } }]

-- Batches alone do it too. The terms of field 1 are not stored, so a replace by
-- a document without the field takes nothing back.
example : ¬ AlwaysFinds Nat (tableContext spaceConfig {} millionOperator ⟨1, 2⟩
    (TableOperation.runAll spaceConfig millionOperator .empty
      [⟨⟨1, 2⟩, .writeDocuments (sevenWith .add 1 51)⟩,
        ⟨⟨1, 2⟩, .writeDocuments (sevenWith .replace 2 19)⟩])) := by
  intro h
  have hnull := h 30 (scoresA (·.score)) [⟨[65], 1, 1⟩] plainQueues 0 10 []
    fun _ _ => 0
  revert hnull
  decide +kernel

end Wwsearch.Spec
