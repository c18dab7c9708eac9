import Wwsearch.Proofs.IteratorProtocol
import Wwsearch.Proofs.PrefixLimit

/-!
# Query trees mean set algebra

Every scorer answers an iterator that stands at the start of a set of ids, and
the set is what the tree denotes (`ScoresAs`, `getScorer_scores`). The
induction is over the tree; a part of it was finished when it was added, so
`And` and `Or` are about iterators of any kind that are at their start.

A prefix query that reaches its size limit says so in the status of the
context and goes on with what it has, so what the tree denotes is promised for
an OK status only, which is where no prefix reaches its limit
(`getScorer_status`).
-/

namespace Wwsearch.Spec

open Wwsearch.Lib Wwsearch.Ref Wwsearch.Ref.DocIdSetIterator

/-! ## At the start -/

theorem Standing.mono {n m : Nat} {it : DocIdSetIterator} (h : Standing n it)
    (hnm : n ≤ m) : Standing m it := by
  induction h generalizing m with
  | reader hlist => exact .reader hlist
  | merge hsub hsame hempty ih =>
      cases m with
      | zero => exact absurd hnm (Nat.not_succ_le_zero _)
      | succ m =>
          exact .merge (fun s hs => ih s hs (Nat.le_of_succ_le_succ hnm)) hsame
            hempty
  | or hsub hheap hpos ih =>
      cases m with
      | zero => exact absurd hnm (Nat.not_succ_le_zero _)
      | succ m =>
          exact .or (fun s hs => ih s hs (Nat.le_of_succ_le_succ hnm)) hheap hpos

/-- An iterator of a set that has not moved yet. -/
structure AtStart (it : DocIdSetIterator) (ids : Set DocumentID) : Prop where
  standing : ∃ n, Standing n it
  ids_eq : idsOf it = ids
  le_docID : ∀ d ∈ ids, d ≤ it.docID

theorem atStart_reader {r : DocListReaderCodecImpl}
    (h : ReadableList r.slice) (hpos : r.pos = 0) :
    AtStart (.reader r) (idsOf (.reader r)) where
  standing := ⟨0, .reader h⟩
  ids_eq := rfl
  le_docID := by
    intro d hd
    obtain ⟨i, hi, rfl⟩ := mem_idsOf_reader.1 hd
    have hshow : r.docID = r.currDoc 0 := by
      rw [docID_of_lt (by omega), hpos]
    show r.currDoc i ≤ r.docID
    rw [hshow]
    rcases Nat.eq_zero_or_pos i with rfl | hi0
    · exact le_refl _
    · exact le_of_lt (currDoc_lt h hi0 hi)

/-- Parts that are at their start, each with its set. -/
def PartsAtStart (sub : List DocIdSetIterator)
    (sets : List (Set DocumentID)) : Prop := List.Forall₂ AtStart sub sets

namespace PartsAtStart

variable {sub : List DocIdSetIterator} {sets : List (Set DocumentID)}

theorem of_mem (h : PartsAtStart sub sets) :
    ∀ s ∈ sub, AtStart s (idsOf s) := by
  induction h with
  | nil => exact fun s hs => absurd hs List.not_mem_nil
  | cons hs _ ih =>
      intro x hx
      rcases List.mem_cons.1 hx with rfl | hx
      · exact ⟨hs.standing, rfl, fun d hd => hs.le_docID d (hs.ids_eq ▸ hd)⟩
      · exact ih x hx

theorem map_idsOf (h : PartsAtStart sub sets) : sub.map idsOf = sets := by
  induction h with
  | nil => rfl
  | cons hs _ ih => rw [List.map_cons, hs.ids_eq, ih]

/-- One depth for all parts. -/
theorem exists_depth (h : PartsAtStart sub sets) :
    ∃ n, ∀ s ∈ sub, Standing n s := by
  induction h with
  | nil => exact ⟨0, fun s hs => absurd hs List.not_mem_nil⟩
  | cons hs _ ih =>
      obtain ⟨n, hn⟩ := hs.standing
      obtain ⟨m, hm⟩ := ih
      refine ⟨max n m, fun x hx => ?_⟩
      rcases List.mem_cons.1 hx with rfl | hx
      · exact hn.mono (Nat.le_max_left n m)
      · exact (hm x hx).mono (Nat.le_max_right n m)

end PartsAtStart

/-- The intersection of the sets, and nothing for no sets at all. -/
def interAll (sets : List (Set DocumentID)) : Set DocumentID :=
  { d | sets ≠ [] ∧ ∀ s ∈ sets, d ∈ s }

def unionAll (sets : List (Set DocumentID)) : Set DocumentID :=
  { d | ∃ s ∈ sets, d ∈ s }

theorem idsOf_merge_eq (sub : List DocIdSetIterator) (curr : DocumentID)
    (fieldId : Int) :
    idsOf (.merge sub curr fieldId) = interAll (sub.map idsOf) := by
  ext d
  rw [mem_idsOf_merge]
  simp [interAll]

theorem idsOf_or_eq (sub : List DocIdSetIterator) :
    idsOf (.or sub) = unionAll (sub.map idsOf) := by
  ext d
  rw [mem_idsOf_or]
  simp [unionAll]

/-- A finished `MergeIterator` is at the start of the intersection. -/
theorem finishMerge_atStart {sub : List DocIdSetIterator}
    {sets : List (Set DocumentID)} (h : PartsAtStart sub sets) :
    ∃ it, Settles (fun fuel => finishMerge fuel sub) it ∧
      AtStart it (interAll sets) := by
  obtain ⟨n, hn⟩ := h.exists_depth
  obtain ⟨it, hit, hstand, hids, hstart⟩ : Goes (n + 1) (.advance maxDocID)
      (.merge sub noMoreDocs (-1))
      (fun d => ∀ x ∈ idsOf (.merge sub noMoreDocs (-1)), x ≤ d) :=
    goes_merge (R := fun s p => s.docID ≤ p) (standing_obeys n)
    (fun s hs => (standing_obeys n s (hn s hs)).rewind) (by
      intro d _ _ hhigh x hx
      refine hhigh x hx fun s hs p hp => le_trans ?_ hp
      exact (h.of_mem s hs).le_docID x ((mem_idsOf_merge.1 hx).2 s hs))
  have heq : idsOf (.merge sub noMoreDocs (-1)) = interAll sets := by
    rw [idsOf_merge_eq, h.map_idsOf]
  rw [heq] at hids hstart
  exact ⟨it, hit, ⟨n + 1, hstand⟩, hids, hstart⟩

/-- A finished `OrIterator` is at the start of the union. -/
theorem finishOr_atStart {sub : List DocIdSetIterator}
    {sets : List (Set DocumentID)} (h : PartsAtStart sub sets) :
    AtStart (finishOr sub) (unionAll sets) := by
  obtain ⟨n, hn⟩ := h.exists_depth
  have hperm := Heap.makeHeap_perm greater_iff sub
  have hheap := Heap.makeHeap_isHeap greater_iff sub
  have hids : idsOf (finishOr sub) = unionAll sets := by
    rw [finishOr, idsOf_or_perm hperm, idsOf_or_eq, h.map_idsOf]
  have hfront : ∀ s ∈ Heap.makeHeap greater sub,
      s.docID ≤ (finishOr sub).docID := by
    rw [finishOr]
    generalize Heap.makeHeap greater sub = l at hheap
    cases l with
    | nil => exact fun s hs => absurd hs List.not_mem_nil
    | cons front rest => exact hheap.head_greatest
  refine ⟨⟨n + 1, .or (fun s hs => hn s (hperm.mem_iff.1 hs)) hheap ?_⟩, hids,
    fun d hd => ?_⟩
  · intro s hs
    have hs' := hperm.mem_iff.1 hs
    refine atMost_intro (fun hne => ⟨(hn s hs').docID_mem hne, hfront s hs⟩) ?_
    exact fun x hx _ => (h.of_mem s hs').le_docID x hx
  · rw [← hids, finishOr] at hd
    obtain ⟨s, hs, hds⟩ := mem_idsOf_or.1 hd
    exact ((h.of_mem s (hperm.mem_iff.1 hs)).le_docID d hds).trans (hfront s hs)

/-! ## Leaves -/

section Leaves

variable {config : IndexConfig} {op : DocListMergeOperator} {table : TableID}
  {db : VirtualDB}

theorem newDocListReaderCodec_eq {value : Bytes} {r : DocListReaderCodecImpl}
    (h : newDocListReaderCodec value 0 = some r) (fieldId : Int) :
    newDocListReaderCodec value fieldId = some { r with fieldId } ∧
      r.slice = (docListOf value).getD [] ∧ r.pos = 0 := by
  rw [newDocListReaderCodec] at h ⊢
  by_cases hnil : value = []
  · rw [if_pos hnil] at h ⊢
    obtain rfl := Option.some.inj h
    subst hnil
    exact ⟨rfl, rfl, rfl⟩
  · rw [if_neg hnil] at h ⊢
    obtain ⟨docs, hdocs, rfl⟩ := Option.map_eq_some_iff.1 h
    rw [hdocs]
    exact ⟨rfl, rfl, rfl⟩

/-- The reader of a key, at the start of its list. -/
theorem ReadableIndex.reader (h : ReadableIndex op db) {key : Bytes}
    {cell : Cell} (hcell : (db .invertedIndexColumn)[key]? = some cell)
    (fieldId : Int) : ∃ value r, VirtualDB.cellValue op cell = some value ∧
      newDocListReaderCodec value fieldId = some r ∧
      AtStart (.reader r) { d | ∃ doc ∈ (docListOf value).getD [],
        doc.docId = d } := by
  obtain ⟨value, r, hvalue, hr, hdesc, hne⟩ := h.list key cell hcell
  obtain ⟨hr', hslice, hpos⟩ := newDocListReaderCodec_eq hr fieldId
  refine ⟨value, _, hvalue, hr', ?_⟩
  have hstart := atStart_reader (r := { r with fieldId }) ⟨hdesc, hne⟩ hpos
  have hids : idsOf (.reader { r with fieldId }) =
      { d | ∃ doc ∈ (docListOf value).getD [], doc.docId = d } := by
    rw [← hslice, idsOf]
  exact hids ▸ hstart

theorem termIds_eq {f : FieldID} {t : Bytes} {cell : Cell} {value : Bytes}
    (hcell : (db .invertedIndexColumn)[encodeInvertedKey table f t]? =
      some cell) (hvalue : VirtualDB.cellValue op cell = some value) :
    termIds op table db f t =
      { d | ∃ doc ∈ (docListOf value).getD [], doc.docId = d } := by
  rw [termIds, termList, VirtualDB.get, hcell, Option.bind_some, hvalue,
    Option.bind_some]

/-- What the scorer of a tree is, from some state of the context: there is
one, it answers an iterator at its start, and with an OK status at the end the
iterator is for what the tree denotes. -/
def ScoresAs (context : SearchContext) (q : Query) (ids : Set DocumentID)
    (st : ContextState) : Prop :=
  ∃ scorer st' it start, Settles (fun fuel => getScorer fuel context q st)
      (some scorer, st') ∧
    Settles (fun fuel => scorer.iterator fuel) it ∧ AtStart it start ∧
    (st'.status.ok = true → st.status.ok = true ∧ start = ids)

theorem booleanQuery_scores (h : ReadableIndex op db) (f : FieldID)
    (value : MatchValue) (st : ContextState) :
    ScoresAs (quietContext config op table db) (.booleanQuery f value)
      (termIds op table db f value.toTerm) st := by
  have hget : ∀ r, (booleanScorer (quietContext config op table db) f value
      st = some (some (.booleanScorer (.reader r)),
        { st with reads := st.reads + 1 })) →
      AtStart (.reader r) (termIds op table db f value.toTerm) →
      ScoresAs (quietContext config op table db) (.booleanQuery f value)
        (termIds op table db f value.toTerm) st := by
    intro r hr hstart
    refine ⟨_, _, .reader r, _, ⟨0, fun fuel _ => hr⟩, Settles.pure _, hstart,
      fun hok => ⟨hok, rfl⟩⟩
  cases hcell : (db .invertedIndexColumn)[encodeInvertedKey table f
      value.toTerm]? with
  | none =>
      have hdb : db.get op .invertedIndexColumn
          (encodeInvertedKey table f value.toTerm) = none := by
        rw [VirtualDB.get, hcell, Option.bind_none]
      refine hget { slice := [], fieldId := f.toNat } ?_ ?_
      · simp only [booleanScorer, quietContext, VirtualDB.getStatus, hdb]
        rfl
      · have hempty : termIds op table db f value.toTerm =
            idsOf (.reader { slice := [], fieldId := f.toNat }) := by
          rw [termIds, termList, hdb, idsOf]
          rfl
        rw [hempty]
        exact atStart_reader ⟨.nil, fun e he => absurd he List.not_mem_nil⟩ rfl
  | some cell =>
      obtain ⟨data, r, hdata, hr, hstart⟩ := h.reader hcell f.toNat
      have hdb : db.get op .invertedIndexColumn
          (encodeInvertedKey table f value.toTerm) = some data := by
        rw [VirtualDB.get, hcell, Option.bind_some, hdata]
      refine hget r ?_ ?_
      · simp only [booleanScorer, quietContext, VirtualDB.getStatus, hdb]
        rw [if_pos (.inl rfl)]
        simp only [SearchStatus.ok, kOK, beq_self_eq_true, if_true, hr]
        rfl
      · rw [termIds_eq hcell hdata]
        exact hstart

/-- What the scan of a prefix collects: no more than the keys with the prefix,
and all of them unless it reaches its limit. -/
theorem prefixValues_spec (limit : UInt32) (p : Bytes)
    (l : List (Bytes × Bytes)) : ∀ total,
    (∀ v ∈ (prefixValues limit p l total).1,
      ∃ x ∈ l.takeWhile (fun x => p.isPrefixOf x.1), x.2 = v) ∧
    ((prefixValues limit p l total).2 = none →
      (prefixValues limit p l total).1 =
        (l.takeWhile fun x => p.isPrefixOf x.1).map (·.2)) := by
  induction l with
  | nil => intro total; exact ⟨fun v hv => absurd hv List.not_mem_nil, fun _ => rfl⟩
  | cons x l ih =>
      intro total
      obtain ⟨key, value⟩ := x
      rw [prefixValues, List.takeWhile_cons]
      by_cases hlimit : limit ≤ total
      · rw [if_pos hlimit]
        exact ⟨fun v hv => absurd hv List.not_mem_nil,
          fun h => absurd h (Option.some_ne_none _)⟩
      · rw [if_neg hlimit]
        cases hp : p.isPrefixOf key with
        | false => exact ⟨fun v hv => absurd hv List.not_mem_nil, fun _ => rfl⟩
        | true =>
            obtain ⟨hmem, hall⟩ := ih (total + value.length.toUInt32)
            simp only [Bool.not_true, Bool.false_eq_true, if_false, if_true,
              List.map_cons]
            refine ⟨fun v hv => ?_, fun hnone => by rw [hall hnone]⟩
            rcases List.mem_cons.1 hv with rfl | hv
            · exact ⟨_, List.mem_cons_self, rfl⟩
            · obtain ⟨y, hy, hyv⟩ := hmem v hv
              exact ⟨y, List.mem_cons_of_mem _ hy, hyv⟩

/-- Where all lists can be read, nothing cuts a scan short. -/
theorem ReadableIndex.mem_entries (h : ReadableIndex op db)
    {l : List (Bytes × Cell)}
    (hl : ∀ x ∈ l, (db .invertedIndexColumn)[x.1]? = some x.2) {key value : Bytes} :
    (key, value) ∈ readableEntries op l ↔
      ∃ cell, (key, cell) ∈ l ∧ VirtualDB.cellValue op cell = some value := by
  induction l with
  | nil => simp [readableEntries]
  | cons x l ih =>
      obtain ⟨k, c⟩ := x
      obtain ⟨v, r, hv, -⟩ := h.list k c (hl _ List.mem_cons_self)
      have ih := ih fun y hy => hl y (List.mem_cons_of_mem _ hy)
      simp only [readableEntries, hv, List.mem_cons, ih, Prod.mk.injEq]
      constructor
      · rintro (⟨rfl, rfl⟩ | ⟨cell, hcell, hvalue⟩)
        · exact ⟨c, .inl ⟨rfl, rfl⟩, hv⟩
        · exact ⟨cell, .inr hcell, hvalue⟩
      · rintro ⟨cell, ⟨rfl, rfl⟩ | hcell, hvalue⟩
        · exact .inl ⟨rfl, Option.some.inj (hvalue.symm.trans hv)⟩
        · exact .inr ⟨cell, hcell, hvalue⟩

/-- A key with the prefix is the key of a term that begins with it. -/
theorem ReadableIndex.term_of_key (h : ReadableIndex op db) {f : FieldID}
    {start key : Bytes} {cell : Cell} (hstart : start.length < 2 ^ 32)
    (hcell : (db .invertedIndexColumn)[key]? = some cell)
    (hkey : encodeInvertedKey table f start <+: key) :
    ∃ t, start <+: t ∧ t.length < 2 ^ 32 ∧ key = encodeInvertedKey table f t := by
  obtain ⟨r, rfl⟩ := hkey
  have hlen := h.key_length _ (Std.ExtTreeMap.mem_iff_isSome_getElem?.2
    (by rw [hcell]; rfl))
  rw [encodeInvertedKey_eq hstart] at hlen ⊢
  have ht : (start ++ r).length < 2 ^ 32 := by
    simp only [List.length_append, List.length_cons] at hlen ⊢
    omega
  refine ⟨start ++ r, List.prefix_append start r, ht, ?_⟩
  rw [encodeInvertedKey_eq ht, List.append_assoc, List.cons_append]

theorem prefix_key {f : FieldID} {start t : Bytes} (ht : t.length < 2 ^ 32)
    (h : start <+: t) :
    encodeInvertedKey table f start <+: encodeInvertedKey table f t := by
  have hstart : start.length < 2 ^ 32 := h.length_le.trans_lt ht
  rw [encodeInvertedKey_eq hstart, encodeInvertedKey_eq ht,
    List.prefix_append_right_inj, List.cons_prefix_cons]
  exact ⟨rfl, h⟩

section Prefix

variable (h : ReadableIndex op db) {f : FieldID} {start : Bytes}
  (hfit : start.length < 2 ^ 32) {limit : UInt32} {values : List Bytes}
  {reached : Option UInt32}
  (hscan : prefixValues limit (encodeInvertedKey table f start)
    (db.seek op .invertedIndexColumn (encodeInvertedKey table f start)) 0 =
      (values, reached))

theorem prefixEntries_get (column : Column) (p : Bytes) :
    ∀ x ∈ prefixEntries column p, column[x.1]? = some x.2 :=
  fun _ hx => (mem_prefixEntries.1 hx).2

include h

theorem reader_of_value {t v : Bytes} {cell : Cell}
    (hcell : (db .invertedIndexColumn)[encodeInvertedKey table f t]? =
      some cell) (hvalue : VirtualDB.cellValue op cell = some v) :
    ∃ r, newDocListReaderCodec v f.toNat = some r ∧ AtStart (.reader r)
      { d | ∃ doc ∈ (docListOf v).getD [], doc.docId = d } := by
  obtain ⟨value, r, hvalue', hr, hstart⟩ := h.reader hcell f.toNat
  obtain rfl := Option.some.inj (hvalue.symm.trans hvalue')
  exact ⟨r, hr, hstart⟩

include hfit hscan

/-- Every value is that of a key with the prefix. -/
theorem key_of_value {v : Bytes} (hv : v ∈ values) :
    ∃ t cell, start <+: t ∧ t.length < 2 ^ 32 ∧
      (db .invertedIndexColumn)[encodeInvertedKey table f t]? = some cell ∧
      VirtualDB.cellValue op cell = some v := by
  obtain ⟨hmem, -⟩ := prefixValues_spec limit
    (encodeInvertedKey table f start) (db.seek op .invertedIndexColumn
      (encodeInvertedKey table f start)) 0
  rw [hscan, seek_prefix_eq] at hmem
  obtain ⟨⟨key, value⟩, hx, rfl⟩ := hmem v hv
  obtain ⟨cell, hcell, hvalue⟩ :=
    (h.mem_entries (prefixEntries_get _ _)).1 hx
  obtain ⟨hp, hget⟩ := mem_prefixEntries.1 hcell
  obtain ⟨t, hst, ht, rfl⟩ := h.term_of_key hfit hget hp
  exact ⟨t, cell, hst, ht, hget, hvalue⟩

theorem readers_of_values :
    ∃ readers, values.mapM (fun v =>
        newDocListReaderCodec v (f.toNat : Int)) = some readers ∧
      PartsAtStart (readers.map .reader) (values.map fun v =>
        { d | ∃ doc ∈ (docListOf v).getD [], doc.docId = d }) := by
  obtain ⟨readers, hreaders, hparts⟩ := Settles.mapM
    (g := fun _ v => newDocListReaderCodec v (f.toNat : Int))
    (R := fun v r => AtStart (.reader r)
      { d | ∃ doc ∈ (docListOf v).getD [], doc.docId = d }) (l := values) (by
      intro v hv
      obtain ⟨t, cell, -, -, hcell, hvalue⟩ := key_of_value h hfit hscan hv
      obtain ⟨r, hr, hstart⟩ := reader_of_value h hcell hvalue
      exact ⟨r, ⟨0, fun _ _ => hr⟩, hstart⟩)
  obtain ⟨n, hn⟩ := hreaders
  refine ⟨readers, hn n (Nat.le_refl n), ?_⟩
  rw [PartsAtStart, List.forall₂_map_left_iff, List.forall₂_map_right_iff]
  exact hparts.flip

/-- A scan to the end finds what the prefix denotes. -/
theorem union_of_values (hend : reached = none) :
    unionAll (values.map fun v =>
        { d | ∃ doc ∈ (docListOf v).getD [], doc.docId = d }) =
      denote op table db (.prefixQuery f start limit) := by
  ext d
  rw [denote, unionAll]
  simp only [List.mem_map, Set.mem_ofPred_eq]
  constructor
  · rintro ⟨s, ⟨v, hv, rfl⟩, hd⟩
    obtain ⟨t, cell, hst, ht, hcell, hvalue⟩ := key_of_value h hfit hscan hv
    refine ⟨t, hst, ht, ?_⟩
    rw [termIds_eq hcell hvalue]
    exact hd
  · rintro ⟨t, hst, ht, hd⟩
    cases hcell : (db .invertedIndexColumn)[encodeInvertedKey table f t]? with
    | none =>
        rw [termIds, termList, VirtualDB.get, hcell] at hd
        obtain ⟨doc, hdoc, -⟩ := hd
        exact absurd hdoc List.not_mem_nil
    | some cell =>
        obtain ⟨v, r, hvalue, -⟩ := h.list _ cell hcell
        rw [termIds_eq hcell hvalue] at hd
        refine ⟨_, ⟨v, ?_, rfl⟩, hd⟩
        obtain ⟨-, hall⟩ := prefixValues_spec limit
          (encodeInvertedKey table f start) (db.seek op .invertedIndexColumn
            (encodeInvertedKey table f start)) 0
        rw [hscan, seek_prefix_eq] at hall
        have hvalues : values = _ := hall hend
        rw [hvalues, List.mem_map]
        refine ⟨(encodeInvertedKey table f t, v),
          (h.mem_entries (prefixEntries_get _ _)).2 ⟨cell, ?_, hvalue⟩, rfl⟩
        exact mem_prefixEntries.2 ⟨prefix_key ht hst, hcell⟩

end Prefix

theorem prefixQuery_scores (h : ReadableIndex op db) (f : FieldID)
    {start : Bytes} (hfit : start.length < 2 ^ 32) (limit : UInt32)
    (st : ContextState) :
    ScoresAs (quietContext config op table db) (.prefixQuery f start limit)
      (denote op table db (.prefixQuery f start limit)) st := by
  obtain ⟨values, reached, hscan⟩ : ∃ values reached, prefixValues limit
      (encodeInvertedKey table f start) (db.seek op .invertedIndexColumn
        (encodeInvertedKey table f start)) 0 = (values, reached) :=
    ⟨_, _, rfl⟩
  obtain ⟨readers, hreaders, hstart⟩ := readers_of_values h hfit hscan
  have hcontext : (quietContext config op table db).snapshot.seek
      (quietContext config op table db).op .invertedIndexColumn
      (encodeInvertedKey (quietContext config op table db).table f start) =
      db.seek op .invertedIndexColumn (encodeInvertedKey table f start) := rfl
  refine ⟨.prefixScorer (finishOr (readers.map .reader)),
    { st with status := prefixStatus limit st.status reached }, _, _,
    ⟨0, fun fuel _ => ?_⟩, Settles.pure _, finishOr_atStart hstart,
    fun hok => ?_⟩
  · show prefixScorer _ f start limit st = _
    rw [prefixScorer, hcontext]
    simp only [quietContext, hscan, hreaders]
    rfl
  cases reached with
  | some size =>
      exact absurd hok (show ¬ (kReachMaxDocListSizeLimit == 0) = true from
        Bool.false_ne_true)
  | none => exact ⟨hok, union_of_values h hfit hscan rfl⟩

end Leaves

/-! ## Trees -/

section Trees

variable {config : IndexConfig} {op : DocListMergeOperator} {table : TableID}
  {db : VirtualDB}

/-- The parts of a tree, one after the other. -/
theorem addScorers_scores {context : SearchContext} {sub : List Query}
    {sets : Query → Set DocumentID}
    (h : ∀ q ∈ sub, ∀ st, ScoresAs context q (sets q) st) :
    ∀ st, ∃ its st' starts,
      Settles (fun fuel => addScorers fuel context sub st) (some its, st') ∧
      PartsAtStart its starts ∧
      (st'.status.ok = true → st.status.ok = true ∧ starts = sub.map sets) := by
  induction sub with
  | nil =>
      intro st
      exact ⟨[], st, [], Settles.pure _, .nil, fun hok => ⟨hok, rfl⟩⟩
  | cons q sub ih =>
      intro st
      obtain ⟨scorer, st₁, it, start, hscorer, hit, hstart, hok₁⟩ :=
        h q List.mem_cons_self st
      obtain ⟨its, st', starts, hits, hparts, hok₂⟩ :=
        ih (fun q hq => h q (List.mem_cons_of_mem _ hq)) st₁
      refine ⟨it :: its, st', start :: starts, ?_, .cons hstart hparts,
        fun hok => ?_⟩
      · simp only [addScorers]
        exact hscorer.bind (hit.bind (hits.bind (Settles.pure _)))
      · obtain ⟨hok, hstarts⟩ := hok₂ hok
        obtain ⟨hok, hset⟩ := hok₁ hok
        exact ⟨hok, by rw [hset, hstarts, List.map_cons]⟩

/-- `And` of parts with a set each. -/
theorem andQuery_scores {context : SearchContext} {sub : List Query}
    {sets : Query → Set DocumentID}
    (h : ∀ q ∈ sub, ∀ st, ScoresAs context q (sets q) st) (st : ContextState) :
    ScoresAs context (.andQuery sub) (interAll (sub.map sets)) st := by
  obtain ⟨its, st', starts, hits, hparts, hok⟩ := addScorers_scores h st
  obtain ⟨it, hit, hstart⟩ := finishMerge_atStart hparts
  refine ⟨.andScorer its, st', it, _, ?_, hit, hstart, fun hok' => ?_⟩
  · exact hits.bind (g := fun _ r => some (r.1.map Scorer.andScorer, r.2))
      (Settles.pure _)
  · obtain ⟨hst, hstarts⟩ := hok hok'
    exact ⟨hst, by rw [hstarts]⟩

/-- `Or` of parts with a set each. -/
theorem orQuery_scores {context : SearchContext} {sub : List Query}
    {sets : Query → Set DocumentID}
    (h : ∀ q ∈ sub, ∀ st, ScoresAs context q (sets q) st) (st : ContextState) :
    ScoresAs context (.orQuery sub) (unionAll (sub.map sets)) st := by
  obtain ⟨its, st', starts, hits, hparts, hok⟩ := addScorers_scores h st
  refine ⟨.orScorer its, st', _, _, ?_, Settles.pure _,
    finishOr_atStart hparts, fun hok' => ?_⟩
  · exact hits.bind (g := fun _ r => some (r.1.map Scorer.orScorer, r.2))
      (Settles.pure _)
  · obtain ⟨hst, hstarts⟩ := hok hok'
    exact ⟨hst, by rw [hstarts]⟩

theorem exists_sets {context : SearchContext} {sub : List Query}
    (h : ∀ q ∈ sub, ∃ ids, ∀ st, ScoresAs context q ids st) :
    ∃ sets : Query → Set DocumentID,
      ∀ q ∈ sub, ∀ st, ScoresAs context q (sets q) st := by
  have htotal : ∀ q, ∃ ids, q ∈ sub → ∀ st, ScoresAs context q ids st := by
    intro q
    by_cases hq : q ∈ sub
    · obtain ⟨ids, hids⟩ := h q hq
      exact ⟨ids, fun _ => hids⟩
    · exact ⟨∅, fun hq' => absurd hq' hq⟩
  choose sets hsets using htotal
  exact ⟨sets, hsets⟩

theorem denote_andQuery (sub : List Query) :
    denote op table db (.andQuery sub) =
      interAll (sub.map (denote op table db)) := by
  ext d
  rw [denote, interAll]
  simp

theorem denote_orQuery (sub : List Query) :
    denote op table db (.orQuery sub) =
      unionAll (sub.map (denote op table db)) := by
  ext d
  rw [denote, unionAll]
  simp

theorem getScorer_scores (h : ReadableIndex op db) : ∀ q, PrefixesFit q →
    ∀ st, ScoresAs (quietContext config op table db) q (denote op table db q)
      st
  | .booleanQuery f value, _, st => by
      rw [denote]
      exact booleanQuery_scores h f value st
  | .prefixQuery f start limit, hfit, st => by
      rw [PrefixesFit] at hfit
      exact prefixQuery_scores h f hfit limit st
  | .andQuery sub, hfit, st => by
      rw [PrefixesFit] at hfit
      rw [denote_andQuery]
      exact andQuery_scores (fun q hq => getScorer_scores h q (hfit q hq)) st
  | .orQuery sub, hfit, st => by
      rw [PrefixesFit] at hfit
      rw [denote_orQuery]
      exact orQuery_scores (fun q hq => getScorer_scores h q (hfit q hq)) st

/-- A prefix that is too long is cut by the key. -/
theorem prefixQuery_scores_some (h : ReadableIndex op db) (f : FieldID)
    (start : Bytes) (limit : UInt32) : ∃ ids, ∀ st,
    ScoresAs (quietContext config op table db) (.prefixQuery f start limit) ids
      st := by
  have hlen : (start.take start.length.toUInt32.toNat).length =
      start.length.toUInt32.toNat := by
    rw [List.length_take, Nat.min_eq_left]
    exact Nat.mod_le _ _
  have hfit : (start.take start.length.toUInt32.toNat).length < 2 ^ 32 := by
    rw [hlen]
    exact start.length.toUInt32.toNat_lt
  have hkey : encodeInvertedKey table f
      (start.take start.length.toUInt32.toNat) =
      encodeInvertedKey table f start := by
    rw [encodeInvertedKey, encodeInvertedKey, appendBuffer, appendBuffer,
      hlen, List.take_take]
    simp
  refine ⟨denote op table db (.prefixQuery f
    (start.take start.length.toUInt32.toNat) limit), fun st => ?_⟩
  obtain ⟨scorer, st', it, ids, hscorer, hrest⟩ :=
    @prefixQuery_scores config op table db h f _ hfit limit st
  refine ⟨scorer, st', it, ids, ?_, hrest⟩
  have hsame : (fun fuel => getScorer fuel (quietContext config op table db)
      (.prefixQuery f start limit) st) = fun fuel => getScorer fuel
        (quietContext config op table db) (.prefixQuery f
          (start.take start.length.toUInt32.toNat) limit) st := by
    funext fuel
    rw [getScorer, getScorer, prefixScorer, prefixScorer]
    show _ = _
    simp only [quietContext, hkey]
  rw [hsame]
  exact hscorer

/-- There is a set for every tree. -/
theorem getScorer_scores_some (h : ReadableIndex op db) (q : Query) :
    ∃ ids, ∀ st, ScoresAs (quietContext config op table db) q ids st := by
  cases q with
  | booleanQuery f value => exact ⟨_, booleanQuery_scores h f value⟩
  | prefixQuery f start limit => exact prefixQuery_scores_some h f start limit
  | andQuery sub =>
      obtain ⟨sets, hsets⟩ := exists_sets fun q (_ : q ∈ sub) =>
        getScorer_scores_some h q
      exact ⟨_, andQuery_scores hsets⟩
  | orQuery sub =>
      obtain ⟨sets, hsets⟩ := exists_sets fun q (_ : q ∈ sub) =>
        getScorer_scores_some h q
      exact ⟨_, orQuery_scores hsets⟩
termination_by q

/-- On a database whose lists are descending, the scorer of every tree answers
an iterator that comes to its end, and if no prefix reached its limit the ids
it shows are those the tree denotes, in descending order. -/
theorem iterator_enumerates (config : IndexConfig) (op : DocListMergeOperator)
    (table : TableID) (db : VirtualDB) (hdb : ReadableIndex op db) (q : Query)
    (hfit : PrefixesFit q) :
    ∃ scorer st it ids,
      Settles (fun fuel => getScorer fuel (quietContext config op table db) q
        {}) (some scorer, st) ∧
      Settles (fun fuel => scorer.iterator fuel) it ∧
      Settles (fun fuel => enumerate fuel it) ids ∧
      (st.status.ok = true → ids.Pairwise (fun a b => b < a) ∧
        ∀ d, d ∈ ids ↔ d ∈ denote op table db q) := by
  obtain ⟨scorer, st, it, start, hscorer, hit, hstart, hok⟩ :=
    @getScorer_scores config op table db hdb q hfit {}
  obtain ⟨n, hstand⟩ := hstart.standing
  obtain ⟨ids, hids, hdesc, hmem⟩ := enumerate_settles hstand
  refine ⟨scorer, st, it, ids, hscorer, hit, hids, fun hst => ⟨hdesc, ?_⟩⟩
  intro d
  rw [hmem, hstart.ids_eq, (hok hst).2, and_iff_left_iff_imp]
  intro hd
  rw [← (hok hst).2] at hd
  exact hstart.le_docID d hd

end Trees

/-- Two lists of field 3: the ids 7 and 5 under one term, the greatest id of
all and 5 under a longer one. -/
def twoLists : VirtualDB := VirtualDB.empty.applyAll
  [.put .invertedIndexColumn (encodeInvertedKey ⟨1, 2⟩ 3 [97])
    [0, 7, 0, 0, 0, 0, 0, 0, 0, 0, 5, 0, 0, 0, 0, 0, 0, 0, 0],
   .put .invertedIndexColumn (encodeInvertedKey ⟨1, 2⟩ 3 [97, 98])
    [0, 255, 255, 255, 255, 255, 255, 255, 255, 0, 5, 0, 0, 0, 0, 0, 0, 0, 0]]

/-- An `Or` with an empty `And` in it, and a prefix. -/
def mixedQuery : Query := .andQuery
  [.orQuery [.booleanQuery 3 (.term [97]), .booleanQuery 3 (.term [97, 98]),
    .andQuery []], .prefixQuery 3 [97, 98] 1000]

theorem prefixesFit_mixedQuery : PrefixesFit mixedQuery := by
  simp [mixedQuery, PrefixesFit]

theorem readableIndex_twoLists : ReadableIndex millionOperator twoLists :=
  readableIndex_of_entries (by decide +kernel)

/-- The one list of the prefix takes nineteen of the thousand bytes. -/
theorem withinLimits_mixedQuery :
    WithinLimits millionOperator ⟨1, 2⟩ twoLists mixedQuery := by
  have hunder : StaysUnder millionOperator ⟨1, 2⟩ twoLists 3 [97, 98] 1000 :=
    ⟨by decide +kernel, fun _ _ _ _ => by decide +kernel⟩
  simpa [mixedQuery, WithinLimits] using hunder

theorem iterator_enumerates_mixedQuery :
    ∃ scorer st it ids,
      Settles (fun fuel => getScorer fuel (quietContext spaceConfig
        millionOperator ⟨1, 2⟩ twoLists) mixedQuery {}) (some scorer, st) ∧
      Settles (fun fuel => scorer.iterator fuel) it ∧
      Settles (fun fuel => enumerate fuel it) ids ∧
      ids.Pairwise (fun a b => b < a) ∧
      ∀ d, d ∈ ids ↔ d ∈ denote millionOperator ⟨1, 2⟩ twoLists mixedQuery := by
  obtain ⟨scorer, st, it, ids, hscorer, hit, hids, hok⟩ := iterator_enumerates
    spaceConfig millionOperator ⟨1, 2⟩ twoLists readableIndex_twoLists
    mixedQuery prefixesFit_mixedQuery
  obtain ⟨n, hn⟩ := hscorer
  have hstatus : st.status.ok = true := (getScorer_status readableIndex_twoLists
    mixedQuery prefixesFit_mixedQuery (hn n (Nat.le_refl n))).2
      ⟨rfl, withinLimits_mixedQuery⟩
  exact ⟨scorer, st, it, ids, ⟨n, hn⟩, hit, hids, hok hstatus⟩

example : ((getScorer 9 (quietContext spaceConfig millionOperator ⟨1, 2⟩
    twoLists) mixedQuery {}).bind fun r => r.1.bind fun scorer =>
      (scorer.iterator 9).bind (enumerate 9)) = some [maxDocID, 5] := by
  decide +kernel

end Wwsearch.Spec
