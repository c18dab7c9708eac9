import Wwsearch.Spec.MemoryStore

/-!
# What a flush of the store in memory does

The message of a buffer has one entry for each key and then the ranges. The
entries are at different places, so each sees what the database held before
(`entryEffect`), and a flush goes through when every entry has an effect and no
range holds a key afterwards (`flushBuffer_iff`).
-/

namespace Wwsearch.Ref

open Wwsearch.Lib Wwsearch.Spec

namespace VirtualDBMock

/-! ## One entry -/

/-- What the entry of a buffer makes of what a key held. -/
def entryEffect (type : DocListCompressionType) (column : StorageColumnType)
    (held : Option Bytes) : Bytes × MockDataType → Option (Option Bytes)
  | (value, .kUpdate) => some (some value)
  | (value, .kMerge) =>
      if column ≠ .invertedIndexColumn then none
      else
        match held with
        | some old => (mergeDoclist change type old value).map some
        | none => some (some value)
  | (_, .kDelete) => some none
  | (_, .kDeleteRange) | (_, .kUnknown) => none

/-- The key holds this, and everything else what it held. -/
def Differs (db db' : VirtualDBMock) (column : StorageColumnType)
    (key : Bytes) (held : Option Bytes) : Prop :=
  ∀ c k, (db' c)[k]? = if c = column ∧ k = key then held else (db c)[k]?

theorem differs_insert (db : VirtualDBMock) (column : StorageColumnType)
    (key value : Bytes) : Differs db
      (db.setKvs column ((db column).insert key value)) column key
      (some value) := by
  intro c k
  by_cases hc : c = column
  · subst hc
    rw [setKvs, if_pos rfl, Std.ExtTreeMap.getElem?_insert]
    simp only [true_and, Std.compare_eq_iff_eq, eq_comm (a := k)]
  · rw [setKvs, if_neg hc, if_neg (fun h => hc h.1)]

theorem differs_erase (db : VirtualDBMock) (column : StorageColumnType)
    (key : Bytes) : Differs db
      (db.setKvs column ((db column).erase key)) column key none := by
  intro c k
  by_cases hc : c = column
  · subst hc
    rw [setKvs, if_pos rfl, Std.ExtTreeMap.getElem?_erase]
    simp only [true_and, Std.compare_eq_iff_eq, eq_comm (a := k)]
  · rw [setKvs, if_neg hc, if_neg (fun h => hc h.1)]

/-- An entry of a buffer is applied where it has an effect, and changes
nothing else. -/
theorem applyData_spec (type : DocListCompressionType) (db : VirtualDBMock)
    {m : MockData} (hkind : m.type ≠ .kDeleteRange) :
    match entryEffect type m.columnType (db m.columnType)[m.key]?
        (m.value, m.type) with
    | none => applyData type db m = none
    | some held => ∃ db', applyData type db m = some db' ∧
        Differs db db' m.columnType m.key held := by
  cases ht : m.type with
  | kUnknown => simp only [entryEffect, applyData, ht]
  | kUpdate =>
      simp only [entryEffect, applyData, ht]
      exact ⟨_, rfl, differs_insert db _ _ _⟩
  | kMerge =>
      by_cases hc : m.columnType = .invertedIndexColumn
      · cases hheld : (db m.columnType)[m.key]? with
        | none =>
            simp only [entryEffect, applyData, ht, hheld, if_neg (not_not_intro hc)]
            exact ⟨_, rfl, differs_insert db _ _ _⟩
        | some old =>
            cases hm : mergeDoclist change type old m.value with
            | none =>
                simp only [entryEffect, applyData, ht, hheld, hm,
                  if_neg (not_not_intro hc)]
                rfl
            | some value =>
                simp only [entryEffect, applyData, ht, hheld, hm,
                  if_neg (not_not_intro hc)]
                exact ⟨_, rfl, differs_insert db _ _ _⟩
      · simp only [entryEffect, applyData, ht, if_pos hc]
  | kDelete =>
      simp only [entryEffect, applyData, ht]
      exact ⟨_, rfl, differs_erase db _ _⟩
  | kDeleteRange => exact absurd ht hkind

/-! ## The entries of a message -/

/-- The entry that a list has for a key. -/
def entryAt (list : List MockData) (column : StorageColumnType)
    (key : Bytes) : Option (Bytes × MockDataType) :=
  (list.find? fun m => m.columnType == column && m.key == key).map
    fun m => (m.value, m.type)

/-- The database after the entries: each key as its entry makes it. -/
def AfterEntries (type : DocListCompressionType) (list : List MockData)
    (db db' : VirtualDBMock) : Prop :=
  ∀ c k, some (db' c)[k]? = match entryAt list c k with
    | none => some (db c)[k]?
    | some entry => entryEffect type c (db c)[k]? entry

theorem entryAt_cons (m : MockData) (list : List MockData)
    (column : StorageColumnType) (key : Bytes) :
    entryAt (m :: list) column key =
      if column = m.columnType ∧ key = m.key then some (m.value, m.type)
      else entryAt list column key := by
  rw [entryAt, List.find?_cons]
  by_cases h : column = m.columnType ∧ key = m.key
  · obtain ⟨rfl, rfl⟩ := h
    simp
  · have hne : (m.columnType == column && m.key == key) = false := by
      rw [Bool.and_eq_false_imp]
      intro hc
      exact beq_false_of_ne fun hk => h ⟨(eq_of_beq hc).symm, hk.symm⟩
    rw [hne, if_neg h]
    rfl

theorem entryAt_eq_none {list : List MockData} {column : StorageColumnType}
    {key : Bytes}
    (h : ∀ m ∈ list, ¬ (m.columnType = column ∧ m.key = key)) :
    entryAt list column key = none := by
  rw [entryAt, Option.map_eq_none_iff, List.find?_eq_none]
  intro m hm
  have := h m hm
  simpa using this

theorem ext_getElem? {db db' : VirtualDBMock}
    (h : ∀ (c : StorageColumnType) (k : Bytes), (db c)[k]? = (db' c)[k]?) :
    db = db' :=
  funext fun c => Std.ExtTreeMap.ext_getElem? fun {k} => h c k

/-- Entries for different keys do not see each other. -/
theorem foldlM_applyData {type : DocListCompressionType}
    {list : List MockData} (hkind : ∀ m ∈ list, m.type ≠ .kDeleteRange)
    (hkeys : list.Pairwise fun a b =>
      ¬ (b.columnType = a.columnType ∧ b.key = a.key))
    {db db' : VirtualDBMock} :
    list.foldlM (applyData type) db = some db' ↔
      AfterEntries type list db db' := by
  induction list generalizing db with
  | nil =>
      rw [List.foldlM_nil]
      constructor
      · intro h c k
        rw [Option.some.inj h]
        rfl
      · intro h
        exact congrArg some (ext_getElem? fun c k => (Option.some.inj (h c k)).symm)
  | cons m rest ih =>
      obtain ⟨hne, hrest⟩ := List.pairwise_cons.1 hkeys
      have hm := applyData_spec type db (hkind m List.mem_cons_self)
      rw [List.foldlM_cons]
      split at hm
      · next heff =>
          rw [hm]
          refine ⟨fun h => absurd h (by simp), fun h => ?_⟩
          have hat := h m.columnType m.key
          rw [entryAt_cons, if_pos ⟨rfl, rfl⟩] at hat
          exact absurd (hat.trans heff) (Option.some_ne_none _)
      · next held heff =>
          obtain ⟨db₁, happly, hdiff⟩ := hm
          rw [happly]
          refine (ih (fun x hx => hkind x (List.mem_cons_of_mem m hx))
            hrest).trans (forall₂_congr fun c k => ?_)
          rw [hdiff c k, entryAt_cons]
          by_cases h : c = m.columnType ∧ k = m.key
          · obtain ⟨rfl, rfl⟩ := h
            rw [entryAt_eq_none hne]
            simp only [and_self, if_true, heff]
          · rw [if_neg h, if_neg h]

/-! ## The ranges of a message -/

/-- Deleted ranges go through when they hold no key, and change nothing. -/
theorem foldlM_deleteRange {type : DocListCompressionType}
    {list : List MockData} (hkind : ∀ m ∈ list, m.type = .kDeleteRange)
    {db db' : VirtualDBMock} :
    list.foldlM (applyData type) db = some db' ↔
      db' = db ∧ ∀ m ∈ list, ∀ k ∈ (db m.columnType).keys,
        compare k m.key = .lt ∨ compare k (m.endKey.getD []) ≠ .lt := by
  induction list with
  | nil => simp [eq_comm]
  | cons m rest ih =>
      have hrest := ih fun x hx => hkind x (List.mem_cons_of_mem m hx)
      rw [List.foldlM_cons, List.forall_mem_cons]
      simp only [applyData, hkind m List.mem_cons_self]
      split
      · next hany =>
          obtain ⟨k, hk, hin⟩ := List.any_eq_true.1 hany
          refine ⟨fun h => absurd h (by simp), fun h => ?_⟩
          rw [Bool.and_eq_true, bne_iff_ne, beq_iff_eq] at hin
          rcases h.2.1 k hk with hbefore | hbehind
          · exact absurd hbefore hin.1
          · exact absurd hin.2 hbehind
      · next hany =>
          rw [Option.bind_eq_bind, Option.bind_some, hrest]
          have hnone : ∀ k ∈ (db m.columnType).keys,
              compare k m.key = .lt ∨ compare k (m.endKey.getD []) ≠ .lt := by
            intro k hk
            by_contra hin
            rw [not_or, not_not] at hin
            exact hany (List.any_eq_true.2 ⟨k, hk, by simp [hin.1, hin.2]⟩)
          exact and_congr_right fun _ => ⟨fun h => ⟨hnone, h⟩, fun h => h.2⟩

end VirtualDBMock

/-! ## The message of a buffer -/

theorem StorageColumnType.mem_all (c : StorageColumnType) :
    c ∈ StorageColumnType.all := by
  cases c <;> decide

theorem StorageColumnType.all_nodup : StorageColumnType.all.Nodup := by decide

namespace WriteBufferMock

theorem getElem?_setKvs (b : WriteBufferMock) (column : StorageColumnType)
    (key : Bytes) (entry : Bytes × MockDataType) (c : StorageColumnType)
    (k : Bytes) : ((b.setKvs column
        ((b.cfKvList column).insert key entry)).cfKvList c)[k]? =
      if c = column ∧ k = key then some entry else (b.cfKvList c)[k]? := by
  rw [setKvs]
  by_cases hc : c = column
  · subst hc
    simp only [if_true, Std.ExtTreeMap.getElem?_insert, true_and,
      Std.compare_eq_iff_eq, eq_comm (a := k)]
  · simp only [hc, false_and, if_false]

theorem mem_kvData {b : WriteBufferMock} {m : MockData} :
    m ∈ b.kvData ↔
      (b.cfKvList m.columnType)[m.key]? = some (m.value, m.type) ∧
        m.endKey = none := by
  simp only [kvData, List.mem_flatMap, List.mem_map]
  constructor
  · rintro ⟨c, -, kv, hkv, rfl⟩
    exact ⟨Std.ExtTreeMap.mem_toList_iff_getElem?_eq_some.1 hkv, rfl⟩
  · rintro ⟨hget, hend⟩
    refine ⟨m.columnType, StorageColumnType.mem_all _, (m.key, m.value, m.type),
      Std.ExtTreeMap.mem_toList_iff_getElem?_eq_some.2 hget, ?_⟩
    rw [← hend]

/-- A list column by column, each column in the order of its keys. -/
theorem pairwise_columns {f : StorageColumnType → List MockData}
    (hcol : ∀ c, ∀ m ∈ f c, m.columnType = c)
    (hkeys : ∀ c, (f c).Pairwise fun a b => b.key ≠ a.key) :
    (StorageColumnType.all.flatMap f).Pairwise fun a b =>
      ¬ (b.columnType = a.columnType ∧ b.key = a.key) := by
  rw [List.pairwise_flatMap]
  constructor
  · intro c _
    exact (hkeys c).imp fun hne h => hne h.2
  · refine StorageColumnType.all_nodup.imp fun {c c'} hne a ha b hb h => ?_
    rw [hcol c' b hb, hcol c a ha] at h
    exact hne h.1.symm

theorem kvData_pairwise (b : WriteBufferMock) :
    b.kvData.Pairwise fun a b =>
      ¬ (b.columnType = a.columnType ∧ b.key = a.key) := by
  refine pairwise_columns ?_ ?_
  · intro c m hm
    obtain ⟨kv, -, rfl⟩ := List.mem_map.1 hm
    rfl
  · intro c
    refine List.pairwise_map.2 ?_
    refine Std.ExtTreeMap.distinct_keys_toList.imp fun {x y} hne heq => hne ?_
    exact Std.compare_eq_iff_eq.2 (Eq.symm heq)

theorem entryAt_kvData (b : WriteBufferMock) (column : StorageColumnType)
    (key : Bytes) : VirtualDBMock.entryAt b.kvData column key =
      (b.cfKvList column)[key]? := by
  cases h : (b.cfKvList column)[key]? with
  | none =>
      refine VirtualDBMock.entryAt_eq_none fun m hm hat => ?_
      have hget := (mem_kvData.1 hm).1
      rw [hat.1, hat.2, h] at hget
      exact absurd hget.symm (Option.some_ne_none _)
  | some entry =>
      rw [VirtualDBMock.entryAt, Option.map_eq_some_iff]
      have hmem : ({ columnType := column, key, value := entry.1
                     type := entry.2 } : MockData) ∈ b.kvData :=
        mem_kvData.2 ⟨h, rfl⟩
      obtain ⟨m, hm⟩ := Option.isSome_iff_exists.1
        (List.find?_isSome.2 ⟨_, hmem, by simp⟩ :
          (b.kvData.find? fun m => m.columnType == column &&
            m.key == key).isSome = true)
      have hat := List.find?_some hm
      rw [Bool.and_eq_true, beq_iff_eq, beq_iff_eq] at hat
      have hget := (mem_kvData.1 (List.mem_of_find?_eq_some hm)).1
      rw [hat.1, hat.2, h] at hget
      exact ⟨m, hm, (Option.some.inj hget).symm⟩

theorem mem_rangeData {b : WriteBufferMock} {m : MockData} :
    m ∈ b.rangeData ↔ m.value = [] ∧ m.type = .kDeleteRange ∧
      ∃ endKey, m.endKey = some endKey ∧
        (m.key, endKey) ∈ b.cfDeleteKeyrangeList m.columnType := by
  simp only [rangeData, List.mem_flatMap, List.mem_map]
  constructor
  · rintro ⟨c, -, range, hrange, rfl⟩
    exact ⟨rfl, rfl, range.2, rfl, Std.ExtTreeSet.mem_toList.1 hrange⟩
  · rintro ⟨hvalue, htype, endKey, hend, hrange⟩
    refine ⟨m.columnType, StorageColumnType.mem_all _, (m.key, endKey),
      Std.ExtTreeSet.mem_toList.2 hrange, ?_⟩
    rw [← hvalue, ← htype, ← hend]

/-- Counting does not change the message. -/
theorem seriableData_eq (pb : MockPb) (b : WriteBufferMock) :
    b.seriableData pb =
      match pb.serializeToString (b.kvData ++ b.rangeData) with
      | none => ({ b with kvCnt := b.kvData.length.toUInt64, totalSize := 0
                          data := [] },
          ⟨kRocksDBErrorStatus, "RocksDBErrorStatus WriteBufferMock::Append"⟩)
      | some data => ({ b with kvCnt := b.kvData.length.toUInt64, data
                               totalSize := data.length.toUInt32 }, {}) := rfl

theorem getData_eq (pb : MockPb) (b : WriteBufferMock) :
    b.getData pb = (pb.serializeToString (b.kvData ++ b.rangeData)).getD [] := by
  rw [getData, seriableData_eq]
  cases pb.serializeToString (b.kvData ++ b.rangeData) with
  | none => rfl
  | some data => rfl

theorem serialized_iff {pb : MockPb} {b : WriteBufferMock} :
    Serialized pb b ↔
      (pb.serializeToString (b.kvData ++ b.rangeData)).isSome = true := by
  rw [Serialized, seriableData_eq]
  cases pb.serializeToString (b.kvData ++ b.rangeData) with
  | none => simp [SearchStatus.ok, kRocksDBErrorStatus]
  | some data => simp [SearchStatus.ok, kOK]

/-- No entry of the buffer is a range. -/
def Plain (b : WriteBufferMock) : Prop :=
  ∀ (c : StorageColumnType) (k v : Bytes),
    (b.cfKvList c)[k]? ≠ some (v, .kDeleteRange)

end WriteBufferMock

theorem MockPb.serialize_ne_nil (pb : MockPb) {list : List MockData}
    (hne : list ≠ []) : pb.serializeToString list ≠ some [] := by
  intro h
  have hparse := pb.parse_serialize list [] h
  rw [pb.parse_serialize [] [] pb.serialize_nil] at hparse
  exact hne (Option.some.inj hparse).symm

namespace VirtualDBMock

open WriteBufferMock

/-- A flush of bytes that were given out applies the message. -/
theorem flushBuffer_eq {pb : MockPb} {type : DocListCompressionType}
    (db : VirtualDBMock) (b : WriteBufferMock) :
    db.flushBuffer pb type b =
      if (pb.serializeToString (b.kvData ++ b.rangeData)).isSome then
        ((b.kvData ++ b.rangeData).foldlM (applyData type) db).map (·, {})
      else some (db, {}) := by
  rw [flushBuffer, parsePbString, getData_eq]
  cases h : pb.serializeToString (b.kvData ++ b.rangeData) with
  | none => rfl
  | some data =>
      have hparse := pb.parse_serialize _ _ h
      simp only [Option.getD_some, Option.isSome_some, if_true, hparse]
      split
      · next hnil =>
          by_cases hne : b.kvData ++ b.rangeData = []
          · rw [hne]
            rfl
          · exact absurd (hnil ▸ h) (pb.serialize_ne_nil hne)
      · cases (b.kvData ++ b.rangeData).foldlM (applyData type) db with
        | none => rfl
        | some db' => rfl

/-- **What a flush does.** Every key becomes what its entry makes of it, and
the ranges of the buffer hold none of the keys that are left. -/
theorem flushBuffer_iff {pb : MockPb} {type : DocListCompressionType}
    {db db' : VirtualDBMock} {b : WriteBufferMock} {s : SearchStatus}
    (hser : (pb.serializeToString (b.kvData ++ b.rangeData)).isSome = true)
    (hplain : b.Plain) :
    db.flushBuffer pb type b = some (db', s) ↔ s = {} ∧
      (∀ (c : StorageColumnType) (k : Bytes), some (db' c)[k]? =
        match (b.cfKvList c)[k]? with
        | none => some (db c)[k]?
        | some entry => entryEffect type c (db c)[k]? entry) ∧
      ∀ c, ∀ range ∈ b.cfDeleteKeyrangeList c, ∀ k ∈ (db' c).keys,
        compare k range.1 = .lt ∨ compare k range.2 ≠ .lt := by
  have hkinds : ∀ m ∈ b.kvData, m.type ≠ .kDeleteRange := by
    intro m hm ht
    have hget := (mem_kvData.1 hm).1
    rw [ht] at hget
    exact hplain _ _ _ hget
  have hranges : ∀ m ∈ b.rangeData, m.type = .kDeleteRange :=
    fun m hm => (mem_rangeData.1 hm).2.1
  have hentries : ∀ db₁, AfterEntries type b.kvData db db₁ ↔
      ∀ (c : StorageColumnType) (k : Bytes), some (db₁ c)[k]? =
        match (b.cfKvList c)[k]? with
        | none => some (db c)[k]?
        | some entry => entryEffect type c (db c)[k]? entry := by
    intro db₁
    simp only [AfterEntries, entryAt_kvData]
  have hfold : (b.kvData ++ b.rangeData).foldlM (applyData type) db = some db' ↔
      AfterEntries type b.kvData db db' ∧ ∀ m ∈ b.rangeData,
        ∀ k ∈ (db' m.columnType).keys,
          compare k m.key = .lt ∨ compare k (m.endKey.getD []) ≠ .lt := by
    rw [List.foldlM_append, Option.bind_eq_bind, Option.bind_eq_some_iff]
    constructor
    · rintro ⟨db₁, hkv, hrange⟩
      obtain ⟨rfl, hclear⟩ := (foldlM_deleteRange hranges).1 hrange
      exact ⟨(foldlM_applyData hkinds b.kvData_pairwise).1 hkv, hclear⟩
    · rintro ⟨hafter, hclear⟩
      exact ⟨db', (foldlM_applyData hkinds b.kvData_pairwise).2 hafter,
        (foldlM_deleteRange hranges).2 ⟨rfl, hclear⟩⟩
  have hclear : (∀ m ∈ b.rangeData, ∀ k ∈ (db' m.columnType).keys,
      compare k m.key = .lt ∨ compare k (m.endKey.getD []) ≠ .lt) ↔
      ∀ c, ∀ range ∈ b.cfDeleteKeyrangeList c, ∀ k ∈ (db' c).keys,
        compare k range.1 = .lt ∨ compare k range.2 ≠ .lt := by
    constructor
    · intro h c range hrange
      exact h ⟨c, range.1, [], .kDeleteRange, some range.2⟩
        (mem_rangeData.2 ⟨rfl, rfl, range.2, rfl, hrange⟩)
    · intro h m hm
      obtain ⟨-, -, endKey, hend, hrange⟩ := mem_rangeData.1 hm
      rw [hend]
      exact h _ _ hrange
  rw [flushBuffer_eq, if_pos hser, Option.map_eq_some_iff, ← hentries, ← hclear,
    ← hfold]
  constructor
  · rintro ⟨db₁, hdb, heq⟩
    obtain ⟨rfl, rfl⟩ := Prod.mk.inj heq
    exact ⟨rfl, hdb⟩
  · rintro ⟨rfl, hdb⟩
    exact ⟨db', hdb, rfl⟩

end VirtualDBMock

end Wwsearch.Ref
