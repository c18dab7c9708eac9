import Mathlib.Algebra.BigOperators.Group.List.Basic
import Wwsearch.Lib.Overlay
import Wwsearch.Proofs.MockMerge
import Wwsearch.Proofs.MockWire

/-!
# A write buffer from its own bytes

`DeSeriableData` puts every entry of the message, so that the rebuilt buffer
holds the same values under the kind `kUpdate`, and the empty value where a
range began (`getElem?_rebuilt`). It is never refused by the serializer when
the buffer itself was not. Flushed, it differs from the buffer by whatever the
kinds and the ends of the ranges would have done (`rebuilt_survives_iff`).
-/

namespace Wwsearch.Ref

open Wwsearch.Lib Wwsearch.Spec

/-! ## The kinds of the entries -/

/-- What calls on a new buffer leave: no kind but these, and merges only in the
inverted column. -/
def WellKinded (b : WriteBufferMock) : Prop :=
  ∀ (c : StorageColumnType) (k v : Bytes) (t : MockDataType),
    (b.cfKvList c)[k]? = some (v, t) →
      t = .kUpdate ∨ t = .kDelete ∨ t = .kMerge ∧ c = .invertedIndexColumn

theorem WellKinded.plain {b : WriteBufferMock} (h : WellKinded b) :
    b.Plain := by
  intro c k v hget
  rcases h c k v _ hget with ht | ht | ⟨ht, -⟩ <;> cases ht

theorem WellKinded.setKvs {b : WriteBufferMock} (h : WellKinded b)
    {column : StorageColumnType} {key value : Bytes} {type : MockDataType}
    (htype : type = .kUpdate ∨ type = .kDelete ∨
      type = .kMerge ∧ column = .invertedIndexColumn) :
    WellKinded (b.setKvs column
      ((b.cfKvList column).insert key (value, type))) := by
  intro c k v t hget
  rw [b.getElem?_setKvs] at hget
  split at hget
  · next hat =>
      obtain ⟨rfl, rfl⟩ := Prod.mk.inj (Option.some.inj hget)
      rw [hat.1]
      exact htype
  · exact h c k v t hget

theorem insert_erase (kvs : Std.ExtTreeMap Bytes (Bytes × MockDataType))
    (key : Bytes) (entry : Bytes × MockDataType) :
    (kvs.erase key).insert key entry = kvs.insert key entry := by
  refine Std.ExtTreeMap.ext_getElem? fun {k} => ?_
  rw [Std.ExtTreeMap.getElem?_insert, Std.ExtTreeMap.getElem?_insert,
    Std.ExtTreeMap.getElem?_erase]
  split <;> rfl

/-- One call keeps the kinds. -/
theorem WellKinded.bufferCall {type : DocListCompressionType}
    {b b' : WriteBufferMock} {m : Mutation} (h : WellKinded b)
    (hcall : bufferCall type b m = some b') : WellKinded b' := by
  cases m with
  | put column key value =>
      rw [← Option.some.inj hcall]
      exact h.setKvs (.inl rfl)
  | delete column key =>
      rw [← Option.some.inj hcall]
      show WellKinded (b.setKvs column _)
      rw [insert_erase]
      exact h.setKvs (.inr (.inl rfl))
  | deleteRange column beginKey endKey =>
      rw [← Option.some.inj hcall]
      exact h
  | merge column key value =>
      simp only [Spec.bufferCall, WriteBufferMock.merge] at hcall
      split at hcall
      · cases hcall
      · next hc =>
          have hkind : ∀ final, WellKinded (b.setKvs column
              ((b.cfKvList column).insert key (final, .kMerge))) := fun final =>
            h.setKvs (.inr (.inr ⟨rfl, not_not.1 hc⟩))
          split at hcall
          · obtain ⟨final, -, hb⟩ := Option.bind_eq_some_iff.1 hcall
            rw [← Option.some.inj hb]
            exact hkind final
          · rw [← Option.some.inj hcall]
            exact hkind value

/-- A run of calls keeps the kinds. -/
theorem bufferCalls_wellKinded {type : DocListCompressionType}
    {calls : List Mutation} {b : WriteBufferMock}
    (hrun : bufferCalls type calls = some b) : WellKinded b := by
  have hall : ∀ (calls : List Mutation) (b₀ : WriteBufferMock),
      WellKinded b₀ → calls.foldlM (Spec.bufferCall type) b₀ = some b →
      WellKinded b := by
    intro calls
    induction calls with
    | nil =>
        intro b₀ h hb
        rw [← Option.some.inj hb]
        exact h
    | cons m calls ih =>
        intro b₀ h hb
        obtain ⟨b₁, hcall, hrest⟩ := Option.bind_eq_some_iff.1 hb
        exact ih b₁ (h.bufferCall hcall) hrest
  refine hall calls {} ?_ hrun
  intro c k v t hget
  exact absurd (Std.ExtTreeMap.getElem?_empty.symm.trans hget) (by simp)

/-! ## The entries of the rebuilt buffer -/

/-- An entry of the message as a layer over what is below. -/
def putLayer (m : MockData) (place : StorageColumnType × Bytes) :
    Option Bytes :=
  if place.1 = m.columnType ∧ place.2 = m.key then some m.value else none

theorem putLayer_eq_some {m : MockData} {c : StorageColumnType}
    {k v : Bytes} : putLayer m (c, k) = some v ↔
      m.columnType = c ∧ m.key = k ∧ m.value = v := by
  rw [putLayer]
  split
  · next h =>
      obtain ⟨rfl, rfl⟩ := h
      simp
  · next h =>
      refine ⟨fun hnone => absurd hnone (by simp), ?_⟩
      rintro ⟨rfl, rfl, -⟩
      exact absurd ⟨rfl, rfl⟩ h

def putAll (b : WriteBufferMock) (list : List MockData) : WriteBufferMock :=
  list.foldl (fun b m => b.put m.columnType m.key m.value) b

theorem getElem?_putAll (list : List MockData) (b : WriteBufferMock)
    (c : StorageColumnType) (k : Bytes) : ((putAll b list).cfKvList c)[k]? =
      ((Overlay.read (list.map putLayer) (c, k)).map (·, .kUpdate)).or
        (b.cfKvList c)[k]? := by
  induction list generalizing b with
  | nil => rfl
  | cons m list ih =>
      have hput := b.getElem?_setKvs m.columnType m.key (m.value, .kUpdate) c k
      have hlayer : (putLayer m (c, k)).map (·, MockDataType.kUpdate) =
          if c = m.columnType ∧ k = m.key then some (m.value, .kUpdate)
          else none := by
        rw [putLayer]
        split <;> rfl
      refine (ih (b.put m.columnType m.key m.value)).trans ?_
      rw [List.map_cons, Overlay.read_cons]
      cases Overlay.read (list.map putLayer) (c, k) with
      | some v => rfl
      | none =>
          rw [Option.none_or, hlayer]
          refine hput.trans ?_
          split <;> rfl

theorem ranges_putAll (list : List MockData) (b : WriteBufferMock) :
    (putAll b list).cfDeleteKeyrangeList = b.cfDeleteKeyrangeList := by
  induction list generalizing b with
  | nil => rfl
  | cons m list ih => exact ih (b.put m.columnType m.key m.value)

/-- A range of the buffer begins at the key. -/
def Begins (b : WriteBufferMock) (c : StorageColumnType) (k : Bytes) : Prop :=
  ∃ endKey, (k, endKey) ∈ b.cfDeleteKeyrangeList c

theorem read_kvData (b : WriteBufferMock) (c : StorageColumnType) (k : Bytes) :
    Overlay.read (b.kvData.map putLayer) (c, k) =
      ((b.cfKvList c)[k]?).map (·.1) := by
  have hlayer : ∀ layer ∈ b.kvData.map putLayer, ∀ v, layer (c, k) = some v →
      some v = ((b.cfKvList c)[k]?).map (·.1) := by
    intro layer hmem v hv
    obtain ⟨m, hm, rfl⟩ := List.mem_map.1 hmem
    obtain ⟨rfl, rfl, rfl⟩ := putLayer_eq_some.1 hv
    rw [(WriteBufferMock.mem_kvData.1 hm).1]
    rfl
  cases hget : (b.cfKvList c)[k]? with
  | none =>
      refine Overlay.read_eq_none.2 fun layer hmem => ?_
      rw [hget] at hlayer
      exact Option.eq_none_iff_forall_ne_some.2 fun v hv =>
        absurd (hlayer layer hmem v hv) (by simp)
  | some entry =>
      have hm : ({ columnType := c, key := k, value := entry.1
                   type := entry.2 } : MockData) ∈ b.kvData :=
        WriteBufferMock.mem_kvData.2 ⟨hget, rfl⟩
      refine Overlay.read_of_agree (List.mem_map_of_mem hm)
        (putLayer_eq_some.2 ⟨rfl, rfl, rfl⟩) fun layer hmem v hv => ?_
      have := hlayer layer hmem v hv
      rw [hget] at this
      exact Option.some.inj this

theorem read_rangeData (b : WriteBufferMock) (c : StorageColumnType)
    (k : Bytes) :
    (Begins b c k → Overlay.read (b.rangeData.map putLayer) (c, k) = some []) ∧
      (¬ Begins b c k →
        Overlay.read (b.rangeData.map putLayer) (c, k) = none) := by
  constructor
  · rintro ⟨endKey, hrange⟩
    have hm : (⟨c, k, [], .kDeleteRange, some endKey⟩ : MockData) ∈
        b.rangeData :=
      WriteBufferMock.mem_rangeData.2 ⟨rfl, rfl, endKey, rfl, hrange⟩
    refine Overlay.read_of_agree (List.mem_map_of_mem hm)
      (putLayer_eq_some.2 ⟨rfl, rfl, rfl⟩) fun layer hmem v hv => ?_
    obtain ⟨m, hm, rfl⟩ := List.mem_map.1 hmem
    rw [← (putLayer_eq_some.1 hv).2.2]
    exact (WriteBufferMock.mem_rangeData.1 hm).1
  · intro hnone
    refine Overlay.read_eq_none.2 fun layer hmem => ?_
    obtain ⟨m, hm, rfl⟩ := List.mem_map.1 hmem
    obtain ⟨-, -, endKey, -, hrange⟩ := WriteBufferMock.mem_rangeData.1 hm
    refine Option.eq_none_iff_forall_ne_some.2 fun v hv => hnone ?_
    obtain ⟨rfl, rfl, -⟩ := putLayer_eq_some.1 hv
    exact ⟨endKey, hrange⟩

/-! ## The rebuilt buffer -/

/-- The buffer that `NewWriteBuffer` makes of the bytes. -/
def rebuilt (pb : MockPb) (b : WriteBufferMock) : WriteBufferMock :=
  VirtualDBMock.newWriteBuffer pb (some (b.getData pb))

/-- Its entries are those that the message puts into an empty buffer. -/
theorem rebuilt_eq {pb : MockPb} {b : WriteBufferMock}
    (hser : (pb.serializeToString (b.kvData ++ b.rangeData)).isSome = true) :
    (rebuilt pb b).cfKvList = (putAll {} (b.kvData ++ b.rangeData)).cfKvList ∧
      (rebuilt pb b).cfDeleteKeyrangeList = fun _ => ∅ := by
  obtain ⟨data, hdata⟩ := Option.isSome_iff_exists.1 hser
  have hparse := pb.parse_serialize _ _ hdata
  have hempty : ∀ (list : List MockData) (b b' : WriteBufferMock),
      b.cfKvList = b'.cfKvList →
      (putAll b list).cfKvList = (putAll b' list).cfKvList := by
    intro list b b' h
    funext c
    refine Std.ExtTreeMap.ext_getElem? fun {k} => ?_
    rw [getElem?_putAll, getElem?_putAll, h]
  rw [rebuilt, VirtualDBMock.newWriteBuffer, WriteBufferMock.ofData,
    WriteBufferMock.getData_eq, hdata, Option.getD_some,
    WriteBufferMock.deSeriableData]
  split
  · next hnil =>
      have hne : b.kvData ++ b.rangeData = [] := by
        by_contra hne
        exact pb.serialize_ne_nil hne (by rw [hdata]; exact congrArg some hnil)
      rw [hne]
      exact ⟨rfl, rfl⟩
  · simp only [hparse]
    exact ⟨hempty _ _ {} rfl, ranges_putAll _ _⟩

theorem getElem?_rebuilt {pb : MockPb} {b : WriteBufferMock}
    (hser : (pb.serializeToString (b.kvData ++ b.rangeData)).isSome = true)
    (c : StorageColumnType) (k : Bytes) :
    ((rebuilt pb b).cfKvList c)[k]? = ((Overlay.read
      ((b.kvData ++ b.rangeData).map putLayer) (c, k)).map (·, .kUpdate)) := by
  rw [(rebuilt_eq hser).1, getElem?_putAll]
  exact (congrArg _ Std.ExtTreeMap.getElem?_empty).trans (Option.or_none)

/-- Where each item of a list stands for an item of another under the same name
and is no larger, and no name occurs twice, neither is the list. -/
theorem sum_le_of_origin {α κ : Type} [DecidableEq α] (name : α → κ)
    (size : α → Nat) {l l' : List α}
    (hl : l.Pairwise fun a b => name b ≠ name a)
    (h : ∀ x ∈ l, ∃ y ∈ l', name y = name x ∧ size x ≤ size y) :
    (l.map size).sum ≤ (l'.map size).sum := by
  induction l generalizing l' with
  | nil => exact Nat.zero_le _
  | cons x l ih =>
      obtain ⟨hne, hrest⟩ := List.pairwise_cons.1 hl
      obtain ⟨y, hy, hname, hsize⟩ := h x List.mem_cons_self
      have hsum := ((List.perm_cons_erase hy).map size).sum_eq
      have hle : (l.map size).sum ≤ ((l'.erase y).map size).sum := by
        refine ih hrest fun z hz => ?_
        obtain ⟨w, hw, hwname, hwsize⟩ := h z (List.mem_cons_of_mem x hz)
        refine ⟨w, (List.mem_erase_of_ne fun heq => ?_).2 hw, hwname, hwsize⟩
        exact hne z hz (by rw [← hwname, heq, hname])
      rw [List.map_cons, List.sum_cons] at hsum ⊢
      omega

/-- An entry of the rebuilt buffer comes from one of the message. -/
theorem mem_kvData_rebuilt {pb : MockPb} {b : WriteBufferMock}
    (hser : (pb.serializeToString (b.kvData ++ b.rangeData)).isSome = true)
    {m : MockData} (hm : m ∈ (rebuilt pb b).kvData) :
    ∃ m' ∈ b.kvData ++ b.rangeData,
      m = { m' with type := .kUpdate, endKey := none } := by
  obtain ⟨hget, hend⟩ := WriteBufferMock.mem_kvData.1 hm
  rw [getElem?_rebuilt hser, Option.map_eq_some_iff] at hget
  obtain ⟨v, hread, heq⟩ := hget
  obtain ⟨hv, htype⟩ := Prod.mk.inj heq
  obtain ⟨layer, hlayer, hsome⟩ := Overlay.read_mem hread
  obtain ⟨m', hm', rfl⟩ := List.mem_map.1 hlayer
  obtain ⟨hcolumn, hkey, hvalue⟩ := putLayer_eq_some.1 hsome
  refine ⟨m', hm', ?_⟩
  rw [hcolumn, hkey, hvalue, hv, htype, ← hend]

theorem rebuilt_rangeData {pb : MockPb} {b : WriteBufferMock}
    (hser : (pb.serializeToString (b.kvData ++ b.rangeData)).isSome = true) :
    (rebuilt pb b).rangeData = [] := by
  refine List.eq_nil_iff_forall_not_mem.2 fun m hm => ?_
  obtain ⟨-, -, endKey, -, hrange⟩ := WriteBufferMock.mem_rangeData.1 hm
  rw [(rebuilt_eq hser).2] at hrange
  exact absurd hrange (by simp)

/-- The rebuilt buffer is not refused. -/
theorem rebuilt_serialized {pb : MockPb} {b : WriteBufferMock}
    (hser : (pb.serializeToString (b.kvData ++ b.rangeData)).isSome = true) :
    (pb.serializeToString ((rebuilt pb b).kvData ++
      (rebuilt pb b).rangeData)).isSome = true := by
  rw [rebuilt_rangeData hser, List.append_nil, pb.serialize_isSome]
  refine lt_of_le_of_lt (sum_le_of_origin (fun m => (m.columnType, m.key))
    pb.byteSize ?_ fun m hm => ?_) ((pb.serialize_isSome _).1 hser)
  · exact (rebuilt pb b).kvData_pairwise.imp fun hne heq =>
      hne ⟨congrArg Prod.fst heq, congrArg Prod.snd heq⟩
  · obtain ⟨m', hm', rfl⟩ := mem_kvData_rebuilt hser hm
    exact ⟨m', hm', rfl, pb.byteSize_update m'⟩

/-- What a flush of the rebuilt buffer leaves: the empty value where a range
began, and the buffer's values over the database's elsewhere. -/
theorem rebuilt_flush {pb : MockPb} {b : WriteBufferMock}
    (hser : (pb.serializeToString (b.kvData ++ b.rangeData)).isSome = true)
    (type : DocListCompressionType) (db : VirtualDBMock) :
    ∃ db', db.flushBuffer pb type (rebuilt pb b) = some (db', {}) ∧
      ∀ (c : StorageColumnType) (k : Bytes),
        (Begins b c k → (db' c)[k]? = some []) ∧
          (¬ Begins b c k → (db' c)[k]? = heldAt db b c k) := by
  have hkind : ∀ m ∈ (rebuilt pb b).kvData, m.type = .kUpdate := by
    intro m hm
    obtain ⟨m', -, rfl⟩ := mem_kvData_rebuilt hser hm
    rfl
  have hplain : (rebuilt pb b).Plain := by
    intro c k v hget
    have := hkind ⟨c, k, v, .kDeleteRange, none⟩
      (WriteBufferMock.mem_kvData.2 ⟨hget, rfl⟩)
    cases this
  -- puts alone always go through
  have hputs : ∀ (list : List MockData) (db : VirtualDBMock),
      (∀ m ∈ list, m.type = .kUpdate) →
      ∃ db', list.foldlM (VirtualDBMock.applyData type) db = some db' := by
    intro list
    induction list with
    | nil => exact fun db _ => ⟨db, rfl⟩
    | cons m list ih =>
        intro db h
        obtain ⟨hm, hrest⟩ := List.forall_mem_cons.1 h
        rw [List.foldlM_cons, VirtualDBMock.applyData, hm]
        exact ih _ hrest
  obtain ⟨db', hdb'⟩ := hputs _ db hkind
  have hflush : db.flushBuffer pb type (rebuilt pb b) = some (db', {}) := by
    rw [VirtualDBMock.flushBuffer_eq, if_pos (rebuilt_serialized hser),
      rebuilt_rangeData hser, List.append_nil, hdb']
    rfl
  refine ⟨db', hflush, fun c k => ?_⟩
  obtain ⟨-, hentries, -⟩ := (VirtualDBMock.flushBuffer_iff
    (rebuilt_serialized hser) hplain).1 hflush
  have hat := hentries c k
  rw [getElem?_rebuilt hser, List.map_append, Overlay.read_append,
    read_kvData] at hat
  constructor
  · intro hbegin
    rw [(read_rangeData b c k).1 hbegin] at hat
    exact Option.some.inj hat
  · intro hnone
    rw [(read_rangeData b c k).2 hnone, Option.none_or] at hat
    rw [heldAt]
    cases hget : (b.cfKvList c)[k]? with
    | none =>
        rw [hget] at hat
        exact Option.some.inj hat
    | some entry =>
        rw [hget] at hat
        exact Option.some.inj hat

/-! ## When a buffer survives -/

theorem absorbs_iff {type : DocListCompressionType} {old value : Bytes} :
    mergeDoclist VirtualDBMock.change type old value = some value ↔
      Absorbs type old value := by
  have hvalue : ∀ result : Option (Bool × Bytes),
      mergeValue result = some value ↔ result = some (true, value) := by
    intro result
    cases result with
    | none => simp [mergeValue]
    | some r =>
        obtain ⟨ok, out⟩ := r
        cases ok <;> simp [mergeValue]
  constructor
  · intro h
    obtain ⟨oldDocs, docs, hold, hdocs⟩ := mergeDoclist_eq_some h
    rw [VirtualDBMock.mergeDoclist_eq hold hdocs] at h
    exact ⟨oldDocs, docs, hold, hdocs, (hvalue _).1 h⟩
  · rintro ⟨oldDocs, docs, hold, hdocs, hwrite⟩
    rw [VirtualDBMock.mergeDoclist_eq hold hdocs]
    exact (hvalue _).2 hwrite

/-- A merged value is never empty. -/
theorem mergeDoclist_ne_nil {type : DocListCompressionType} {old value : Bytes} :
    mergeDoclist VirtualDBMock.change type old value ≠ some [] := by
  intro h
  obtain ⟨oldDocs, docs, hold, hdocs⟩ := mergeDoclist_eq_some h
  rw [VirtualDBMock.mergeDoclist_eq hold hdocs] at h
  cases hwrite : writeDocList type (liveMerged (oneByOne (oldDocs ++ docs))) with
  | none =>
      rw [hwrite] at h
      cases h
  | some result =>
      obtain ⟨ok, out⟩ := result
      have hne := writeDocList_ne_nil hwrite
      rw [hwrite] at h
      cases ok with
      | false => cases h
      | true => exact hne (Option.some.inj h)

theorem heldAt_of_get {db : VirtualDBMock} {b : WriteBufferMock}
    {c : StorageColumnType} {k v : Bytes} {t : MockDataType}
    (h : (b.cfKvList c)[k]? = some (v, t)) : heldAt db b c k = some v := by
  rw [heldAt, h]
  rfl

/-- An empty range holds no key. -/
theorem outside_empty_range {range : Bytes × Bytes}
    (h : compare range.1 range.2 ≠ .lt) (k : Bytes) :
    compare k range.1 = .lt ∨ compare k range.2 ≠ .lt := by
  by_cases hlt : compare k range.1 = .lt
  · exact .inl hlt
  · refine .inr fun hbelow => h (Std.TransCmp.lt_of_isLE_of_lt ?_ hbelow)
    have hswap : compare range.1 k = (compare k range.1).swap :=
      Std.OrientedOrd.eq_swap
    rw [hswap]
    cases hk : compare k range.1 with
    | lt => exact absurd hk hlt
    | eq => rfl
    | gt => rfl

/-! ## What a flush left -/

section Flushed

variable {pb : MockPb} {type : DocListCompressionType} {b : WriteBufferMock}
  {db db' : VirtualDBMock} {c : StorageColumnType} {k v : Bytes}
  (hkinds : WellKinded b)
  (hser : (pb.serializeToString (b.kvData ++ b.rangeData)).isSome = true)

section Left

variable (hflush : db.flushBuffer pb type b = some (db', {}))

include hkinds hser hflush

theorem flushed_delete (hget : (b.cfKvList c)[k]? = some (v, .kDelete)) :
    (db' c)[k]? = none := by
  obtain ⟨-, hentries, -⟩ :=
    (VirtualDBMock.flushBuffer_iff hser hkinds.plain).1 hflush
  have hat := hentries c k
  rw [hget] at hat
  exact Option.some.inj hat

/-- A merge into a value gives back its own value, or else the empty one. -/
theorem flushed_merge {old : Bytes}
    (hget : (b.cfKvList c)[k]? = some (v, .kMerge))
    (hold : (db c)[k]? = some old) :
    mergeDoclist VirtualDBMock.change type old v = (db' c)[k]? := by
  obtain ⟨-, hentries, -⟩ :=
    (VirtualDBMock.flushBuffer_iff hser hkinds.plain).1 hflush
  have hat := hentries c k
  rw [hget, hold] at hat
  simp only [VirtualDBMock.entryEffect] at hat
  split at hat
  · cases hat
  · obtain ⟨out, hout, hsome⟩ := Option.map_eq_some_iff.1 hat.symm
    rw [hout, hsome]

/-- A key with the empty value had it before, or was put with it. -/
theorem heldAt_of_flushed_nil (hnil : (db' c)[k]? = some []) :
    heldAt db b c k = some [] := by
  obtain ⟨-, hentries, -⟩ :=
    (VirtualDBMock.flushBuffer_iff hser hkinds.plain).1 hflush
  have hat := hentries c k
  rw [hnil] at hat
  cases hget : (b.cfKvList c)[k]? with
  | none =>
      rw [hget] at hat
      rw [heldAt, hget]
      exact (Option.some.inj hat).symm
  | some entry =>
      obtain ⟨v, t⟩ := entry
      rw [heldAt_of_get hget]
      rw [hget] at hat
      rcases hkinds c k v t hget with rfl | rfl | ⟨rfl, rfl⟩
      · exact (Option.some.inj hat).symm
      · cases Option.some.inj hat
      · cases hold : (db .invertedIndexColumn)[k]? with
        | none =>
            rw [hold] at hat
            exact (Option.some.inj hat).symm
        | some old =>
            have hout := flushed_merge hkinds hser hflush hget hold
            rw [hnil] at hout
            exact absurd hout mergeDoclist_ne_nil

end Left

variable (hdb' : ∀ (c : StorageColumnType) (k : Bytes),
    (Begins b c k → (db' c)[k]? = some []) ∧
      (¬ Begins b c k → (db' c)[k]? = heldAt db b c k))

include hkinds hser hdb'

theorem onlyPuts_of_flushed
    (hflush : db.flushBuffer pb type b = some (db', {})) :
    OnlyPuts type db b := by
  refine ⟨fun c k v hget => ?_, fun c k v old hget hold => ?_,
    fun c range hrange => ?_⟩
  · have hnone := flushed_delete hkinds hser hflush hget
    by_cases hbegin : Begins b c k
    · rw [(hdb' c k).1 hbegin] at hnone
      cases hnone
    · rw [(hdb' c k).2 hbegin, heldAt_of_get hget] at hnone
      cases hnone
  · have hout := flushed_merge hkinds hser hflush hget hold
    by_cases hbegin : Begins b c k
    · rw [(hdb' c k).1 hbegin] at hout
      exact absurd hout mergeDoclist_ne_nil
    · rw [(hdb' c k).2 hbegin, heldAt_of_get hget] at hout
      exact absorbs_iff.1 hout
  · have hbegin : (db' c)[range.1]? = some [] :=
      (hdb' c range.1).1 ⟨range.2, hrange⟩
    have hkey : range.1 ∈ (db' c).keys := by
      rw [Std.ExtTreeMap.mem_keys, ← Std.ExtTreeMap.isSome_getElem?_iff_mem,
        hbegin]
      rfl
    obtain ⟨-, -, hclear⟩ :=
      (VirtualDBMock.flushBuffer_iff hser hkinds.plain).1 hflush
    refine ⟨?_, heldAt_of_flushed_nil hkinds hser hflush hbegin⟩
    rcases hclear c range hrange range.1 hkey with hlt | hge
    · rw [Std.compare_self] at hlt
      cases hlt
    · exact hge

theorem flushed_of_onlyPuts (h : OnlyPuts type db b) :
    db.flushBuffer pb type b = some (db', {}) := by
  have hat : ∀ (c : StorageColumnType) (k : Bytes),
      (db' c)[k]? = heldAt db b c k := by
    intro c k
    by_cases hbegin : Begins b c k
    · rw [(hdb' c k).1 hbegin]
      obtain ⟨endKey, hrange⟩ := hbegin
      exact (h.ranges c _ hrange).2.symm
    · exact (hdb' c k).2 hbegin
  refine (VirtualDBMock.flushBuffer_iff hser hkinds.plain).2
    ⟨rfl, fun c k => ?_, fun c range hrange k _ =>
      outside_empty_range (h.ranges c range hrange).1 k⟩
  rw [hat]
  cases hget : (b.cfKvList c)[k]? with
  | none =>
      rw [heldAt, hget]
      rfl
  | some entry =>
      obtain ⟨v, t⟩ := entry
      rw [heldAt_of_get hget]
      rcases hkinds c k v t hget with rfl | rfl | ⟨rfl, rfl⟩
      · rfl
      · exact absurd hget (h.noDelete c k v)
      · cases hold : (db .invertedIndexColumn)[k]? with
        | none => rfl
        | some old =>
            have hout := absorbs_iff.2 (h.merges _ k v old hget hold)
            simp only [VirtualDBMock.entryEffect, ne_eq, not_true, if_false,
              hout]
            rfl

/-- The state that a flush of the rebuilt buffer leaves is the one the buffer
itself leaves, exactly if nothing but puts matter. -/
theorem flush_rebuilt_iff :
    db.flushBuffer pb type b = some (db', {}) ↔ OnlyPuts type db b :=
  ⟨onlyPuts_of_flushed hkinds hser hdb', flushed_of_onlyPuts hkinds hser hdb'⟩

end Flushed

/-- **When a write buffer survives its own bytes.** -/
theorem rebuilt_survives_iff (pb : MockPb) {type : DocListCompressionType}
    {calls : List Mutation} {b : WriteBufferMock}
    (hrun : bufferCalls type calls = some b) (db : VirtualDBMock) :
    Survives pb type db b ↔ ¬ Serialized pb b ∨ OnlyPuts type db b := by
  rw [WriteBufferMock.serialized_iff]
  show db.flushBuffer pb type (rebuilt pb b) = _ ↔ _
  by_cases hser : (pb.serializeToString (b.kvData ++ b.rangeData)).isSome = true
  · obtain ⟨db', hflush, hdb'⟩ := rebuilt_flush hser type db
    rw [hflush, eq_comm, flush_rebuilt_iff (bufferCalls_wellKinded hrun) hser hdb']
    exact (or_iff_right (not_not_intro hser)).symm
  · refine iff_of_true ?_ (.inl hser)
    have hdata : b.getData pb = [] := by
      rw [WriteBufferMock.getData_eq, Option.not_isSome_iff_eq_none.1 hser]
      rfl
    rw [VirtualDBMock.flushBuffer_eq db b, if_neg hser,
      VirtualDBMock.flushBuffer_eq, rebuilt, hdata]
    split <;> rfl

/-- A put, and a merge into a key that the database does not have. -/
theorem rebuilt_survives_iff_newKeys :
    ∃ b, bufferCalls .fixType [.put .storedFieldColumn [1] [9],
        .merge .invertedIndexColumn [2] [0]] = some b ∧
      Survives mockWire .fixType (fun _ => ∅) b := by
  have hrun : bufferCalls .fixType [.put .storedFieldColumn [1] [9],
      .merge .invertedIndexColumn [2] [0]] = some { (({} : WriteBufferMock).put
        .storedFieldColumn [1] [9]).setKvs .invertedIndexColumn
          (((({} : WriteBufferMock).put .storedFieldColumn [1] [9]).cfKvList
            .invertedIndexColumn).insert [2] ([0], .kMerge)) with kvCnt := 2 } :=
    rfl
  refine ⟨_, hrun, (rebuilt_survives_iff mockWire hrun _).2 (.inr
    ⟨fun c k v hget => ?_, fun c k v old _ hold => ?_, fun c range hrange => ?_⟩)⟩
  · have hput := ({} : WriteBufferMock).getElem?_setKvs .storedFieldColumn [1]
      ([9], .kUpdate) c k
    have hmerge := (({} : WriteBufferMock).put .storedFieldColumn [1]
      [9]).getElem?_setKvs .invertedIndexColumn [2] ([0], .kMerge) c k
    have hentry := hmerge.symm.trans hget
    split at hentry
    · cases hentry
    · have hfirst := hput.symm.trans hentry
      split at hfirst
      · cases hfirst
      · exact absurd (Std.ExtTreeMap.getElem?_empty.symm.trans hfirst) (by simp)
  · exact absurd (Std.ExtTreeMap.getElem?_empty.symm.trans hold) (by simp)
  · exact absurd hrange Std.ExtTreeSet.not_mem_empty

/-- A key that is deleted comes back as a key with the empty value. -/
theorem delete_not_survives :
    ∃ b, bufferCalls .fixType [.delete .storedFieldColumn [1]] = some b ∧
      ¬ Survives mockWire .fixType (fun _ => ∅) b := by
  refine ⟨({} : WriteBufferMock).delete .storedFieldColumn [1], rfl, fun h => ?_⟩
  have hget := congrArg (Option.map fun r =>
    VirtualDBMock.get r.1 .storedFieldColumn [1]) h
  exact absurd hget (by decide +kernel)

end Wwsearch.Ref
