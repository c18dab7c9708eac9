import Wwsearch.Lib.KeyOrder
import Wwsearch.Proofs.Keys
import Wwsearch.Ref.TableData

/-!
# The keys of a table

The first nine bytes of a key say whose it is, and no key has those of two
tables (`table_unique`). The keys of a table lie together, so a range between
two of them holds no key of another (`range_within`), and a mutation that is
built from keys of one table leaves every other table alone (`Within`).
-/

namespace Wwsearch.Ref

open Wwsearch.Lib

theorem encodeMetaKey_eq (table : TableID) : encodeMetaKey table =
    table.businessType :: (Word.toLE 8 table.partitionSet.toNat).reverse := rfl

theorem encodeMetaKey_length (table : TableID) :
    (encodeMetaKey table).length = 9 := by
  rw [encodeMetaKey_eq, List.length_cons, List.length_reverse, Word.toLE_length]

theorem encodeMetaKey_inj {t u : TableID}
    (h : encodeMetaKey t = encodeMetaKey u) : t = u := by
  rw [encodeMetaKey_eq, encodeMetaKey_eq] at h
  obtain ⟨htype, hset⟩ := List.cons.inj h
  have hset := Word.toLE_inj (t.partitionSet.toNat_lt.trans_le (by decide))
    (u.partitionSet.toNat_lt.trans_le (by decide)) (List.reverse_inj.1 hset)
  cases t
  cases u
  rw [TableID.mk.injEq]
  exact ⟨htype, UInt64.toNat_inj.1 hset⟩

/-- A key has one table. -/
theorem table_unique {t u : TableID} {key : Bytes}
    (ht : encodeMetaKey t <+: key) (hu : encodeMetaKey u <+: key) : t = u := by
  refine encodeMetaKey_inj ((List.prefix_of_prefix_length_le ht hu ?_).eq_of_length
    ?_)
  · rw [encodeMetaKey_length, encodeMetaKey_length]
  · rw [encodeMetaKey_length, encodeMetaKey_length]

/-! ## What is behind the table -/

theorem encodeStoredFieldKey_eq (table : TableID) (d : DocumentID) :
    encodeStoredFieldKey table d =
      encodeMetaKey table ++ (Word.toLE 8 d.toNat).reverse := rfl

/-- A term that is cut is still behind its table and its field. -/
theorem encodeInvertedKey_cut (table : TableID) (f : FieldID) (t : Bytes) :
    encodeInvertedKey table f t =
      encodeMetaKey table ++ f :: t.take t.length.toUInt32.toNat := by
  rw [encodeInvertedKey, appendBuffer, appendFixed8, List.append_assoc]
  rfl

theorem encodeSequenceMetaKey_eq (table : TableID) :
    encodeSequenceMetaKey table = encodeMetaKey table ++ [0] := rfl

theorem encodeSequenceMappingKey_eq (table : TableID) (userId : Bytes) :
    encodeSequenceMappingKey table userId =
      encodeMetaKey table ++ 1 :: userId := by
  rw [encodeSequenceMappingKey, appendFixed8, List.append_assoc]
  rfl

theorem encodeSequenceMappingKey_inj {table : TableID} {u v : Bytes} :
    encodeSequenceMappingKey table u = encodeSequenceMappingKey table v ↔
      u = v := by
  rw [encodeSequenceMappingKey_eq, encodeSequenceMappingKey_eq,
    List.append_cancel_left_eq, List.cons_eq_cons]
  exact and_iff_right rfl

theorem encodeSequenceMetaKey_ne (table : TableID) (userId : Bytes) :
    encodeSequenceMetaKey table ≠ encodeSequenceMappingKey table userId := by
  rw [encodeSequenceMetaKey_eq, encodeSequenceMappingKey_eq]
  intro h
  cases List.append_cancel_left h

theorem prefix_storedFieldKey (table : TableID) (d : DocumentID) :
    encodeMetaKey table <+: encodeStoredFieldKey table d :=
  ⟨_, (encodeStoredFieldKey_eq table d).symm⟩

theorem prefix_invertedKey (table : TableID) (f : FieldID) (t : Bytes) :
    encodeMetaKey table <+: encodeInvertedKey table f t :=
  ⟨_, (encodeInvertedKey_cut table f t).symm⟩

theorem prefix_sequenceMetaKey (table : TableID) :
    encodeMetaKey table <+: encodeSequenceMetaKey table :=
  ⟨_, (encodeSequenceMetaKey_eq table).symm⟩

theorem prefix_sequenceMappingKey (table : TableID) (userId : Bytes) :
    encodeMetaKey table <+: encodeSequenceMappingKey table userId :=
  ⟨_, (encodeSequenceMappingKey_eq table userId).symm⟩

/-! ## Keys of a column -/

/-- What the keys of a column look like. -/
def KeyOf (column : StorageColumnType) (key : Bytes) : Prop :=
  match column with
  | .storedFieldColumn | .docValueColumn =>
      ∃ table d, key = encodeStoredFieldKey table d
  | .invertedIndexColumn => ∃ table f t, key = encodeInvertedKey table f t
  | .metaColumn => ∃ table, key = encodeSequenceMetaKey table ∨
      ∃ userId, key = encodeSequenceMappingKey table userId
  | .dictionaryColumn | .paxosLogColumn | .paxosDataMetaColumn
  | .paxosLogMetaColumn => True

/-- A key that the mutation writes is one of its column. -/
def Mutation.Keyed : Mutation → Prop
  | .put column key _ | .merge column key _ => KeyOf column key
  | .delete _ _ | .deleteRange _ _ _ => True

def WellKeyed (db : VirtualDB) : Prop :=
  ∀ column key, (db column)[key]? ≠ none → KeyOf column key

theorem wellKeyed_empty : WellKeyed .empty :=
  fun _ _ h => absurd rfl h

theorem wellKeyed_apply {db : VirtualDB} (h : WellKeyed db) {m : Mutation}
    (hm : m.Keyed) : WellKeyed (m.apply db) := by
  intro column key hkey
  rw [Mutation.apply_getElem?] at hkey
  split at hkey
  · next htouch =>
      have hcolumn : m.column = column :=
        of_decide_eq_true (Bool.and_eq_true _ _ ▸ htouch).1
      subst hcolumn
      cases m with
      | put c k v =>
          obtain rfl : k = key :=
            of_decide_eq_true (Bool.and_eq_true _ _ ▸ htouch).2
          exact hm
      | merge c k v =>
          obtain rfl : k = key :=
            of_decide_eq_true (Bool.and_eq_true _ _ ▸ htouch).2
          exact hm
      | delete c k => exact absurd rfl hkey
      | deleteRange c b e => exact absurd rfl hkey
  · exact h column key hkey

theorem wellKeyed_applyAll (ms : List Mutation) : ∀ {db : VirtualDB},
    WellKeyed db → (∀ m ∈ ms, m.Keyed) → WellKeyed (db.applyAll ms) := by
  induction ms with
  | nil => exact fun h _ => h
  | cons m ms ih =>
      intro db h hms
      exact ih (wellKeyed_apply h (hms m List.mem_cons_self))
        fun m' hm' => hms m' (List.mem_cons_of_mem m hm')

/-! ## Mutations -/

/-- Every key that the mutation touches is one of the table. -/
def Mutation.Within (table : TableID) (m : Mutation) : Prop :=
  ∀ column key, m.touches column key = true → encodeMetaKey table <+: key

/-- A mutation of a single key. -/
theorem within_key {table : TableID} {m : Mutation} {key : Bytes}
    (hkey : encodeMetaKey table <+: key)
    (hm : ∀ column k, m.touches column k = true → key = k) :
    m.Within table := by
  intro column k htouch
  rw [← hm column k htouch]
  exact hkey

theorem put_within {table : TableID} {column : StorageColumnType}
    {key value : Bytes} (hkey : encodeMetaKey table <+: key) :
    (Mutation.put column key value).Within table :=
  within_key hkey fun _ _ h => of_decide_eq_true (Bool.and_eq_true _ _ ▸ h).2

theorem delete_within {table : TableID} {column : StorageColumnType}
    {key : Bytes} (hkey : encodeMetaKey table <+: key) :
    (Mutation.delete column key).Within table :=
  within_key hkey fun _ _ h => of_decide_eq_true (Bool.and_eq_true _ _ ▸ h).2

theorem merge_within {table : TableID} {column : StorageColumnType}
    {key value : Bytes} (hkey : encodeMetaKey table <+: key) :
    (Mutation.merge column key value).Within table :=
  within_key hkey fun _ _ h => of_decide_eq_true (Bool.and_eq_true _ _ ▸ h).2

/-- A range from one key of the table to another has keys of the table only. -/
theorem range_within {table : TableID} {column : StorageColumnType}
    {beginKey endKey : Bytes} (hbegin : encodeMetaKey table <+: beginKey)
    (hend : encodeMetaKey table <+: endKey) :
    (Mutation.deleteRange column beginKey endKey).Within table := by
  intro c key htouch
  rw [Mutation.touches, Bool.and_eq_true, Bool.and_eq_true] at htouch
  obtain ⟨-, hfrom, hto⟩ := htouch
  have hfrom : compare beginKey key ≠ .gt := by simpa using hfrom
  have hto : compare key endKey = .lt := by simpa using hto
  refine KeyOrder.prefix_of_between hend ?_ (hto ▸ by decide)
  obtain ⟨r, rfl⟩ := hbegin
  exact Ordering.isLE_iff_ne_gt.1 (Std.TransOrd.isLE_trans
    (Ordering.isLE_iff_ne_gt.2 (KeyOrder.compare_prefix_ne_gt _ r))
    (Ordering.isLE_iff_ne_gt.2 hfrom))

/-- Mutations of one table leave the keys of another alone. -/
theorem applyAll_other_table {t u : TableID} (hne : t ≠ u) {db : VirtualDB}
    {ms : List Mutation} (hms : ∀ m ∈ ms, m.Within t)
    {column : StorageColumnType} {key : Bytes}
    (hkey : encodeMetaKey u <+: key) :
    (db.applyAll ms column)[key]? = (db column)[key]? := by
  refine applyAll_getElem?_of_untouched fun m hm => ?_
  by_contra htouch
  exact hne (table_unique (hms m hm column key (Bool.not_eq_false _ ▸ htouch))
    hkey)

end Wwsearch.Ref
