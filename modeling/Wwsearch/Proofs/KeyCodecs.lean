import Wwsearch.Proofs.TableKeys
import Wwsearch.Spec.Keys

/-!
# The keys are faithful

A key is its table, nine bytes, and something behind it. So two keys are one
only if their tables are and what is behind them is, and they compare first by
the tables and then by what is behind: a document id with its high byte first,
a field and a term, one byte that says what a meta key is for.
-/

namespace Wwsearch.Spec

open Wwsearch.Lib Wwsearch.Ref

/-! ## The order of the bytes in a key -/

theorem toLE_htonl (i : UInt32) :
    Word.toLE 4 (htonl i).toNat = (Word.toLE 4 i.toNat).reverse := by
  have hlen : (Word.toLE 4 i.toNat).reverse.length = 4 := by simp
  have h := Word.toLE_ofLE (Word.toLE 4 i.toNat).reverse
  rw [hlen, ← Word.toLE_mod] at h
  rw [htonl, UInt32.toNat_ofNat']
  exact h

/-- `htonll` turns the bytes of a number round. -/
theorem toLE_htonll (i : UInt64) :
    Word.toLE 8 (htonll i).toNat = (Word.toLE 8 i.toNat).reverse := by
  have hlow : (htonl (i >>> 32).toUInt32).toNat < 2 ^ 32 :=
    UInt32.toNat_lt _
  have hhigh : (htonl i.toUInt32).toNat < 2 ^ 32 := UInt32.toNat_lt _
  have hval : (htonll i).toNat = (htonl i.toUInt32).toNat * 2 ^ 32 +
      (htonl (i >>> 32).toUInt32).toNat := by
    rw [htonll, UInt64.toNat_or, UInt64.toNat_shiftLeft, UInt32.toNat_toUInt64,
      UInt32.toNat_toUInt64, ← Nat.shiftLeft_eq, Nat.shiftLeft_add_eq_or_of_lt
        hlow]
    have hmod : (htonl i.toUInt32).toNat <<< ((32 : UInt64).toNat % 64) %
        2 ^ 64 = (htonl i.toUInt32).toNat <<< 32 := by
      refine Nat.mod_eq_of_lt ?_
      show (htonl i.toUInt32).toNat <<< 32 < 2 ^ 64
      rw [Nat.shiftLeft_eq]
      omega
    rw [hmod]
  have hparts : Word.toLE 8 i.toNat = Word.toLE 4 i.toUInt32.toNat ++
      Word.toLE 4 (i >>> 32).toUInt32.toNat := by
    rw [Word.toLE_append 4 4, ← Word.toLE_mod 4 i.toNat, ← Word.toLE_mod 4
      (i.toNat / _)]
    congr 2
    rw [UInt64.toNat_toUInt32, UInt64.toNat_shiftRight, Nat.shiftRight_eq_div_pow]
    rfl
  rw [hparts, List.reverse_append, ← toLE_htonl, ← toLE_htonl, hval,
    Word.toLE_append 4 4, ← Word.toLE_mod 4]
  congr 2
  · omega
  · omega

theorem htonll_htonll (i : UInt64) : htonll (htonll i) = i := by
  have h : Word.toLE 8 (htonll (htonll i)).toNat = Word.toLE 8 i.toNat := by
    rw [toLE_htonll, toLE_htonll, List.reverse_reverse]
  exact UInt64.toNat_inj.1 (Word.toLE_inj
    ((htonll (htonll i)).toNat_lt.trans_le (by decide))
    (i.toNat_lt.trans_le (by decide)) h)

theorem removeFixed64_append (i : UInt64) (rest : Bytes) :
    removeFixed64 ((Word.toLE 8 i.toNat).reverse ++ rest) = (i, rest) := by
  have hlen : (Word.toLE 8 (htonll i).toNat).length = 8 := Word.toLE_length 8 _
  rw [← toLE_htonll, removeFixed64, List.take_left' hlen, List.drop_left' hlen,
    Word.ofNat_ofLE_toLE, htonll_htonll]

/-! ## One key, one thing -/

theorem compare_uint64 (a b : UInt64) :
    compare a b = compare a.toNat b.toNat :=
  KeyOrder.compare_numbers UInt64.toNat_inj.1
    (fun h => Std.compare_eq_lt.2 (UInt64.lt_iff_toNat_lt.2 h)) a b

theorem compare_fixed64 (a b : UInt64) :
    compare (Word.toLE 8 a.toNat).reverse (Word.toLE 8 b.toNat).reverse =
      compare a b := by
  rw [KeyOrder.compare_word (a.toNat_lt.trans_le (by decide))
    (b.toNat_lt.trans_le (by decide)), compare_uint64]

/-- The tables come first. -/
theorem compare_table_append (t u : TableID) (as bs : Bytes) :
    compare (encodeMetaKey t ++ as) (encodeMetaKey u ++ bs) =
      (compareTable t u).then (compare as bs) := by
  rw [KeyOrder.compare_append (by rw [encodeMetaKey_length,
    encodeMetaKey_length]), encodeMetaKey_eq, encodeMetaKey_eq,
    List.compare_cons_cons, compare_fixed64, compareTable]

/-- What is behind the table. -/
def StoreKey.tail : StoreKey → Bytes
  | .storedField _ documentId => (Word.toLE 8 documentId.toNat).reverse
  | .inverted _ fieldId term =>
      fieldId :: term.take term.length.toUInt32.toNat
  | .tableMeta _ => []
  | .sequenceMeta _ => [0]
  | .sequenceMapping _ userId => 1 :: userId

theorem StoreKey.encode_eq (k : StoreKey) :
    k.encode = encodeMetaKey k.table ++ k.tail := by
  cases k with
  | storedField table documentId => rfl
  | inverted table fieldId term => exact encodeInvertedKey_cut table fieldId term
  | tableMeta table => exact (List.append_nil _).symm
  | sequenceMeta table => rfl
  | sequenceMapping table userId =>
      exact encodeSequenceMappingKey_eq table userId

theorem StoreKey.table_iff (t : TableID) (k : StoreKey) :
    encodeMetaKey t <+: k.encode ↔ k.table = t := by
  have hk : encodeMetaKey k.table <+: k.encode := ⟨k.tail, k.encode_eq.symm⟩
  constructor
  · exact fun ht => table_unique hk ht
  · rintro rfl
    exact hk

/-- In one table and one kind of column, what is behind the table tells. -/
theorem StoreKey.tail_inj {k k' : StoreKey} (hfit : k.Fits) (hfit' : k'.Fits)
    (hkind : k.kind = k'.kind) (htable : k.table = k'.table)
    (h : k.tail = k'.tail) : k = k' := by
  cases k with
  | storedField t d =>
      cases k' with
      | storedField u e =>
          obtain rfl : t = u := htable
          have hkey : encodeStoredFieldKey t d = encodeStoredFieldKey t e :=
            congrArg (encodeMetaKey t ++ ·) h
          rw [encodeStoredFieldKey_inj hkey]
      | inverted | tableMeta | sequenceMeta | sequenceMapping => cases hkind
  | inverted t f term =>
      cases k' with
      | inverted u g term' =>
          obtain rfl : t = u := htable
          have hkey : encodeInvertedKey t f term =
              encodeInvertedKey t g term' := by
            rw [encodeInvertedKey_cut, encodeInvertedKey_cut]
            exact congrArg (encodeMetaKey t ++ ·) h
          obtain ⟨rfl, rfl⟩ := encodeInvertedKey_inj hfit hfit' hkey
          rfl
      | storedField | tableMeta | sequenceMeta | sequenceMapping => cases hkind
  | tableMeta t =>
      cases k' with
      | tableMeta u => exact congrArg tableMeta htable
      | sequenceMeta | sequenceMapping => cases h
      | storedField | inverted => cases hkind
  | sequenceMeta t =>
      cases k' with
      | sequenceMeta u => exact congrArg sequenceMeta htable
      | tableMeta | sequenceMapping => cases h
      | storedField | inverted => cases hkind
  | sequenceMapping t userId =>
      cases k' with
      | sequenceMapping u userId' =>
          obtain rfl : t = u := htable
          exact congrArg (sequenceMapping t) (List.cons.inj h).2
      | tableMeta | sequenceMeta => cases h
      | storedField | inverted => cases hkind

theorem StoreKey.encode_inj {k k' : StoreKey} (hfit : k.Fits) (hfit' : k'.Fits)
    (hkind : k.kind = k'.kind) (h : k.encode = k'.encode) : k = k' := by
  have htable : k.table = k'.table :=
    (StoreKey.table_iff k'.table k).1 (h ▸ ⟨k'.tail, k'.encode_eq.symm⟩)
  rw [StoreKey.encode_eq, StoreKey.encode_eq, htable] at h
  exact StoreKey.tail_inj hfit hfit' hkind htable (List.append_cancel_left h)

theorem decodeInvertedKey_encode (t : TableID) (f : FieldID) {term : Bytes}
    (h : term.length < 2 ^ 32) : decodeInvertedKey (encodeInvertedKey t f term) =
      some (t.businessType, t.partitionSet, f, term) := by
  have hlen : ¬ (encodeMetaKey t ++ f :: term).length < 10 := by
    rw [List.length_append, encodeMetaKey_length, List.length_cons]
    omega
  rw [encodeInvertedKey_eq h, decodeInvertedKey, if_neg hlen, encodeMetaKey_eq,
    List.cons_append]
  simp only [removeFixed8, List.headD_cons, List.drop_succ_cons, List.drop_zero,
    removeFixed64_append]

/-- **The keys are injective, in order, and in their tables.** -/
theorem keys_faithful : FaithfulKeys where
  injective _ _ := StoreKey.encode_inj
  table_iff := StoreKey.table_iff
  decode t f _ := decodeInvertedKey_encode t f
  compare_storedField t u d e := by
    rw [encodeStoredFieldKey_eq, encodeStoredFieldKey_eq, compare_table_append,
      compare_fixed64]
  compare_inverted t u f g term term' h h' := by
    rw [encodeInvertedKey_eq h, encodeInvertedKey_eq h', compare_table_append,
      List.compare_cons_cons, Ordering.then_assoc]

end Wwsearch.Spec
