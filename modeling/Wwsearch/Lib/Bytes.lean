import Mathlib.Tactic.Ring
import Mathlib.Order.Defs.LinearOrder

/-!
# Byte strings: fixed-width words and base-128 varints

The two number formats every on-disk layout below is made of. A word is its
bytes in little-endian order, `n` of them; a varint is seven payload bits a
byte, low group first, with the top bit set on every byte but the last. Both
are stated over `Nat`, so that the width lives in one place: in the length for
a word, in the number of groups for a varint.

`ofLE_toLE` and `decode_encode` are the round trips. The second one carries
the bytes that follow, because a reader never sees one varint alone.
-/

namespace Wwsearch.Lib

abbrev Bytes := List UInt8

instance linearOrderUInt64 : LinearOrder UInt64 where
  le_refl := UInt64.le_refl
  le_trans := fun _ _ _ => UInt64.le_trans
  le_antisymm := fun _ _ => UInt64.le_antisymm
  le_total := UInt64.le_total
  lt_iff_le_not_ge := by
    intro a b
    rw [UInt64.lt_iff_toNat_lt, UInt64.le_iff_toNat_le, UInt64.le_iff_toNat_le]
    omega
  toDecidableLE := inferInstance
  toDecidableLT := inferInstance

namespace Word

/-- The low `n` bytes of `v`, least significant first. -/
def toLE : Nat → Nat → Bytes
  | 0, _ => []
  | n + 1, v => UInt8.ofNat v :: toLE n (v / 256)

/-- The number a little-endian byte string stands for. -/
def ofLE : Bytes → Nat
  | [] => 0
  | b :: rest => b.toNat + 256 * ofLE rest

@[simp] theorem toLE_length (n v : Nat) : (toLE n v).length = n := by
  induction n generalizing v with
  | zero => rfl
  | succ n ih => rw [toLE, List.length_cons, ih]

theorem ofLE_toLE (n v : Nat) : ofLE (toLE n v) = v % 256 ^ n := by
  induction n generalizing v with
  | zero => rw [toLE, ofLE, Nat.pow_zero, Nat.mod_one]
  | succ n ih =>
      have hb : (UInt8.ofNat v).toNat = v % 256 := UInt8.toNat_ofNat'
      rw [toLE, ofLE, ih, hb, Nat.pow_succ', Nat.mod_mul]

theorem ofLE_toLE_of_lt {n v : Nat} (h : v < 256 ^ n) : ofLE (toLE n v) = v := by
  rw [ofLE_toLE, Nat.mod_eq_of_lt h]

/-- A word of eight bytes is read as it was written. -/
theorem ofNat_ofLE_toLE (v : UInt64) :
    UInt64.ofNat (ofLE (toLE 8 v.toNat)) = v := by
  rw [ofLE_toLE_of_lt (v.toNat_lt.trans_le (by decide)), UInt64.ofNat_toNat]

theorem toLE_inj {n v w : Nat} (hv : v < 256 ^ n) (hw : w < 256 ^ n)
    (h : toLE n v = toLE n w) : v = w := by
  rw [← ofLE_toLE_of_lt hv, ← ofLE_toLE_of_lt hw, h]

theorem toLE_append (m n v : Nat) :
    toLE (m + n) v = toLE m v ++ toLE n (v / 256 ^ m) := by
  induction m generalizing v with
  | zero => rw [Nat.zero_add, Nat.pow_zero, Nat.div_one]; rfl
  | succ m ih =>
      rw [Nat.succ_add, toLE, toLE, ih, Nat.div_div_eq_div_mul,
        ← Nat.pow_succ', List.cons_append]

theorem toLE_mod (n v : Nat) : toLE n (v % 256 ^ n) = toLE n v := by
  induction n generalizing v with
  | zero => rfl
  | succ n ih =>
      have hlow : UInt8.ofNat (v % 256 ^ (n + 1)) = UInt8.ofNat v := by
        rw [← UInt8.toNat_inj, UInt8.toNat_ofNat', UInt8.toNat_ofNat']
        exact Nat.mod_mod_of_dvd v (Dvd.intro_left (256 ^ n) rfl)
      rw [toLE, toLE, hlow, Nat.pow_succ', Nat.mod_mul_right_div_self, ih]

theorem toLE_ofLE (bytes : Bytes) : toLE bytes.length (ofLE bytes) = bytes := by
  induction bytes with
  | nil => rfl
  | cons b rest ih =>
      have hb := b.toNat_lt
      have hlow : UInt8.ofNat (b.toNat + 256 * ofLE rest) = b := by
        rw [← UInt8.toNat_inj, UInt8.toNat_ofNat']
        omega
      have hhigh : (b.toNat + 256 * ofLE rest) / 256 = ofLE rest := by omega
      rw [List.length_cons, ofLE, toLE, hlow, hhigh, ih]

end Word

namespace Varint

/-- The groups of `v`, at most `k + 1` of them. -/
def encode : Nat → Nat → Bytes
  | 0, v => [UInt8.ofNat v]
  | k + 1, v =>
      if v < 128 then [UInt8.ofNat v]
      else UInt8.ofNat (v % 128 + 128) :: encode k (v / 128)

/-- Read one varint of at most `k` groups, the next one weighing `2 ^ s`. -/
def decode : Nat → Nat → Nat → Bytes → Option (Nat × Bytes)
  | 0, _, _, _ => none
  | _ + 1, _, _, [] => none
  | k + 1, s, acc, b :: rest =>
      if 128 ≤ b.toNat then decode k (s + 7) (acc + b.toNat % 128 * 2 ^ s) rest
      else some (acc + b.toNat * 2 ^ s, rest)

theorem encode_ne_nil (k v : Nat) : encode k v ≠ [] := by
  cases k with
  | zero => rw [encode]; exact List.cons_ne_nil _ _
  | succ k => rw [encode]; split <;> exact List.cons_ne_nil _ _

theorem encode_length_le (k v : Nat) : (encode k v).length ≤ k + 1 := by
  induction k generalizing v with
  | zero => rw [encode]; exact Nat.le_refl _
  | succ k ih =>
      rw [encode]
      split
      · simp
      · have := ih (v / 128)
        rw [List.length_cons]
        omega

theorem encode_length_mono (k : Nat) {v w : Nat} (h : v ≤ w) :
    (encode k v).length ≤ (encode k w).length := by
  induction k generalizing v w with
  | zero => rfl
  | succ k ih =>
      have hpos := List.length_pos_iff.2 (encode_ne_nil (k + 1) w)
      rw [encode]
      split
      · exact hpos
      · next hv =>
          rw [encode, if_neg (by omega), List.length_cons, List.length_cons]
          exact Nat.succ_le_succ (ih (Nat.div_le_div_right h))

/-- Groups only add to the number read so far. -/
theorem le_of_decode {k s acc v : Nat} {input rest : Bytes}
    (h : decode k s acc input = some (v, rest)) : acc ≤ v := by
  induction k generalizing s acc input with
  | zero => cases h
  | succ k ih =>
      cases input with
      | nil => cases h
      | cons b input =>
          rw [decode] at h
          split at h
          · exact (Nat.le_add_right _ _).trans (ih h)
          · cases h
            exact Nat.le_add_right _ _

theorem decode_encode (k : Nat) : ∀ (v s acc : Nat) (rest : Bytes),
    v < 128 ^ (k + 1) →
    decode (k + 1) s acc (encode k v ++ rest) = some (acc + v * 2 ^ s, rest) := by
  induction k with
  | zero =>
      intro v s acc rest hv
      have hb : (UInt8.ofNat v).toNat = v := by
        rw [UInt8.toNat_ofNat', Nat.mod_eq_of_lt (by omega)]
      rw [encode, List.singleton_append, decode, hb, if_neg (by omega)]
  | succ k ih =>
      intro v s acc rest hv
      rw [encode]
      split
      · next hlt =>
          have hb : (UInt8.ofNat v).toNat = v := by
            rw [UInt8.toNat_ofNat', Nat.mod_eq_of_lt (by omega)]
          rw [List.singleton_append, decode, hb, if_neg (by omega)]
      · next hge =>
          have hb : (UInt8.ofNat (v % 128 + 128)).toNat = v % 128 + 128 := by
            rw [UInt8.toNat_ofNat', Nat.mod_eq_of_lt (by omega)]
          have hlow : (v % 128 + 128) % 128 = v % 128 := by omega
          rw [List.cons_append, decode, hb, if_pos (by omega), hlow,
            ih _ _ _ _ (by rw [Nat.pow_succ] at hv; omega)]
          have hsplit : v % 128 * 2 ^ s + v / 128 * 2 ^ (s + 7) = v * 2 ^ s := by
            rw [Nat.pow_add, show v / 128 * (2 ^ s * 2 ^ 7) =
              128 * (v / 128) * 2 ^ s by ring, ← Nat.add_mul, Nat.mod_add_div]
          rw [Nat.add_assoc, hsplit]

end Varint

end Wwsearch.Lib
