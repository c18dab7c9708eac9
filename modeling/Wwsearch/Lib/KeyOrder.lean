import Std.Data.ExtTreeMap.Lemmas
import Wwsearch.Lib.Bytes

/-!
# Keys in lexicographic order

Keys are lists over an ordered alphabet, compared one item after the other. A
prefix comes before everything that continues it, and the keys that continue it
follow it without a gap (`prefix_of_between`). So in a run of keys in order, from
the prefix on, those with the prefix come first, and a scan that stops at the
first other key has seen all of them (`takeWhile_prefix`).

Keys that are put together of parts are compared part by part as long as the
parts before the last have one length (`compare_append`), and the parts that
are words, with the high byte first, in the order of the numbers
(`compare_word`).
-/

namespace Wwsearch.Lib.KeyOrder

variable {α : Type} [Ord α]

theorem compare_append_append [Std.ReflOrd α] (p as bs : List α) :
    compare (p ++ as) (p ++ bs) = compare as bs := by
  induction p with
  | nil => rfl
  | cons a p ih =>
      rw [List.cons_append, List.cons_append, List.compare_cons_cons, ih,
        Std.compare_self]
      rfl

/-- Parts of one length come before what is behind them. -/
theorem compare_append {p q : List α} (h : p.length = q.length)
    (as bs : List α) : compare (p ++ as) (q ++ bs) =
      (compare p q).then (compare as bs) := by
  induction p generalizing q with
  | nil =>
      rw [List.length_nil] at h
      rw [List.length_eq_zero_iff.1 h.symm]
      rfl
  | cons a p ih =>
      cases q with
      | nil => exact absurd h (Nat.succ_ne_zero _)
      | cons b q =>
          rw [List.cons_append, List.cons_append, List.compare_cons_cons,
            List.compare_cons_cons, ih (Nat.succ.inj h), Ordering.then_assoc]

theorem compare_prefix_ne_gt [Std.ReflOrd α] (p as : List α) :
    compare p (p ++ as) ≠ .gt := by
  have h := compare_append_append p [] as
  rw [List.append_nil] at h
  rw [h]
  cases as with
  | nil => exact fun h => nomatch h
  | cons a as => exact fun h => nomatch h

/-! ## The ends of the alphabet -/

/-- A key of least letters comes before every key that is no shorter. -/
theorem compare_replicate_least {a : α} (ha : ∀ b, compare a b ≠ .gt) {n : Nat}
    {k : List α} (h : n ≤ k.length) : compare (List.replicate n a) k ≠ .gt := by
  induction n generalizing k with
  | zero => cases k <;> exact fun h => nomatch h
  | succ n ih =>
      cases k with
      | nil => exact absurd h (Nat.not_succ_le_zero n)
      | cons b k =>
          rw [List.replicate_succ, List.compare_cons_cons]
          intro hgt
          rcases Ordering.then_eq_gt.1 hgt with hab | ⟨-, hrest⟩
          · exact ha b hab
          · exact ih (Nat.le_of_succ_le_succ h) hrest

variable [Std.LawfulEqOrd α]

/-- What comes before a key of greatest letters is what does not continue
it. -/
theorem compare_replicate_greatest {a : α} (ha : ∀ b, compare b a ≠ .gt)
    (n : Nat) (k : List α) :
    compare k (List.replicate n a) = .lt ↔ ¬ List.replicate n a <+: k := by
  induction n generalizing k with
  | zero =>
      refine iff_of_false ?_ (not_not_intro List.nil_prefix)
      cases k <;> exact fun h => nomatch h
  | succ n ih =>
      cases k with
      | nil => exact iff_of_true rfl (by simp)
      | cons b k =>
          rw [List.replicate_succ, List.compare_cons_cons,
            List.cons_prefix_cons, not_and]
          cases h : compare b a with
          | lt =>
              refine iff_of_true rfl fun heq => ?_
              rw [heq, Std.compare_self] at h
              exact nomatch h
          | eq =>
              obtain rfl := Std.LawfulEqOrd.eq_of_compare h
              rw [imp_iff_right rfl]
              exact ih k
          | gt => exact absurd h (ha b)

variable [Std.TransOrd α]

/-! ## Prefixes in order -/

/-- What lies between a prefix and a key that has it has it too. -/
theorem prefix_of_between {p k k' : List α} (hk' : p <+: k')
    (hp : compare p k ≠ .gt) (hk : compare k k' ≠ .gt) : p <+: k := by
  induction p generalizing k k' with
  | nil => exact List.nil_prefix
  | cons a p ih =>
      cases k with
      | nil => exact absurd rfl hp
      | cons b k =>
          obtain ⟨r, rfl⟩ := hk'
          rw [List.cons_append] at hk
          rw [List.compare_cons_cons] at hp hk
          have hab : compare a b ≠ .gt := fun h => hp (by rw [h]; rfl)
          have hba : compare b a ≠ .gt := fun h => hk (by rw [h]; rfl)
          have heq : compare a b = .eq := by
            rw [Std.OrientedOrd.eq_swap (a := b)] at hba
            cases h : compare a b with
            | lt => rw [h] at hba; exact absurd rfl hba
            | eq => rfl
            | gt => exact absurd h hab
          obtain rfl := Std.LawfulEqOrd.eq_of_compare heq
          rw [Std.compare_self, Ordering.eq_then] at hp hk
          obtain ⟨s, hs⟩ := ih (List.prefix_append p r) hp hk
          exact ⟨s, by rw [List.cons_append, hs]⟩

/-- In a run of keys from the prefix on, those with the prefix come first. -/
theorem takeWhile_prefix [BEq α] [LawfulBEq α] {β : Type} {p : List α}
    {l : List (List α × β)}
    (hsorted : l.Pairwise fun x y => compare x.1 y.1 = .lt)
    (hfrom : ∀ x ∈ l, compare p x.1 ≠ .gt) :
    l.takeWhile (fun x => p.isPrefixOf x.1) =
      l.filter fun x => p.isPrefixOf x.1 := by
  induction l with
  | nil => rfl
  | cons x l ih =>
      obtain ⟨hx, hsorted⟩ := List.pairwise_cons.1 hsorted
      have hrest := ih hsorted fun y hy => hfrom y (List.mem_cons_of_mem x hy)
      rw [List.takeWhile_cons, List.filter_cons]
      split
      · rw [hrest]
      · next hno =>
          -- nothing behind a key without the prefix has it
          refine (List.filter_eq_nil_iff.2 fun y hy hyes => hno ?_).symm
          rw [List.isPrefixOf_iff_prefix] at hyes ⊢
          refine prefix_of_between hyes (hfrom x List.mem_cons_self) ?_
          rw [hx y hy]
          exact fun h => nomatch h

/-! ## Words as keys -/

/-- The order of two numbers is that of their high parts, then of their low
ones. -/
theorem compare_div_mod (m v w : Nat) (hm : 0 < m) : compare v w =
    (compare (v / m) (w / m)).then (compare (v % m) (w % m)) := by
  have hv := Nat.div_add_mod v m
  have hw := Nat.div_add_mod w m
  have hvm := Nat.mod_lt v hm
  have hwm := Nat.mod_lt w hm
  rcases Nat.lt_trichotomy (v / m) (w / m) with hlt | heq | hgt
  · have hmul := Nat.mul_le_mul_left m (Nat.succ_le_of_lt hlt)
    rw [Nat.mul_succ] at hmul
    rw [Nat.compare_eq_lt.2 hlt, Nat.compare_eq_lt.2 (by omega)]
    rfl
  · rw [Nat.compare_eq_eq.2 heq, Ordering.eq_then]
    rw [heq] at hv
    rcases Nat.lt_trichotomy (v % m) (w % m) with hlt | heq' | hgt
    · rw [Nat.compare_eq_lt.2 hlt, Nat.compare_eq_lt.2 (by omega)]
    · rw [Nat.compare_eq_eq.2 heq', Nat.compare_eq_eq.2 (by omega)]
    · rw [Nat.compare_eq_gt.2 hgt, Nat.compare_eq_gt.2 (by omega)]
  · have hmul := Nat.mul_le_mul_left m (Nat.succ_le_of_lt hgt)
    rw [Nat.mul_succ] at hmul
    rw [Nat.compare_eq_gt.2 hgt, Nat.compare_eq_gt.2 (by omega)]
    rfl

/-- Things that are in the order of their numbers compare as these do. -/
theorem compare_numbers {β : Type} [Ord β] [Std.OrientedOrd β] {number : β → Nat}
    (hinj : ∀ {a b}, number a = number b → a = b)
    (hlt : ∀ {a b}, number a < number b → compare a b = .lt) (a b : β) :
    compare a b = compare (number a) (number b) := by
  rcases Nat.lt_trichotomy (number a) (number b) with h | h | h
  · rw [Nat.compare_eq_lt.2 h]
    exact hlt h
  · rw [hinj h, Std.compare_self, Std.compare_self]
  · rw [Nat.compare_eq_gt.2 h, Std.OrientedOrd.eq_swap, hlt h]
    rfl

theorem compare_uint8 (a b : UInt8) :
    compare a b = compare a.toNat b.toNat :=
  compare_numbers UInt8.toNat_inj.1
    (fun h => Std.compare_eq_lt.2 (UInt8.lt_iff_toNat_lt.2 h)) a b

/-- Words with the high byte first are in the order of their numbers. -/
theorem compare_word {n v w : Nat} (hv : v < 256 ^ n) (hw : w < 256 ^ n) :
    compare (Word.toLE n v).reverse (Word.toLE n w).reverse = compare v w := by
  induction n generalizing v w with
  | zero =>
      rw [Nat.pow_zero, Nat.lt_one_iff] at hv hw
      rw [hv, hw]
      rfl
  | succ n ih =>
      rw [Nat.pow_succ, Nat.mul_comm] at hv hw
      have hlast : compare [UInt8.ofNat v] [UInt8.ofNat w] =
          compare (v % 256) (w % 256) := by
        rw [List.compare_cons_cons, compare_uint8, UInt8.toNat_ofNat',
          UInt8.toNat_ofNat']
        cases compare (v % 2 ^ 8) (w % 2 ^ 8) <;> rfl
      rw [Word.toLE, Word.toLE, List.reverse_cons, List.reverse_cons,
        compare_append (by simp), ih (Nat.div_lt_of_lt_mul hv)
          (Nat.div_lt_of_lt_mul hw), hlast, ← compare_div_mod 256 v w (by decide)]

end Wwsearch.Lib.KeyOrder
