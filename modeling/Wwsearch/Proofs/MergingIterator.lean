import Wwsearch.Spec.MergingIterator

/-!
# An iterator over the union

Where a merging iterator stands every child is on the first of its entries that
are not before that place, in the direction of the last move (`StandsAhead`). A
move puts every child on the first of its entries that the call looks for
(`Prepared`), and then the best of the children is the first of all that it
looks for (`settled`). So a run of calls goes where a run over the union goes
(`merging_run_iff`), and where no two maps have a key in common, nobody can tell
it from an iterator over one map with all the entries
(`union_iterator_agrees`).
-/

namespace Wwsearch.Spec

open Wwsearch.Lib Wwsearch.Ref

variable {κ ν : Type} [LinearOrder κ] {n : Nat}

/-! ## The best of the children -/

theorem placeOf_eq_some {children : Fin n → OrderedIterator κ ν} {i : Fin n}
    {p : Place κ n} :
    placeOf children i = some p ↔
      (children i).key = some (ofLex p).1 ∧ (ofLex p).2 = i := by
  rw [placeOf, Option.map_eq_some_iff]
  constructor
  · rintro ⟨k, hk, rfl⟩
    exact ⟨hk, rfl⟩
  · rintro ⟨hk, rfl⟩
    exact ⟨_, hk, rfl⟩

/-- The loop finds the best of the children it goes through, if its comparison
tells two children apart as the order of their places does. -/
theorem findChild_best {r : Place κ n → Place κ n → Prop} [Std.Total r]
    [Std.Refl r] [IsTrans (Place κ n) r] {better : κ → κ → Bool}
    {before : Fin n → Fin n → Prop}
    (hbetter : ∀ {i j : Fin n} (a b : κ), before j i →
      (better a b = true ↔ ¬ r (toLex (b, j)) (toLex (a, i))))
    {children : Fin n → OrderedIterator κ ν} :
    ∀ {l : List (Fin n)} {found : Option (Fin n)} {done : Set (Place κ n)},
    l.Pairwise before → (∀ j, found = some j → ∀ i ∈ l, before j i) →
    (∀ j, found = some j → (placeOf children j).isSome) →
    Best r done (found.bind (placeOf children)) →
    Best r { p | p ∈ done ∨ ∃ i ∈ l, placeOf children i = some p }
      ((MergingIterator.findChild better children l found).bind
        (placeOf children)) := by
  intro l
  induction l with
  | nil =>
      intro found done _ _ _ hbest
      exact hbest.congr fun p => by simp
  | cons i rest ih =>
      intro found done hl hfound hsome hbest
      obtain ⟨hi, hrest⟩ := List.pairwise_cons.1 hl
      rw [MergingIterator.findChild]
      cases hkey : (children i).key with
      | none =>
          have hnone : placeOf children i = none := by rw [placeOf, hkey]; rfl
          refine (ih hrest (fun j hj i hi => hfound j hj i
            (List.mem_cons_of_mem _ hi)) hsome hbest).congr fun p => ?_
          simp [hnone]
      | some a =>
          have hplace : placeOf children i = some (toLex (a, i)) := by
            rw [placeOf, hkey]
            rfl
          -- the set with the place of this child
          have hset : ∀ p, (p ∈ insert (toLex (a, i)) done ∨ ∃ i ∈ rest,
              placeOf children i = some p) ↔ (p ∈ done ∨ ∃ j ∈ i :: rest,
                placeOf children j = some p) := by
            intro p
            simp [hplace, or_assoc, or_left_comm, eq_comm]
          have hbefore : ∀ j, some i = some j → ∀ i' ∈ rest, before j i' :=
            fun j hj => Option.some.inj hj ▸ hi
          have hisSome : ∀ j, some i = some j →
              (placeOf children j).isSome := by
            intro j hj
            rw [← Option.some.inj hj, hplace]
            rfl
          cases found with
          | none =>
              refine (ih hrest hbefore hisSome ?_).congr hset
              rw [Option.bind_some, hplace]
              exact Best.insert_none hbest _
          | some j =>
              obtain ⟨q, hq⟩ := Option.isSome_iff_exists.1 (hsome j rfl)
              obtain ⟨hb, rfl⟩ := placeOf_eq_some.1 hq
              rw [Option.bind_some, hq] at hbest
              rw [Option.bind_some, hb]
              dsimp only
              have hiff := hbetter a (ofLex q).1 (hfound _ rfl i List.mem_cons_self)
              cases hcmp : better a (ofLex q).1 with
              | true =>
                  have hno := hiff.1 hcmp
                  rw [if_pos rfl]
                  refine (ih hrest hbefore hisSome ?_).congr hset
                  rw [Option.bind_some, hplace]
                  exact hbest.insert_better
                    ((Std.Total.total _ _).resolve_left hno)
              | false =>
                  have hyes : r q (toLex (a, i)) := by
                    by_contra hno
                    rw [hiff.2 hno] at hcmp
                    cases hcmp
                  rw [if_neg (by decide)]
                  refine (ih hrest (fun j hj i hi => hfound j hj i
                    (List.mem_cons_of_mem _ hi)) hsome ?_).congr hset
                  rw [Option.bind_some, hq]
                  exact hbest.insert_worse hyes

theorem findChild_all {r : Place κ n → Place κ n → Prop} [Std.Total r]
    [Std.Refl r] [IsTrans (Place κ n) r] {better : κ → κ → Bool}
    {before : Fin n → Fin n → Prop}
    (hbetter : ∀ {i j : Fin n} (a b : κ), before j i →
      (better a b = true ↔ ¬ r (toLex (b, j)) (toLex (a, i))))
    (children : Fin n → OrderedIterator κ ν) {l : List (Fin n)}
    (hl : l.Pairwise before) (hmem : ∀ i, i ∈ l) :
    Best r { p | ∃ i, placeOf children i = some p }
      ((MergingIterator.findChild better children l none).bind
        (placeOf children)) := by
  have hempty : Best r (∅ : Set (Place κ n))
    ((none : Option (Fin n)).bind (placeOf children)) := fun p hp => hp
  refine (findChild_best hbetter hl (by simp) (by simp) hempty).congr
    fun p => ?_
  simp [hmem]

theorem findSmallest_best (children : Fin n → OrderedIterator κ ν) :
    Best (· ≤ ·) { p | ∃ i, placeOf children i = some p }
      ((MergingIterator.findSmallest children).bind (placeOf children)) := by
  refine findChild_all (fun {i j} a b hji => ?_) children
    (List.pairwise_lt_finRange n) List.mem_finRange
  rw [Prod.Lex.toLex_le_toLex, decide_eq_true_eq, not_or, not_and, not_lt]
  exact ⟨fun h => ⟨h.le, fun heq => absurd heq h.ne'⟩, fun h =>
    lt_of_le_of_ne h.1 fun heq => h.2 heq.symm hji.le⟩

theorem findLargest_best (children : Fin n → OrderedIterator κ ν) :
    Best (· ≥ ·) { p | ∃ i, placeOf children i = some p }
      ((MergingIterator.findLargest children).bind (placeOf children)) := by
  refine findChild_all (fun {i j} a b hij => ?_) children
    (List.pairwise_reverse.2 (List.pairwise_lt_finRange n))
    fun i => List.mem_reverse.2 (List.mem_finRange i)
  rw [ge_iff_le, Prod.Lex.toLex_le_toLex, decide_eq_true_eq, not_or, not_and,
    not_lt]
  exact ⟨fun h => ⟨h.le, fun heq => absurd heq h.ne'⟩, fun h =>
    lt_of_le_of_ne h.1 fun heq => h.2 heq.symm hij.le⟩

/-! ## A move -/

theorem ahead_trans {d : IteratorDirection} {p q r : Place κ n}
    (h : ahead d p q) (h' : ahead d q r) : ahead d p r := by
  cases d with
  | forward => exact le_trans (α := Place κ n) h h'
  | reverse => exact le_trans (α := Place κ n) h' h

theorem ahead_of_key {d : IteratorDirection} {a b : κ} {i : Fin n}
    (h : aheadKey d a b) : ahead d (toLex (a, i)) (toLex (b, i)) := by
  cases d with
  | forward => exact Prod.Lex.toLex_le_toLex.2 ((lt_or_eq_of_le h).imp_right
      fun heq => ⟨heq, le_rfl⟩)
  | reverse => exact Prod.Lex.toLex_le_toLex.2 ((lt_or_eq_of_le h).imp_right
      fun heq => ⟨heq, le_rfl⟩)

/-- The end of every move. -/
def seekIn (d : IteratorDirection) (children : Fin n → OrderedIterator κ ν) :
    MergingIterator κ ν n :=
  match d with
  | .forward => MergingIterator.seekForward children
  | .reverse => MergingIterator.seekReverse children

theorem seekIn_children (d : IteratorDirection)
    (children : Fin n → OrderedIterator κ ν) :
    (seekIn d children).children = children := by
  cases d <;> rfl

theorem seekIn_direction (d : IteratorDirection)
    (children : Fin n → OrderedIterator κ ν) :
    (seekIn d children).direction = d := by
  cases d <;> rfl

theorem seekIn_best (d : IteratorDirection)
    (children : Fin n → OrderedIterator κ ν) :
    Best (ahead d) { p | ∃ i, placeOf children i = some p }
      (stateOf (seekIn d children)).place := by
  cases d with
  | forward => exact findSmallest_best children
  | reverse => exact findLargest_best children

/-- Every child is on the first of its entries that are not before the place of
the iterator. -/
def StandsAhead (it : MergingIterator κ ν n) : Prop :=
  ∀ p, (stateOf it).place = some p → ∀ i,
    Best (aheadKey it.direction) { k | k ∈ (it.children i).keys ∧
      ahead it.direction p (toLex (k, i)) } (it.children i).key

/-- Where every child is on the first of what is looked for in it, the iterator
is on the first of what is looked for. -/
theorem settled {d : IteratorDirection}
    (children : Fin n → OrderedIterator κ ν) {U : Set (Place κ n)}
    (hparts : ∀ i, Best (aheadKey d) { k | k ∈ (children i).keys ∧
      toLex (k, i) ∈ U } (children i).key)
    (hclosed : ∀ p ∈ U, ∀ q, ahead d p q → q ∈ U) :
    Best (ahead d) (places children ∩ U) (stateOf (seekIn d children)).place ∧
      StandsAhead (seekIn d children) := by
  have hbest := seekIn_best d children
  have hchild : ∀ q ∈ places children ∩ U, ∃ p, ahead d p q ∧
      placeOf children (ofLex q).2 = some p := by
    rintro q ⟨hq, hU⟩
    have hpart := hparts (ofLex q).2
    cases hkey : (children (ofLex q).2).key with
    | none =>
        rw [hkey] at hpart
        exact absurd ⟨hq, hU⟩ (hpart (ofLex q).1)
    | some k =>
        rw [hkey] at hpart
        refine ⟨toLex (k, (ofLex q).2), ahead_of_key (hpart.2 _ ⟨hq, hU⟩), ?_⟩
        rw [placeOf, hkey]
        rfl
  have hfirst : Best (ahead d) (places children ∩ U)
      (stateOf (seekIn d children)).place := by
    cases hplace : (stateOf (seekIn d children)).place with
    | none =>
        rw [hplace] at hbest
        intro q hq
        obtain ⟨p, -, hp⟩ := hchild q hq
        exact hbest p ⟨_, hp⟩
    | some p =>
        rw [hplace] at hbest
        obtain ⟨⟨i, hi⟩, hall⟩ := hbest
        obtain ⟨hkey, rfl⟩ := placeOf_eq_some.1 hi
        refine ⟨(hparts _).mem _ hkey, fun q hq => ?_⟩
        obtain ⟨p', hpq, hp'⟩ := hchild q hq
        exact ahead_trans (hall p' ⟨_, hp'⟩) hpq
  refine ⟨hfirst, fun p hp i => ?_⟩
  rw [hp] at hfirst
  rw [seekIn_children, seekIn_direction]
  refine (hparts i).congr fun k => and_congr_right fun hk => ?_
  exact ⟨fun hU => hfirst.2 _ ⟨hk, hU⟩, hclosed p hfirst.1.2 _⟩

/-! ## The parts of a move -/

section Parts

variable {child : OrderedIterator κ ν} {key : κ}

theorem keys_congr {child' : OrderedIterator κ ν}
    (h : child'.entries = child.entries) : child'.keys = child.keys := by
  rw [OrderedIterator.keys, OrderedIterator.keys, h]

theorem places_congr {children children' : Fin n → OrderedIterator κ ν}
    (h : ∀ i, (children i).entries = (children' i).entries) :
    places children = places children' := by
  ext p
  rw [places, places, Set.mem_ofPred_eq, Set.mem_ofPred_eq, keys_congr (h _)]

theorem entries_putAfter :
    (MergingIterator.putAfter child key).entries = child.entries := by
  simp only [MergingIterator.putAfter]
  split
  · exact OrderedIterator.entries_next _
  · rfl

theorem entries_putBefore :
    (MergingIterator.putBefore child key).entries = child.entries := by
  simp only [MergingIterator.putBefore]
  split
  · exact OrderedIterator.entries_prev _
  · rfl

theorem putAfter_best : Best (· ≤ ·) { k ∈ child.keys | key < k }
    (MergingIterator.putAfter child key).key := by
  have hseek := child.seek_best key
  simp only [MergingIterator.putAfter]
  split
  · next hkey => exact OrderedIterator.next_best hkey
  · next hkey =>
      refine hseek.congr fun k => and_congr_right fun hk =>
        ⟨fun hle => lt_of_le_of_ne hle fun heq => hkey ?_, le_of_lt⟩
      subst heq
      exact hseek.unique ⟨⟨hk, le_rfl⟩, fun b hb => hb.2⟩

theorem putBefore_best : Best (· ≥ ·) { k ∈ child.keys | k < key }
    (MergingIterator.putBefore child key).key := by
  have hseek := child.seek_best key
  simp only [MergingIterator.putBefore]
  split
  · next hvalid =>
      obtain ⟨k₀, hk₀⟩ := OrderedIterator.valid_iff.1 hvalid
      rw [hk₀] at hseek
      refine (OrderedIterator.prev_best hk₀).congr fun k =>
        and_congr_right fun hk => ⟨fun hlt => ?_, fun hlt =>
          lt_of_lt_of_le hlt hseek.1.2⟩
      -- nothing from the key on comes before the entry found
      by_contra hle
      exact absurd (hseek.2 k ⟨hk, not_lt.1 hle⟩) (not_le.2 hlt)
  · next hvalid =>
      have hnone : (child.seek key).key = none := by
        rw [Option.eq_none_iff_forall_ne_some]
        exact fun k hk => hvalid (OrderedIterator.valid_iff.2 ⟨k, hk⟩)
      rw [hnone] at hseek
      refine OrderedIterator.seekToLast_best.congr fun k =>
        ⟨fun hk => ⟨hk, ?_⟩, fun hk => hk.1⟩
      exact not_le.1 fun hle => hseek k ⟨hk, hle⟩

end Parts

/-- The children as a move leaves them: their maps are what they were, and each
child is on the first of its entries that the call looks for. -/
structure Prepared (it : MergingIterator κ ν n) (d : IteratorDirection)
    (U : Set (Place κ n)) (children : Fin n → OrderedIterator κ ν) : Prop where
  entries : ∀ i, (children i).entries = (it.children i).entries
  best : ∀ i, Best (aheadKey d) { k | k ∈ (it.children i).keys ∧
    toLex (k, i) ∈ U } (children i).key

/-- The children from which a call shows the best. -/
def preparedChildren (it : MergingIterator κ ν n) (key : κ) (current : Fin n) :
    IteratorDirection → Fin n → OrderedIterator κ ν
  | .forward, i =>
      if i = current then (it.children i).next
      else
        match it.direction with
        | .forward => it.children i
        | .reverse => MergingIterator.putAfter (it.children i) key
  | .reverse, i =>
      if i = current then (it.children i).prev
      else
        match it.direction with
        | .reverse => it.children i
        | .forward => MergingIterator.putBefore (it.children i) key

section Steps

variable {it : MergingIterator κ ν n}

theorem stateOf_place {p : Place κ n} :
    (stateOf it).place = some p ↔
      it.current = some (ofLex p).2 ∧
        (it.children (ofLex p).2).key = some (ofLex p).1 := by
  rw [stateOf, Option.bind_eq_some_iff]
  constructor
  · rintro ⟨i, hi, hp⟩
    obtain ⟨hkey, rfl⟩ := placeOf_eq_some.1 hp
    exact ⟨hi, hkey⟩
  · rintro ⟨hi, hkey⟩
    exact ⟨_, hi, placeOf_eq_some.2 ⟨hkey, rfl⟩⟩

theorem next_of_place {p : Place κ n} (hp : (stateOf it).place = some p) :
    it.next = some (seekIn .forward
      (preparedChildren it (ofLex p).1 (ofLex p).2 .forward)) := by
  obtain ⟨hcurrent, hkey⟩ := stateOf_place.1 hp
  rw [MergingIterator.next, hcurrent, Option.bind_eq_bind, Option.bind_some,
    hkey]
  rfl

theorem prev_of_place {p : Place κ n} (hp : (stateOf it).place = some p) :
    it.prev = some (seekIn .reverse
      (preparedChildren it (ofLex p).1 (ofLex p).2 .reverse)) := by
  obtain ⟨hcurrent, hkey⟩ := stateOf_place.1 hp
  rw [MergingIterator.prev, hcurrent, Option.bind_eq_bind, Option.bind_some,
    hkey]
  rfl

theorem lt_place_iff {k : κ} {i : Fin n} {p : Place κ n} (hi : (ofLex p).2 ≠ i) :
    p < toLex (k, i) ↔ p ≤ toLex (k, i) :=
  ⟨le_of_lt, fun hle => lt_of_le_of_ne hle fun heq => hi (by rw [heq]; rfl)⟩

theorem place_lt_iff {k : κ} {i : Fin n} {p : Place κ n} (hi : (ofLex p).2 ≠ i) :
    toLex (k, i) < p ↔ toLex (k, i) ≤ p :=
  ⟨le_of_lt, fun hle => lt_of_le_of_ne hle fun heq => hi (by rw [← heq]; rfl)⟩

theorem lt_same_iff {a b : κ} {i : Fin n} :
    (toLex (a, i) : Place κ n) < toLex (b, i) ↔ a < b := by
  rw [Prod.Lex.toLex_lt_toLex]
  exact ⟨fun h => h.elim id fun h => absurd h.2 (lt_irrefl i), Or.inl⟩

theorem prepared_next (h : StandsAhead it) {p : Place κ n}
    (hp : (stateOf it).place = some p) :
    Prepared it .forward (behind (it.direction ≠ .forward) .forward p)
      (preparedChildren it (ofLex p).1 (ofLex p).2 .forward) := by
  have hkey := (stateOf_place.1 hp).2
  have hchild := h p hp
  refine ⟨fun i => ?_, fun i => ?_⟩
  · rw [preparedChildren]
    split
    · exact OrderedIterator.entries_next _
    · split
      · rfl
      · exact entries_putAfter
  · rw [preparedChildren]
    split
    · next hi =>
        subst hi
        refine (OrderedIterator.next_best hkey).congr fun k =>
          and_congr_right fun _ => ?_
        by_cases hturn : it.direction ≠ .forward
        · simp [behind, hturn]
        · simp only [behind, hturn, decide_false]
          exact (lt_same_iff (i := (ofLex p).2)).symm
    · next hi =>
        split
        · next hd =>
            have hthis := hchild i
            rw [hd] at hthis
            refine hthis.congr fun k => and_congr_right fun _ => ?_
            simp only [behind, hd]
            exact (lt_place_iff (Ne.symm hi)).symm
        · next hd =>
            refine putAfter_best.congr fun k => and_congr_right fun _ => ?_
            simp [behind, hd]

theorem prepared_prev (h : StandsAhead it) {p : Place κ n}
    (hp : (stateOf it).place = some p) :
    Prepared it .reverse (behind (it.direction ≠ .reverse) .reverse p)
      (preparedChildren it (ofLex p).1 (ofLex p).2 .reverse) := by
  have hkey := (stateOf_place.1 hp).2
  have hchild := h p hp
  refine ⟨fun i => ?_, fun i => ?_⟩
  · rw [preparedChildren]
    split
    · exact OrderedIterator.entries_prev _
    · split
      · rfl
      · exact entries_putBefore
  · rw [preparedChildren]
    split
    · next hi =>
        subst hi
        refine (OrderedIterator.prev_best hkey).congr fun k =>
          and_congr_right fun _ => ?_
        by_cases hturn : it.direction ≠ .reverse
        · simp [behind, hturn]
        · simp only [behind, hturn, decide_false]
          exact (lt_same_iff (i := (ofLex p).2)).symm
    · next hi =>
        split
        · next hd =>
            have hthis := hchild i
            rw [hd] at hthis
            refine hthis.congr fun k => and_congr_right fun _ => ?_
            simp only [behind, hd]
            exact (place_lt_iff (Ne.symm hi)).symm
        · next hd =>
            refine putBefore_best.congr fun k => and_congr_right fun _ => ?_
            simp [behind, hd]

/-- A call that has nothing to look for stops at its assertion. -/
theorem call_of_not_sought {c : IteratorCall κ}
    (hs : soughtPlaces (stateOf it) c = none) : it.call c = none := by
  have hnowhere : (stateOf it).place = none → it.next = none ∧ it.prev = none := by
    intro hnone
    rw [MergingIterator.next, MergingIterator.prev]
    cases hcurrent : it.current with
    | none => exact ⟨rfl, rfl⟩
    | some i =>
        rw [stateOf, hcurrent] at hnone
        rw [Option.bind_eq_bind, Option.bind_eq_bind, Option.bind_some,
          Option.bind_some, Option.map_eq_none_iff.1 hnone]
        exact ⟨rfl, rfl⟩
  cases c with
  | next => exact (hnowhere (Option.map_eq_none_iff.1 hs)).1
  | prev => exact (hnowhere (Option.map_eq_none_iff.1 hs)).2
  | seekToFirst => cases hs
  | seekToLast => cases hs
  | seek target => cases hs
  | seekForPrev target => cases hs

/-- Any other call puts the children where it looks, and shows the best. -/
theorem call_of_sought (h : StandsAhead it) {c : IteratorCall κ}
    {d : IteratorDirection} {U : Set (Place κ n)}
    (hs : soughtPlaces (stateOf it) c = some (d, U)) :
    ∃ children, it.call c = some (seekIn d children) ∧
      Prepared it d U children := by
  cases c with
  | seekToFirst =>
      cases hs
      exact ⟨_, rfl, fun i => rfl, fun i => OrderedIterator.seekToFirst_best.congr
        fun k => (and_iff_left trivial).symm⟩
  | seekToLast =>
      cases hs
      exact ⟨_, rfl, fun i => rfl, fun i => OrderedIterator.seekToLast_best.congr
        fun k => (and_iff_left trivial).symm⟩
  | seek target =>
      cases hs
      exact ⟨_, rfl, fun i => rfl, fun i => (it.children i).seek_best target⟩
  | seekForPrev target =>
      cases hs
      exact ⟨_, rfl, fun i => rfl, fun i =>
        (it.children i).seekForPrev_best target⟩
  | next =>
      obtain ⟨p, hp, heq⟩ := Option.map_eq_some_iff.1 hs
      cases heq
      exact ⟨_, next_of_place hp, prepared_next h hp⟩
  | prev =>
      obtain ⟨p, hp, heq⟩ := Option.map_eq_some_iff.1 hs
      cases heq
      exact ⟨_, prev_of_place hp, prepared_prev h hp⟩

theorem behind_closed {turns : Bool} {d : IteratorDirection} {p q q' : Place κ n}
    (hq : q ∈ behind turns d p) (h : ahead d q q') : q' ∈ behind turns d p := by
  cases d with
  | forward =>
      cases turns with
      | true => exact lt_of_lt_of_le hq (Prod.Lex.monotone_fst _ _ h)
      | false => exact lt_of_lt_of_le (α := Place κ n) hq h
  | reverse =>
      cases turns with
      | true => exact lt_of_le_of_lt (Prod.Lex.monotone_fst _ _ h) hq
      | false => exact lt_of_le_of_lt (α := Place κ n) h hq

/-- With an entry a call looks for all that come after it. -/
theorem soughtPlaces_closed {st : UnionState κ n} {c : IteratorCall κ}
    {d : IteratorDirection} {U : Set (Place κ n)}
    (hs : soughtPlaces st c = some (d, U)) :
    ∀ p ∈ U, ∀ q, ahead d p q → q ∈ U := by
  intro p hp q hpq
  cases c with
  | seekToFirst =>
      cases hs
      trivial
  | seekToLast =>
      cases hs
      trivial
  | seek target =>
      cases hs
      exact le_trans hp (Prod.Lex.monotone_fst _ _ hpq)
  | seekForPrev target =>
      cases hs
      exact le_trans (Prod.Lex.monotone_fst _ _ hpq) hp
  | next =>
      obtain ⟨at', hat, heq⟩ := Option.map_eq_some_iff.1 hs
      cases heq
      exact behind_closed hp hpq
  | prev =>
      obtain ⟨at', hat, heq⟩ := Option.map_eq_some_iff.1 hs
      cases heq
      exact behind_closed hp hpq

theorem call_moves (h : StandsAhead it) {c : IteratorCall κ}
    {it' : MergingIterator κ ν n} (hc : it.call c = some it') :
    UnionMove (places it.children) (stateOf it) c (stateOf it') ∧
      StandsAhead it' ∧
      ∀ i, (it'.children i).entries = (it.children i).entries := by
  cases hs : soughtPlaces (stateOf it) c with
  | none =>
      rw [call_of_not_sought hs] at hc
      cases hc
  | some sought =>
      obtain ⟨d, U⟩ := sought
      obtain ⟨children, hcall, hprepared⟩ := call_of_sought h hs
      rw [hcall] at hc
      cases hc
      have hkeys : ∀ i, (children i).keys = (it.children i).keys := fun i =>
        keys_congr (hprepared.entries i)
      have hplaces := places_congr hprepared.entries
      have hsettled := settled children (fun i => by
        rw [hkeys]
        exact hprepared.best i) (soughtPlaces_closed hs)
      rw [hplaces] at hsettled
      refine ⟨⟨U, ?_, ?_⟩, hsettled.2, fun i => ?_⟩
      · rw [hs, stateOf, seekIn_direction]
      · rw [stateOf, seekIn_direction]
        exact hsettled.1
      · rw [seekIn_children]
        exact hprepared.entries i

end Steps

/-! ## Runs -/

instance (d : IteratorDirection) : Std.Antisymm (ahead (κ := κ) (n := n) d) where
  antisymm p q h h' := by
    cases d with
    | forward => exact le_antisymm (α := Place κ n) h h'
    | reverse => exact le_antisymm (α := Place κ n) h' h

theorem UnionMove.unique {E : Set (Place κ n)} {st st' st'' : UnionState κ n}
    {c : IteratorCall κ} (h : UnionMove E st c st') (h' : UnionMove E st c st'') :
    st' = st'' := by
  obtain ⟨U, hs, hbest⟩ := h
  obtain ⟨U', hs', hbest'⟩ := h'
  rw [hs, Option.some.injEq, Prod.mk.injEq] at hs'
  obtain ⟨hd, rfl⟩ := hs'
  rw [← hd] at hbest'
  cases st'
  cases st''
  cases hd
  cases hbest.unique hbest'
  rfl

theorem unionRun_iff : ∀ (calls : List (IteratorCall κ))
    (it : MergingIterator κ ν n), StandsAhead it → ∀ st,
    (UnionRun (places it.children) (stateOf it) calls st ↔
      ∃ it', it.run calls = some it' ∧ stateOf it' = st)
  | [], it, _, st => by
      constructor
      · rintro ⟨⟩
        exact ⟨it, rfl, rfl⟩
      · rintro ⟨it', hrun, rfl⟩
        cases hrun
        exact .nil _
  | c :: calls, it, h, st => by
      rw [MergingIterator.run, List.foldlM_cons]
      cases hcall : it.call c with
      | none =>
          constructor
          · intro hrun
            obtain _ | ⟨⟨U, hs, -⟩, -⟩ := hrun
            obtain ⟨children, hsome, -⟩ := call_of_sought h hs
            rw [hcall] at hsome
            cases hsome
          · rintro ⟨it', hrun, -⟩
            cases hrun
      | some it₁ =>
          obtain ⟨hmove, hstands, hentries⟩ := call_moves h hcall
          rw [Option.bind_eq_bind, Option.bind_some]
          refine Iff.trans ?_ (unionRun_iff calls it₁ hstands st)
          rw [places_congr hentries]
          constructor
          · intro hrun
            obtain _ | ⟨hmove', hrest⟩ := hrun
            rwa [hmove.unique hmove']
          · exact .cons hmove

/-- A merging iterator goes where an iterator over the union goes, whatever is
called and wherever its children were, and it stops at an assertion just where
there is no entry to go on from. -/
theorem merging_run_iff (children : Fin n → OrderedIterator κ ν)
    (calls : List (IteratorCall κ)) (st : UnionState κ n) :
    UnionRun (places children) {} calls st ↔
      ∃ it, MergingIterator.run { children := children } calls = some it ∧
        stateOf it = st :=
  unionRun_iff calls { children := children } (fun p hp => by cases hp) st

/-! ## Maps that share no key -/

/-- No key is in two of the maps. -/
def SharesNoKey (children : Fin n → OrderedIterator κ ν) : Prop :=
  ∀ i j k, k ∈ (children i).keys → k ∈ (children j).keys → i = j

/-- One map with the entries of all. -/
def JoinsAll (children : Fin n → OrderedIterator κ ν)
    (union : OrderedIterator κ ν) : Prop :=
  ∀ x, x ∈ union.entries ↔ ∃ i, x ∈ (children i).entries

section Disjoint

/-- The key of a place. -/
def placeKey (p : Place κ n) : κ := (ofLex p).1

/-- What a call does to an iterator over one map. -/
theorem orderedCall (u : OrderedIterator κ ν) (c : IteratorCall κ) :
    match soughtKeys u.key c with
    | none => u.call c = none
    | some (d, K) => ∃ u', u.call c = some u' ∧ u'.entries = u.entries ∧
        Best (aheadKey d) { k ∈ u.keys | k ∈ K } u'.key := by
  have hvalid : u.key = none → u.valid = false := fun h => by
    rw [OrderedIterator.valid, Option.map_eq_none_iff.1 h]
    rfl
  cases c with
  | seekToFirst => exact ⟨_, rfl, rfl, OrderedIterator.seekToFirst_best.congr
      fun k => (and_iff_left trivial).symm⟩
  | seekToLast => exact ⟨_, rfl, rfl, OrderedIterator.seekToLast_best.congr
      fun k => (and_iff_left trivial).symm⟩
  | seek target => exact ⟨_, rfl, rfl, u.seek_best target⟩
  | seekForPrev target => exact ⟨_, rfl, rfl, u.seekForPrev_best target⟩
  | next =>
      cases hkey : u.key with
      | none => exact if_neg (by rw [hvalid hkey]; decide)
      | some k => exact ⟨_, if_pos (OrderedIterator.valid_iff.2 ⟨k, hkey⟩),
          u.entries_next, OrderedIterator.next_best hkey⟩
  | prev =>
      cases hkey : u.key with
      | none => exact if_neg (by rw [hvalid hkey]; decide)
      | some k => exact ⟨_, if_pos (OrderedIterator.valid_iff.2 ⟨k, hkey⟩),
          u.entries_prev, OrderedIterator.prev_best hkey⟩

variable {children : Fin n → OrderedIterator κ ν} (hshares : SharesNoKey children)

include hshares

theorem place_eq_of_key {p q : Place κ n} (hp : p ∈ places children)
    (hq : q ∈ places children) (h : placeKey p = placeKey q) : p = q := by
  have hmap : (ofLex p).2 = (ofLex q).2 :=
    hshares _ _ (placeKey p) hp (by rw [h]; exact hq)
  exact ofLex.injective (Prod.ext h hmap)

theorem place_lt_iff_key {p q : Place κ n} (hp : p ∈ places children)
    (hq : q ∈ places children) : p < q ↔ placeKey p < placeKey q := by
  constructor
  · intro h
    exact lt_of_le_of_ne (Prod.Lex.monotone_fst _ _ h.le)
      fun heq => h.ne (place_eq_of_key hshares hp hq heq)
  · exact fun h => Prod.Lex.toLex_lt_toLex.2 (Or.inl h)

/-- Among places with keys of their own a call looks by the key. -/
theorem soughtPlaces_keys {st : UnionState κ n}
    (hat : ∀ p ∈ st.place, p ∈ places children) (c : IteratorCall κ) :
    match soughtPlaces st c with
    | none => soughtKeys (st.place.map placeKey) c = none
    | some (d, U) => ∃ K, soughtKeys (st.place.map placeKey) c = some (d, K) ∧
        ∀ q ∈ places children, q ∈ U ↔ placeKey q ∈ K := by
  cases c with
  | seekToFirst => exact ⟨_, rfl, fun q hq => Iff.rfl⟩
  | seekToLast => exact ⟨_, rfl, fun q hq => Iff.rfl⟩
  | seek target => exact ⟨_, rfl, fun q hq => Iff.rfl⟩
  | seekForPrev target => exact ⟨_, rfl, fun q hq => Iff.rfl⟩
  | next =>
      cases hplace : st.place with
      | none =>
          rw [soughtPlaces, hplace]
          rfl
      | some p =>
          rw [soughtPlaces, hplace]
          refine ⟨_, rfl, fun q hq => ?_⟩
          rw [behind]
          cases decide (st.direction ≠ .forward) with
          | true => exact Iff.rfl
          | false => exact place_lt_iff_key hshares (hat p hplace) hq
  | prev =>
      cases hplace : st.place with
      | none =>
          rw [soughtPlaces, hplace]
          rfl
      | some p =>
          rw [soughtPlaces, hplace]
          refine ⟨_, rfl, fun q hq => ?_⟩
          rw [behind]
          cases decide (st.direction ≠ .reverse) with
          | true => exact Iff.rfl
          | false => exact place_lt_iff_key hshares hq (hat p hplace)

end Disjoint

/-- A merging iterator and an iterator over all entries show the same. -/
structure ShowsSame (it : MergingIterator κ ν n) (u : OrderedIterator κ ν) :
    Prop where
  stands : StandsAhead it
  joins : JoinsAll it.children u
  at_place : ∀ p ∈ (stateOf it).place, p ∈ places it.children
  entry : it.entry = u.current

section Agreement

variable {it : MergingIterator κ ν n} {u : OrderedIterator κ ν}

theorem keys_joins {children : Fin n → OrderedIterator κ ν}
    (h : JoinsAll children u) {k : κ} :
    k ∈ u.keys ↔ ∃ i, k ∈ (children i).keys := by
  constructor
  · rintro ⟨v, hv⟩
    obtain ⟨i, hi⟩ := (h _).1 hv
    exact ⟨i, v, hi⟩
  · rintro ⟨i, v, hv⟩
    exact ⟨v, (h _).2 ⟨i, hv⟩⟩

theorem entry_key (it : MergingIterator κ ν n) :
    it.entry.map Prod.fst = (stateOf it).place.map placeKey := by
  rw [MergingIterator.entry, stateOf]
  cases it.current with
  | none => rfl
  | some i =>
      rw [Option.bind_some, Option.bind_some, placeOf, Option.map_map]
      exact Option.map_id_apply.symm

theorem entry_mem {x : κ × ν} (h : it.entry = some x) :
    ∃ i, x ∈ (it.children i).entries := by
  obtain ⟨i, -, hx⟩ := Option.bind_eq_some_iff.1 h
  exact ⟨i, (it.children i).current_mem x hx⟩

/-- The best of the places has the best of the keys. -/
theorem best_keys {children : Fin n → OrderedIterator κ ν}
    (hjoins : JoinsAll children u) {d : IteratorDirection} {U : Set (Place κ n)}
    {K : Set κ} (hUK : ∀ q ∈ places children, q ∈ U ↔ placeKey q ∈ K)
    {o : Option (Place κ n)} (h : Best (ahead d) (places children ∩ U) o) :
    Best (aheadKey d) { k ∈ u.keys | k ∈ K } (o.map placeKey) := by
  have hplace : ∀ k ∈ u.keys, k ∈ K → ∃ q ∈ places children ∩ U,
      placeKey q = k := by
    intro k hk hK
    obtain ⟨i, hi⟩ := (keys_joins hjoins).1 hk
    exact ⟨toLex (k, i), ⟨hi, (hUK (toLex (k, i)) hi).2 hK⟩, rfl⟩
  cases o with
  | none =>
      rintro k ⟨hk, hK⟩
      obtain ⟨q, hq, -⟩ := hplace k hk hK
      exact h q hq
  | some p =>
      obtain ⟨⟨hp, hpU⟩, hall⟩ := h
      refine ⟨⟨(keys_joins hjoins).2 ⟨_, hp⟩, (hUK p hp).1 hpU⟩, ?_⟩
      rintro k ⟨hk, hK⟩
      obtain ⟨q, hq, rfl⟩ := hplace k hk hK
      have hle := hall q hq
      cases d with
      | forward => exact Prod.Lex.monotone_fst _ _ hle
      | reverse => exact Prod.Lex.monotone_fst _ _ hle

instance (d : IteratorDirection) : Std.Antisymm (aheadKey (κ := κ) d) where
  antisymm a b h h' := by
    cases d with
    | forward => exact le_antisymm h h'
    | reverse => exact le_antisymm h' h

/-- The same call leaves them so, or stops both. -/
theorem showsSame_call (hshares : SharesNoKey it.children) (h : ShowsSame it u)
    (c : IteratorCall κ) :
    (it.call c = none ∧ u.call c = none) ∨ ∃ it' u', it.call c = some it' ∧
      u.call c = some u' ∧ SharesNoKey it'.children ∧ ShowsSame it' u' := by
  have hkey : u.key = (stateOf it).place.map placeKey := by
    rw [OrderedIterator.key, ← h.entry, entry_key]
  have hordered := orderedCall u c
  have hkeys := soughtPlaces_keys hshares h.at_place c
  rw [← hkey] at hkeys
  cases hs : soughtPlaces (stateOf it) c with
  | none =>
      rw [hs] at hkeys
      rw [hkeys] at hordered
      exact .inl ⟨call_of_not_sought hs, hordered⟩
  | some sought =>
      obtain ⟨d, U⟩ := sought
      rw [hs] at hkeys
      obtain ⟨K, hK, hUK⟩ := hkeys
      rw [hK] at hordered
      obtain ⟨u', hu', hentries, hbest⟩ := hordered
      obtain ⟨children, hcall, -⟩ := call_of_sought h.stands hs
      obtain ⟨⟨U', hs', hmove⟩, hstands, hchildren⟩ := call_moves h.stands hcall
      rw [hs, Option.some.injEq, Prod.mk.injEq] at hs'
      obtain ⟨hd, rfl⟩ := hs'
      rw [← hd] at hmove
      have hjoins : JoinsAll (seekIn d children).children u' := fun x => by
        rw [hentries, h.joins x]
        exact exists_congr fun i => by rw [hchildren]
      have hkey' : u'.key = (seekIn d children).entry.map Prod.fst := by
        rw [entry_key]
        exact hbest.unique (best_keys h.joins hUK hmove)
      refine .inr ⟨_, u', hcall, hu', fun i j k hi hj => hshares i j k ?_ ?_,
        hstands, hjoins, fun p hp => ?_, ?_⟩
      · rwa [← keys_congr (hchildren i)]
      · rwa [← keys_congr (hchildren j)]
      · rw [places_congr hchildren]
        exact (hmove.mem p hp).1
      · cases hx : (seekIn d children).entry with
        | none =>
            rw [hx] at hkey'
            exact (Option.map_eq_none_iff.1 hkey').symm
        | some x =>
            rw [hx] at hkey'
            obtain ⟨y, hy, hxy⟩ := Option.map_eq_some_iff.1 hkey'
            rw [hy, OrderedIterator.entry_unique ((hjoins x).2 (entry_mem hx))
              (u'.current_mem y hy) hxy.symm]

theorem merging_run_agrees : ∀ (calls : List (IteratorCall κ))
    {it : MergingIterator κ ν n} {u : OrderedIterator κ ν},
    SharesNoKey it.children → ShowsSame it u →
    (it.run calls).map MergingIterator.entry =
      (u.run calls).map OrderedIterator.current
  | [], _, _, _, h => congrArg some h.entry
  | c :: calls, it, u, hshares, h => by
      rw [MergingIterator.run, OrderedIterator.run, List.foldlM_cons,
        List.foldlM_cons]
      rcases showsSame_call hshares h c with ⟨hit, hu⟩ | ⟨it', u', hit, hu,
        hshares', h'⟩
      · rw [hit, hu]
        rfl
      · rw [hit, hu]
        exact merging_run_agrees calls hshares' h'

end Agreement

section Union

theorem current_empty {u : OrderedIterator κ ν} (h : u.entries = []) :
    u.current = none := by
  rw [Option.eq_none_iff_forall_not_mem]
  intro x hx
  have hmem := u.current_mem x hx
  rw [h] at hmem
  cases hmem

theorem run_empty : ∀ (calls : List (IteratorCall κ)) {u : OrderedIterator κ ν},
    u.entries = [] →
    ((UnionIterator.empty : UnionIterator κ ν).run calls).map UnionIterator.entry =
      (u.run calls).map OrderedIterator.current
  | [], u, h => congrArg some (current_empty h).symm
  | c :: calls, u, h => by
      have hstop : u.valid = false := by
        rw [OrderedIterator.valid, current_empty h]
        rfl
      rw [UnionIterator.run, OrderedIterator.run, List.foldlM_cons,
        List.foldlM_cons]
      cases c with
      | next =>
          rw [OrderedIterator.call, hstop]
          rfl
      | prev =>
          rw [OrderedIterator.call, hstop]
          rfl
      | seekToFirst => exact run_empty calls (u := u.seekToFirst) h
      | seekToLast => exact run_empty calls (u := u.seekToLast) h
      | seek target => exact run_empty calls (u := u.seek target) h
      | seekForPrev target => exact run_empty calls (u := u.seekForPrev target) h

theorem run_child (calls : List (IteratorCall κ)) (it : OrderedIterator κ ν) :
    ((UnionIterator.child it).run calls).map UnionIterator.entry =
      (it.run calls).map OrderedIterator.current := by
  rw [UnionIterator.run, OrderedIterator.run]
  induction calls generalizing it with
  | nil => rfl
  | cons c calls ih =>
      rw [List.foldlM_cons, List.foldlM_cons, UnionIterator.call]
      cases it.call c with
      | none => rfl
      | some it' => exact ih it'

theorem run_merging (calls : List (IteratorCall κ)) (it : MergingIterator κ ν n) :
    ((UnionIterator.merging n it).run calls).map UnionIterator.entry =
      (it.run calls).map MergingIterator.entry := by
  rw [UnionIterator.run, MergingIterator.run]
  induction calls generalizing it with
  | nil => rfl
  | cons c calls ih =>
      rw [List.foldlM_cons, List.foldlM_cons, UnionIterator.call]
      cases it.call c with
      | none => rfl
      | some it' => exact ih it'

theorem sharesNoKey_get {children : List (OrderedIterator κ ν)}
    (h : children.Pairwise fun it it' => ∀ k ∈ it.keys, k ∉ it'.keys) :
    SharesNoKey children.get := by
  intro i j k hi hj
  rcases Nat.lt_trichotomy i.1 j.1 with hlt | heq | hlt
  · exact absurd hj (List.pairwise_iff_get.1 h i j hlt k hi)
  · exact Fin.ext heq
  · exact absurd hi (List.pairwise_iff_get.1 h j i hlt k hj)

theorem joinsAll_get {children : List (OrderedIterator κ ν)}
    {union : OrderedIterator κ ν}
    (h : ∀ x, x ∈ union.entries ↔ ∃ it ∈ children, x ∈ it.entries) :
    JoinsAll children.get union := fun x =>
  (h x).trans List.exists_mem_iff_get

end Union

/-- Of maps that share no key the merged iterator shows, call for call, what an
iterator over one map with all the entries shows. -/
theorem union_iterator_agrees (children : List (OrderedIterator κ ν))
    (union : OrderedIterator κ ν) (hchildren : ∀ it ∈ children, it.current = none)
    (hunion : union.current = none)
    (hshares : children.Pairwise fun it it' => ∀ k ∈ it.keys, k ∉ it'.keys)
    (hjoins : ∀ x, x ∈ union.entries ↔ ∃ it ∈ children, x ∈ it.entries)
    (calls : List (IteratorCall κ)) :
    ((UnionIterator.new children).run calls).map UnionIterator.entry =
      (union.run calls).map OrderedIterator.current := by
  rcases children with _ | ⟨it, _ | ⟨it', rest⟩⟩
  · exact run_empty calls (List.eq_nil_iff_forall_not_mem.2 fun x hx => by
      simpa using (hjoins x).1 hx)
  · have hentries : it.entries = union.entries :=
      OrderedIterator.entries_eq fun x => by simp [hjoins x]
    have hit : it = union := by
      have hcurrent := hchildren it List.mem_cons_self
      cases it
      cases union
      cases hentries
      cases hcurrent
      cases hunion
      rfl
    rw [hit]
    exact run_child calls union
  · refine (run_merging calls _).trans
      (merging_run_agrees calls (sharesNoKey_get hshares) ?_)
    exact ⟨fun _ hp => (by cases hp), joinsAll_get hjoins,
      fun _ hp => (by cases hp), hunion.symm⟩

/-- An iterator over a few numbers, nowhere yet. -/
def overNumbers (keys : List Nat) (h : keys.Pairwise (· < ·)) :
    OrderedIterator Nat Unit where
  entries := keys.map fun k => (k, ())
  sorted := List.pairwise_map.2 h

theorem mem_keys_overNumbers {keys : List Nat} {h : keys.Pairwise (· < ·)}
    {k : Nat} : k ∈ (overNumbers keys h).keys ↔ k ∈ keys := by
  simp [overNumbers, OrderedIterator.keys]

/-- Two maps, gone through forth and back. -/
theorem union_iterator_agrees_forthAndBack :
    ((UnionIterator.new [overNumbers [1, 4] (by decide),
      overNumbers [2] (by decide)]).run [.seek 2, .next, .prev, .prev]).map
        UnionIterator.entry = some (some (1, ())) := by
  refine (union_iterator_agrees _ (overNumbers [1, 2, 4] (by decide)) ?_ rfl
    ?_ ?_ _).trans rfl
  · simp [overNumbers]
  · simp [mem_keys_overNumbers]
  · simp [overNumbers]
    grind

end Wwsearch.Spec
