import Wwsearch.Proofs.QueryTree
import Wwsearch.Proofs.TableScan
import Wwsearch.Spec.FieldScore

/-!
# The field that a hit is found in

An iterator shows an id and names a field for it. A reader names the field of
its list, a merge the field of a part that shows the id, and an `OrIterator` that
of its front. So if the lists hold ids for which a relation to their fields
holds, it holds for every hit, whatever the order of the lists and of the calls
is. `Names` is that invariant, and `names_call` its step, by induction on the
fuel.
-/

namespace Wwsearch.Spec

open Wwsearch.Lib Wwsearch.Ref Wwsearch.Ref.DocIdSetIterator

/-! ## Iterators -/

/-- Whatever the iterator shows, the id and the field are related, and so they
are in whatever it can come to show. -/
inductive Names (P : DocumentID → FieldID → Prop) : DocIdSetIterator → Prop
  | reader {r : DocListReaderCodecImpl}
      (hslice : ∀ doc ∈ r.slice, doc.docId ≠ noMoreDocs →
        P doc.docId (UInt8.ofInt r.fieldId)) : Names P (.reader r)
  | merge {sub : List DocIdSetIterator} {curr : DocumentID} {f : Int}
      (hcurr : curr ≠ noMoreDocs → P curr (UInt8.ofInt f))
      (hsub : ∀ it ∈ sub, Names P it) : Names P (.merge sub curr f)
  | or {sub : List DocIdSetIterator} (hsub : ∀ it ∈ sub, Names P it) :
      Names P (.or sub)

section Iterators

variable {P : DocumentID → FieldID → Prop} {it : DocIdSetIterator}
  {sub : List DocIdSetIterator}

theorem Names.shown (h : Names P it) (hne : it.docID ≠ noMoreDocs) :
    P it.docID (UInt8.ofInt it.fieldId) := by
  induction h with
  | @reader r hslice =>
      have hdoc : r.docID = (r.slice[r.pos]?.map (·.docId)).getD noMoreDocs := by
        rw [DocListReaderCodecImpl.docID]
        cases r.slice[r.pos]? with
        | none => rfl
        | some doc => rfl
      cases hpos : r.slice[r.pos]? with
      | none =>
          rw [hpos] at hdoc
          exact absurd hdoc hne
      | some doc =>
          rw [hpos] at hdoc
          have hdoc : r.docID = doc.docId := hdoc
          have hne : r.docID ≠ noMoreDocs := hne
          show P r.docID (UInt8.ofInt r.fieldId)
          rw [hdoc] at hne ⊢
          exact hslice doc (List.mem_of_getElem? hpos) hne
  | merge hcurr _ _ => exact hcurr hne
  | @or sub _ ih =>
      cases sub with
      | nil => exact absurd rfl hne
      | cons front rest => exact ih front List.mem_cons_self hne

theorem ofInt_toNat (f : FieldID) : UInt8.ofInt (f.toNat : Int) = f := by
  have hlt := f.toNat_lt
  have hmod : ((f.toNat : Int) % 2 ^ 8).toNat = f.toNat := by omega
  rw [UInt8.ofInt, hmod, UInt8.ofNat_toNat]

/-- The least id of a scan is shown by one of the parts, which names its
field. -/
theorem findMin_names (h : ∀ it ∈ sub, Names P it) :
    (findMin sub).1 ≠ noMoreDocs → P (findMin sub).1 (findMin sub).2.1 := by
  have hscan : ∀ (rest : List DocIdSetIterator)
      (acc : DocumentID × FieldID × Bool), (∀ it ∈ rest, Names P it) →
      (acc.1 ≠ noMoreDocs → P acc.1 acc.2.1) →
      (rest.foldl scanMin acc).1 ≠ noMoreDocs →
        P (rest.foldl scanMin acc).1 (rest.foldl scanMin acc).2.1 := by
    intro rest
    induction rest with
    | nil => exact fun acc _ hacc => hacc
    | cons it rest ih =>
        intro acc hrest hacc
        refine ih _ (fun s hs => hrest s (List.mem_cons_of_mem it hs)) ?_
        rw [scanMin]
        split
        · exact (hrest it List.mem_cons_self).shown
        · exact hacc
  cases sub with
  | nil => exact fun hne => absurd rfl hne
  | cons first rest =>
      exact hscan rest _ (fun s hs => h s (List.mem_cons_of_mem first hs))
        (h first List.mem_cons_self).shown

theorem forall_of_mapM {α β : Type} {f : α → Option β} {Q : β → Prop}
    {l : List α} (hf : ∀ a ∈ l, ∀ b, f a = some b → Q b) :
    ∀ {l' : List β}, l.mapM f = some l' → ∀ b ∈ l', Q b := by
  induction l with
  | nil =>
      intro l' h
      obtain rfl := Option.some.inj h
      exact fun b hb => absurd hb List.not_mem_nil
  | cons a l ih =>
      intro l' h b hb
      rw [List.mapM_cons] at h
      obtain ⟨head, hhead, h⟩ := Option.bind_eq_some_iff.1 h
      obtain ⟨tail, htail, h⟩ := Option.bind_eq_some_iff.1 h
      obtain rfl := Option.some.inj h
      rcases List.mem_cons.1 hb with rfl | hb
      · exact hf a List.mem_cons_self b hhead
      · exact ih (fun x hx => hf x (List.mem_cons_of_mem a hx)) htail b hb

/-- A reader names fields wherever it stands. -/
theorem Names.moved {r : DocListReaderCodecImpl} (h : Names P (.reader r))
    (pos : Nat) : Names P (.reader { r with pos }) := by
  cases h with
  | reader hslice => exact .reader hslice

/-- What the three fueled functions keep. -/
structure KeepsNames (P : DocumentID → FieldID → Prop) (fuel : Nat) : Prop where
  call : ∀ c it it', Names P it → DocIdSetIterator.call fuel c it = some it' →
    Names P it'
  mergeLoop : ∀ sub it', (∀ s ∈ sub, Names P s) →
    DocIdSetIterator.mergeLoop fuel sub = some it' → Names P it'
  orLoop : ∀ c target sub it', (∀ s ∈ sub, Names P s) →
    DocIdSetIterator.orLoop fuel c target sub = some it' → Names P it'

theorem keepsNames_call {fuel : Nat} (ih : KeepsNames P fuel) (c : Call)
    (it it' : DocIdSetIterator) (h : Names P it)
    (hcall : DocIdSetIterator.call (fuel + 1) c it = some it') :
    Names P it' := by
  cases h with
  | @reader r hslice =>
      have hreader : Names P (.reader r) := .reader hslice
      cases c with
      | nextDoc =>
          obtain rfl := Option.some.inj hcall
          obtain ⟨pos, hpos⟩ := @nextDoc_moves r
          exact hpos ▸ hreader.moved pos
      | advance target =>
          obtain rfl := Option.some.inj hcall
          obtain ⟨pos, hpos⟩ := @advance_moves r target
          exact hpos ▸ hreader.moved pos
  | @merge sub curr f hcurr hsub =>
      have hrun : (sub.mapM (DocIdSetIterator.call fuel c)).bind
          (DocIdSetIterator.mergeLoop fuel) = some it' := by
        cases c with
        | nextDoc => exact hcall
        | advance target => exact hcall
      obtain ⟨sub', hmapM, hloop⟩ := Option.bind_eq_some_iff.1 hrun
      exact ih.mergeLoop sub' it' (forall_of_mapM
        (fun s hs s' hs' => ih.call c s s' (hsub s hs) hs') hmapM) hloop
  | @or sub hsub =>
      cases c with
      | nextDoc =>
          rw [DocIdSetIterator.call] at hcall
          split at hcall
          · obtain rfl := Option.some.inj hcall
            exact .or hsub
          · exact ih.orLoop _ _ sub it' hsub hcall
      | advance target => exact ih.orLoop _ _ sub it' hsub hcall

theorem keepsNames_mergeLoop {fuel : Nat} (ih : KeepsNames P fuel)
    (sub : List DocIdSetIterator) (it' : DocIdSetIterator)
    (h : ∀ s ∈ sub, Names P s)
    (hloop : DocIdSetIterator.mergeLoop (fuel + 1) sub = some it') :
    Names P it' := by
  rw [DocIdSetIterator.mergeLoop] at hloop
  have hmin := findMin_names h
  split at hloop
  · next min f hfind =>
      obtain rfl := Option.some.inj hloop
      rw [hfind] at hmin
      refine .merge (fun hne => ?_) h
      rw [ofInt_toNat]
      exact hmin hne
  · next min f hfind =>
      obtain ⟨sub', hmapM, hloop⟩ := Option.bind_eq_some_iff.1 hloop
      refine ih.mergeLoop sub' it' (forall_of_mapM (fun s hs s' hs' => ?_)
        hmapM) hloop
      split at hs'
      · exact ih.call _ s s' (h s hs) hs'
      · exact Option.some.inj hs' ▸ h s hs

theorem keepsNames_orLoop {fuel : Nat} (ih : KeepsNames P fuel) (c : Call)
    (target : DocumentID) (sub : List DocIdSetIterator)
    (it' : DocIdSetIterator) (h : ∀ s ∈ sub, Names P s)
    (hloop : DocIdSetIterator.orLoop (fuel + 1) c target sub = some it') :
    Names P it' := by
  cases sub with
  | nil =>
      obtain rfl := Option.some.inj hloop
      exact .or h
  | cons front rest =>
      rw [DocIdSetIterator.orLoop] at hloop
      split at hloop
      · obtain ⟨back, hback, hloop⟩ := Option.bind_eq_some_iff.1 hloop
        have hperm := Heap.popHeap_perm greater (front :: rest)
        have hpopped : ∀ s ∈ Heap.popHeap greater (front :: rest), Names P s :=
          fun s hs => h s (hperm.mem_iff.1 hs)
        have hne : Heap.popHeap greater (front :: rest) ≠ [] := fun hnil => by
          rw [hnil] at hperm
          exact List.cons_ne_nil _ _ hperm.symm.eq_nil
        have hlast : Names P ((Heap.popHeap greater
            (front :: rest)).getLastD default) := by
          rw [List.getLastD_eq_getLast?, List.getLast?_eq_some_getLast hne,
            Option.getD_some]
          exact hpopped _ (List.getLast_mem hne)
        refine ih.orLoop c target _ it' (fun s hs => ?_) hloop
        have hs := (Heap.pushHeap_perm _ back).mem_iff.1 hs
        rcases List.mem_append.1 hs with hs | hs
        · exact hpopped s (List.mem_of_mem_dropLast hs)
        · obtain rfl := List.mem_singleton.1 hs
          exact ih.call c _ _ hlast hback
      · obtain rfl := Option.some.inj hloop
        exact .or h

theorem keepsNames (P : DocumentID → FieldID → Prop) (fuel : Nat) :
    KeepsNames P fuel := by
  induction fuel with
  | zero =>
      refine ⟨fun c it it' _ h => ?_, fun sub it' _ h => ?_,
        fun c target sub it' _ h => ?_⟩
      · rw [DocIdSetIterator.call] at h
        cases h
      · rw [DocIdSetIterator.mergeLoop] at h
        cases h
      · rw [DocIdSetIterator.orLoop] at h
        cases h
  | succ fuel ih =>
      exact ⟨keepsNames_call ih, keepsNames_mergeLoop ih, keepsNames_orLoop ih⟩

/-! ## Scorers -/

def NamesScorer (P : DocumentID → FieldID → Prop) : Scorer → Prop
  | .booleanScorer it | .prefixScorer it => Names P it
  | .andScorer sub | .orScorer sub => ∀ it ∈ sub, Names P it

theorem finishOr_names (h : ∀ it ∈ sub, Names P it) :
    Names P (finishOr sub) :=
  .or fun it hit => h it ((Heap.makeHeap_perm greater_iff sub).mem_iff.1 hit)

theorem NamesScorer.iterator {scorer : Scorer} {fuel : Nat}
    (h : NamesScorer P scorer) (hit : scorer.iterator fuel = some it) :
    Names P it := by
  cases scorer with
  | booleanScorer it' | prefixScorer it' =>
      obtain rfl := Option.some.inj hit
      exact h
  | andScorer sub =>
      refine (keepsNames P fuel).call _ _ it (.merge ?_ h) hit
      exact fun hne => absurd rfl hne
  | orScorer sub =>
      obtain rfl := Option.some.inj hit
      exact finishOr_names h

end Iterators

/-- The lists of the table hold ids that are related to their field. -/
def ListsName (P : DocumentID → FieldID → Prop) (op : DocListMergeOperator)
    (table : TableID) (db : VirtualDB) : Prop :=
  ∀ f t, ∀ doc ∈ termList op table db f t, doc.docId ≠ noMoreDocs →
    P doc.docId f

section Queries

variable {P : DocumentID → FieldID → Prop} {config : IndexConfig}
  {faults : Faults} {op : DocListMergeOperator} {table : TableID}
  {db : VirtualDB}

theorem reader_names {value : Bytes} {f : FieldID}
    {r : DocListReaderCodecImpl}
    (hr : newDocListReaderCodec value f.toNat = some r)
    (hdocs : ∀ doc ∈ (docListOf value).getD [], doc.docId ≠ noMoreDocs →
      P doc.docId f) : Names P (.reader r) := by
  rw [newDocListReaderCodec] at hr
  split at hr
  · obtain rfl := Option.some.inj hr
    exact .reader fun doc hdoc => absurd hdoc List.not_mem_nil
  · obtain ⟨docs, hlist, rfl⟩ := Option.map_eq_some_iff.1 hr
    rw [hlist] at hdocs
    refine .reader fun doc hdoc hne => ?_
    rw [ofInt_toNat]
    exact hdocs doc hdoc hne

/-- What is read under a key of the field. -/
theorem ListsName.value (h : ListsName P op table db) {f : FieldID}
    {t value : Bytes}
    (hget : db.get op .invertedIndexColumn (encodeInvertedKey table f t) =
      some value) :
    ∀ doc ∈ (docListOf value).getD [], doc.docId ≠ noMoreDocs →
      P doc.docId f := by
  have hlist : termList op table db f t = (docListOf value).getD [] := by
    rw [termList, hget, Option.bind_some]
  exact hlist ▸ h f t

/-- What a Boolean leaf makes its reader of. -/
theorem ListsName.read (h : ListsName P op table db) (faults : Faults)
    (f : FieldID) (t : Bytes) :
    let r := db.getStatus faults op .invertedIndexColumn
      (encodeInvertedKey table f t)
    ∀ doc ∈ (docListOf (if r.1.ok then r.2 else [])).getD [],
      doc.docId ≠ noMoreDocs → P doc.docId f := by
  have hnothing : ∀ doc ∈ (docListOf []).getD [],
      doc.docId ≠ noMoreDocs → P doc.docId f :=
    fun doc hdoc => absurd hdoc List.not_mem_nil
  rcases getStatus_cases faults op db .invertedIndexColumn
    (encodeInvertedKey table f t) with ⟨msg, -, hr⟩ | ⟨value, hget, hr⟩ | ⟨-, hr⟩
  · rw [hr]
    exact hnothing
  · rw [hr]
    exact h.value hget
  · rw [hr]
    exact hnothing

theorem booleanScorer_names (h : ListsName P op table db) {f : FieldID}
    {value : MatchValue} {st st' : ContextState} {scorer : Scorer}
    (hscorer : booleanScorer (tableContext config faults op table db) f value
      st = some (some scorer, st')) : NamesScorer P scorer := by
  have hdocs := h.read faults f value.toTerm
  rw [booleanScorer] at hscorer
  dsimp only [tableContext] at hscorer
  generalize db.getStatus faults op .invertedIndexColumn
    (encodeInvertedKey table f value.toTerm) = r at hscorer hdocs
  by_cases hok : r.1.ok = true ∨ r.1.documentNotExist = true
  · rw [if_pos hok] at hscorer
    obtain ⟨reader, hreader, hscorer⟩ := Option.bind_eq_some_iff.1 hscorer
    obtain ⟨hsome, -⟩ := Prod.mk.inj (Option.some.inj hscorer)
    obtain rfl := Option.some.inj hsome
    exact reader_names hreader hdocs
  · rw [if_neg hok] at hscorer
    cases Option.some.inj hscorer

/-- A key of the column that begins with that of a term is one of its table and
field. -/
theorem field_of_key (hkeys : WellKeyed db) {f : FieldID} {start key : Bytes}
    (hkey : encodeInvertedKey table f start <+: key)
    (hcell : (db .invertedIndexColumn)[key]? ≠ none) :
    ∃ t, key = encodeInvertedKey table f t := by
  obtain ⟨table', f', t, rfl⟩ := hkeys _ _ hcell
  obtain rfl : table = table' := table_unique
    ((prefix_invertedKey table f start).trans hkey) (prefix_invertedKey _ f' t)
  obtain ⟨r, hr⟩ := hkey
  rw [encodeInvertedKey_cut, encodeInvertedKey_cut, List.append_assoc] at hr
  obtain ⟨rfl, -⟩ := List.cons.inj (List.append_cancel_left hr)
  exact ⟨t, rfl⟩

theorem prefixScorer_names (hkeys : WellKeyed db) (h : ListsName P op table db)
    {f : FieldID} {start : Bytes} {limit : UInt32} {st st' : ContextState}
    {scorer : Scorer}
    (hscorer : prefixScorer (tableContext config faults op table db) f start
      limit st = some (some scorer, st')) : NamesScorer P scorer := by
  obtain ⟨hmem, -⟩ := prefixValues_spec limit (encodeInvertedKey table f start)
    (db.seek op .invertedIndexColumn (encodeInvertedKey table f start)) 0
  rw [seek_prefix_eq] at hmem
  rw [prefixScorer] at hscorer
  dsimp only [tableContext] at hscorer
  obtain ⟨readers, hreaders, hscorer⟩ := Option.bind_eq_some_iff.1 hscorer
  obtain ⟨hsome, -⟩ := Prod.mk.inj (Option.some.inj hscorer)
  obtain rfl := Option.some.inj hsome
  refine finishOr_names fun it hit => ?_
  obtain ⟨r, hr, rfl⟩ := List.mem_map.1 hit
  refine forall_of_mapM (Q := fun r => Names P (.reader r))
    (fun value hvalue r hr => reader_names hr ?_) hreaders r hr
  obtain ⟨⟨key, value⟩, hentry, rfl⟩ := hmem value hvalue
  obtain ⟨cell, hcell, hread⟩ := mem_readableEntries hentry
  obtain ⟨hkey, hget⟩ := mem_prefixEntries.1 hcell
  obtain ⟨t, rfl⟩ := field_of_key hkeys hkey
    (by rw [hget]; exact Option.some_ne_none cell)
  refine h.value (t := t) ?_
  rw [VirtualDB.get, hget, Option.bind_some, hread]

/-- The scorer of an inner node is made of the parts. -/
theorem scorer_of_parts {parts? : Option (Option (List DocIdSetIterator) ×
      ContextState)} {node : List DocIdSetIterator → Scorer} {scorer : Scorer}
    {st : ContextState}
    (h : (parts?.bind fun r => some (r.1.map node, r.2)) =
      some (some scorer, st)) :
    ∃ parts, parts? = some (some parts, st) ∧ scorer = node parts := by
  obtain ⟨⟨sub, st'⟩, rfl, h⟩ := Option.bind_eq_some_iff.1 h
  obtain ⟨hsome, rfl⟩ := Prod.mk.inj (Option.some.inj h)
  obtain ⟨parts, rfl, rfl⟩ := Option.map_eq_some_iff.1 hsome
  exact ⟨parts, rfl, rfl⟩

mutual

/-- The scorer of every tree names fields of the lists. -/
theorem getScorer_names (hkeys : WellKeyed db) (h : ListsName P op table db)
    (fuel : Nat) : ∀ (q : Query) (st st' : ContextState) (scorer : Scorer),
    getScorer fuel (tableContext config faults op table db) q st =
      some (some scorer, st') → NamesScorer P scorer
  | .booleanQuery f value, st, st', scorer, hq => by
      rw [getScorer] at hq
      exact booleanScorer_names h hq
  | .prefixQuery f start limit, st, st', scorer, hq => by
      rw [getScorer] at hq
      exact prefixScorer_names hkeys h hq
  | .andQuery sub, st, st', scorer, hq => by
      rw [getScorer] at hq
      obtain ⟨parts, hparts, rfl⟩ := scorer_of_parts hq
      exact addScorers_names hkeys h fuel sub st st' parts hparts
  | .orQuery sub, st, st', scorer, hq => by
      rw [getScorer] at hq
      obtain ⟨parts, hparts, rfl⟩ := scorer_of_parts hq
      exact addScorers_names hkeys h fuel sub st st' parts hparts

theorem addScorers_names (hkeys : WellKeyed db) (h : ListsName P op table db)
    (fuel : Nat) : ∀ (sub : List Query) (st st' : ContextState)
      (parts : List DocIdSetIterator),
    addScorers fuel (tableContext config faults op table db) sub st =
      some (some parts, st') → ∀ it ∈ parts, Names P it
  | [], st, st', parts, hsub => by
      rw [addScorers] at hsub
      obtain ⟨hsome, -⟩ := Prod.mk.inj (Option.some.inj hsub)
      obtain rfl := Option.some.inj hsome
      exact fun it hit => absurd hit List.not_mem_nil
  | q :: rest, st, st', parts, hsub => by
      rw [addScorers] at hsub
      obtain ⟨⟨found, st''⟩, hq, hsub⟩ := Option.bind_eq_some_iff.1 hsub
      cases found with
      | none => cases Option.some.inj hsub
      | some scorer =>
          obtain ⟨it, hit, hsub⟩ := Option.bind_eq_some_iff.1 hsub
          obtain ⟨⟨others, st₃⟩, hrest, hsub⟩ := Option.bind_eq_some_iff.1 hsub
          obtain ⟨hsome, -⟩ := Prod.mk.inj (Option.some.inj hsub)
          obtain ⟨tail, rfl, rfl⟩ := Option.map_eq_some_iff.1 hsome
          intro x hx
          rcases List.mem_cons.1 hx with rfl | hx
          · exact (getScorer_names hkeys h fuel q st st'' scorer hq).iterator hit
          · exact addScorers_names hkeys h fuel rest st'' st₃ tail hrest x hx

end

end Queries

end Wwsearch.Spec
