import Mathlib.Data.List.Basic
import Mathlib.Data.List.TakeWhile

/-!
# The words of a text

A word is a run of characters that are no separators, with a separator or an end
of the text on either side. A text that begins with separators has the words of
what is behind them (`isWord_dropWhile`), and one that begins with a word has
this word and those of what is behind (`isWord_cons`), so a text can be cut into
its words from the left.
-/

namespace Wwsearch.Lib

variable {α : Type} {skip : α → Bool}

/-- A word of the text; `skip` are the separators. -/
structure IsWord (skip : α → Bool) (text w : List α) : Prop where
  ne_nil : w ≠ []
  no_skip : ∀ c ∈ w, skip c = false
  around : ∃ before after, text = before ++ (w ++ after) ∧
    (∀ c ∈ before.getLast?, skip c = true) ∧ ∀ c ∈ after.head?, skip c = true

theorem not_isWord_nil {w : List α} : ¬ IsWord skip [] w := by
  rintro ⟨hne, -, before, after, htext, -, -⟩
  exact hne (List.append_eq_nil_iff.1 (List.append_eq_nil_iff.1 htext.symm).2).1

theorem IsWord.length_le {text w : List α} (h : IsWord skip text w) :
    w.length ≤ text.length := by
  obtain ⟨before, after, rfl, -, -⟩ := h.around
  simp only [List.length_append]
  omega

theorem isWord_skip {c : α} (hc : skip c = true) {text w : List α} :
    IsWord skip (c :: text) w ↔ IsWord skip text w := by
  constructor
  · rintro ⟨hne, hno, before, after, htext, hbefore, hafter⟩
    cases before with
    | nil =>
        -- the word would begin with the separator
        obtain ⟨d, w, rfl⟩ := List.exists_cons_of_ne_nil hne
        obtain rfl := (List.cons.inj htext).1
        rw [hno c List.mem_cons_self] at hc
        cases hc
    | cons d before =>
        refine ⟨hne, hno, before, after, (List.cons.inj htext).2, ?_, hafter⟩
        intro e he
        refine hbefore e ?_
        rw [List.getLast?_cons, he]
        rfl
  · rintro ⟨hne, hno, before, after, rfl, hbefore, hafter⟩
    refine ⟨hne, hno, c :: before, after, rfl, ?_, hafter⟩
    intro e he
    rw [List.getLast?_cons] at he
    cases hlast : before.getLast? with
    | none =>
        rw [hlast] at he
        exact Option.some.inj he ▸ hc
    | some d =>
        rw [hlast] at he
        exact Option.some.inj he ▸ hbefore d hlast

theorem isWord_dropWhile {text w : List α} :
    IsWord skip (text.dropWhile skip) w ↔ IsWord skip text w := by
  induction text with
  | nil => rfl
  | cons c text ih =>
      rw [List.dropWhile_cons]
      split
      · next hc => exact ih.trans (isWord_skip hc).symm
      · rfl

/-- What stands in front of a word ends with a separator. -/
theorem getLast?_skip {front : List α} (before : List α) (hfront : front ≠ [])
    (hno : ∀ c ∈ front, skip c = false)
    (h : ∀ c ∈ (front ++ before).getLast?, skip c = true) :
    before ≠ [] ∧ ∀ c ∈ before.getLast?, skip c = true := by
  have hne : before ≠ [] := by
    rintro rfl
    have hmem := List.getLast_mem hfront
    have hlast := h (front.getLast hfront)
      (by rw [List.append_nil]; exact List.getLast?_eq_some_getLast hfront)
    rw [hno _ hmem] at hlast
    cases hlast
  refine ⟨hne, fun c hc => h c ?_⟩
  rwa [List.getLast?_append_of_ne_nil _ hne]

theorem isWord_append {word rest : List α} (hne : word ≠ [])
    (hno : ∀ c ∈ word, skip c = false)
    (hrest : ∀ c ∈ rest.head?, skip c = true) {w : List α} :
    IsWord skip (word ++ rest) w ↔ w = word ∨ IsWord skip rest w := by
  have hclash : ∀ {front u u' : List α}, front ++ u' = u → front ≠ [] →
      (∀ c ∈ front, skip c = false) → (∀ c ∈ u.head?, skip c = true) → False := by
    rintro (_ | ⟨c, front⟩) u u' rfl hfront hfrontNo hu
    · exact hfront rfl
    · have hc := hu c rfl
      rw [hfrontNo c List.mem_cons_self] at hc
      cases hc
  constructor
  · rintro ⟨hwne, hwno, before, after, htext, hbefore, hafter⟩
    rcases List.append_eq_append_iff.1 htext with ⟨b, rfl, hb⟩ | ⟨b, rfl, hb⟩
    · exact .inr ⟨hwne, hwno, b, after, hb,
        (getLast?_skip b hne hno hbefore).2, hafter⟩
    · have hnil : before = [] := by
        by_contra hbne
        refine (getLast?_skip [] hbne (fun c hc =>
          hno c (List.mem_append_left _ hc)) ?_).1 rfl
        rwa [List.append_nil]
      subst hnil
      left
      rw [List.nil_append] at hno
      rcases List.append_eq_append_iff.1 hb with ⟨e, rfl, he⟩ | ⟨e, rfl, he⟩
      · by_contra hwe
        have hene : e ≠ [] := by
          rintro rfl
          simp at hwe
        exact hclash he.symm hene
          (fun c hc => hno c (List.mem_append_right _ hc)) hafter
      · by_contra hwe
        have hene : e ≠ [] := by
          rintro rfl
          simp at hwe
        exact hclash he.symm hene
          (fun c hc => hwno c (List.mem_append_right _ hc)) hrest
  · rintro (rfl | ⟨hwne, hwno, before, after, rfl, hbefore, hafter⟩)
    · exact ⟨hne, hno, [], rest, rfl, nofun, hrest⟩
    · refine ⟨hwne, hwno, word ++ before, after, by simp, ?_, hafter⟩
      have hbne : before ≠ [] := by
        rintro rfl
        exact hclash rfl hwne hwno hrest
      intro c hc
      rw [List.getLast?_append_of_ne_nil _ hbne] at hc
      exact hbefore c hc

/-- The first word is as long as it can be. -/
theorem isWord_cons {c : α} (hc : skip c = false) {text w : List α} :
    IsWord skip (c :: text) w ↔ w = (c :: text).takeWhile (!skip ·) ∨
      IsWord skip ((c :: text).dropWhile (!skip ·)) w := by
  have hne : (c :: text).takeWhile (!skip ·) ≠ [] := by
    rw [List.takeWhile_cons, if_pos (by rw [hc]; rfl)]
    exact List.cons_ne_nil _ _
  have hrest : ∀ d ∈ ((c :: text).dropWhile (!skip ·)).head?,
      skip d = true := by
    intro d hd
    have hno := List.head?_dropWhile_not (!skip ·) (c :: text)
    rw [Option.mem_def.1 hd] at hno
    simpa using hno
  have hsplit := isWord_append (w := w) hne
    (fun d hd => by simpa using List.mem_takeWhile_imp hd) hrest
  rwa [List.takeWhile_append_dropWhile] at hsplit

end Wwsearch.Lib
