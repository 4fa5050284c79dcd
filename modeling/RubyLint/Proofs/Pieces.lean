import Mathlib.Data.List.DropRight
import RubyLint.Text.Blank

/-!
# Texts in pieces

Readers take texts apart: they trim blanks, strip a word from the front, and cut at separators. What
they find is known when the text was put together from pieces that have no separator and no outer
blanks.

* `Blank`, `Tight`: a text of blanks, and one without outer blanks.
* `trim_append_blank`, `trim_surrounded`: **trimming takes outer blanks away and nothing else.**
* `after?_eq_some_iff`, `splitFirst?_eq_some_iff`: stripping and cutting, as splits.
* `splitAll_append`, `splitAll_intercalate`: **pieces put together with separators come apart again**;
  `map_trim_splitAll`: blanks in front of all pieces are outer blanks of the first.
-/

namespace RubyLint.Text

variable {sep c : Char} {cs l r k : List Char}

/-- A text of blanks. -/
def Blank (cs : List Char) : Prop :=
  ∀ c ∈ cs, isBlank c = true

instance (cs : List Char) : Decidable (Blank cs) :=
  decidable_of_iff (cs.all isBlank = true) List.all_eq_true

/-- A text without outer blanks. -/
structure Tight (cs : List Char) : Prop where
  head : ∀ c ∈ cs.head?, isBlank c = false
  last : ∀ c ∈ cs.getLast?, isBlank c = false

instance (cs : List Char) : Decidable (Tight cs) :=
  decidable_of_iff (cs.head?.any isBlank = false ∧ cs.getLast?.any isBlank = false)
    ⟨fun h => ⟨(Option.any_eq_false _ _).1 h.1, (Option.any_eq_false _ _).1 h.2⟩,
      fun h => ⟨(Option.any_eq_false _ _).2 h.head, (Option.any_eq_false _ _).2 h.last⟩⟩

/-! ## Trimming -/

theorem dropWhile_append_cons {p : Char → Bool} (hc : p c = false) (l r : List Char) :
    (l ++ c :: r).dropWhile p = l.dropWhile p ++ c :: r := by
  induction l with
  | nil => simp [hc]
  | cons d l ih =>
    rw [List.cons_append, List.dropWhile_cons, List.dropWhile_cons]
    split
    · exact ih
    · rfl

theorem trimStart_append_cons (hc : isBlank c = false) (l r : List Char) :
    trimStart (l ++ c :: r) = trimStart l ++ c :: r :=
  dropWhile_append_cons hc l r

theorem trimEnd_append_cons (hc : isBlank c = false) (l r : List Char) :
    trimEnd (l ++ c :: r) = l ++ c :: trimEnd r := by
  have hreverse : (l ++ c :: r).reverse = r.reverse ++ c :: l.reverse := by simp
  unfold trimEnd
  rw [hreverse, dropWhile_append_cons hc]
  simp

theorem trimStart_blank (hl : Blank l) (cs : List Char) : trimStart (l ++ cs) = trimStart cs :=
  List.dropWhile_append_of_pos hl

theorem trimStart_append_blank (hr : Blank r) (cs : List Char) :
    trimStart (cs ++ r) = if (trimStart cs).isEmpty then [] else trimStart cs ++ r := by
  have hnone : r.dropWhile isBlank = [] := List.dropWhile_eq_nil_iff.2 hr
  unfold trimStart
  rw [List.dropWhile_append, hnone]

theorem trimEnd_append_blank (hr : Blank r) (cs : List Char) : trimEnd (cs ++ r) = trimEnd cs := by
  unfold trimEnd
  rw [List.reverse_append, List.dropWhile_append_of_pos]
  intro c hc
  exact hr c (List.mem_reverse.1 hc)

/-- **Blanks at the end of a text are outer blanks.** -/
theorem trim_append_blank (hr : Blank r) (cs : List Char) : trim (cs ++ r) = trim cs := by
  unfold trim
  rw [trimStart_append_blank hr]
  split
  · rename_i h
    rw [List.isEmpty_iff.1 h]
  · exact trimEnd_append_blank hr _

theorem trim_trimEnd (cs : List Char) : trim (trimEnd cs) = trim cs := by
  have hblank : Blank (cs.rtakeWhile isBlank) := fun c hc => List.mem_rtakeWhile_imp hc
  have hsplit : trimEnd cs ++ cs.rtakeWhile isBlank = cs := List.rdropWhile_append_rtakeWhile
  rw [← trim_append_blank hblank, hsplit]

theorem trim_cons_blank (hc : isBlank c = true) (cs : List Char) : trim (c :: cs) = trim cs := by
  unfold trim trimStart
  rw [List.dropWhile_cons_of_pos hc]

theorem Tight.trimStart (h : Tight k) : trimStart k = k := by
  cases k with
  | nil => rfl
  | cons c k =>
    have hc : ¬ isBlank c = true := by simpa using h.head c rfl
    exact List.dropWhile_cons_of_neg hc

theorem Tight.trimEnd (h : Tight k) : trimEnd k = k := by
  rcases List.eq_nil_or_concat k with rfl | ⟨front, c, rfl⟩
  · rfl
  · have hc : isBlank c = false := h.last c (by simp)
    rw [List.concat_eq_append]
    exact trimEnd_append_cons hc front []

/-- **Trimming takes the blanks around a text away.** -/
theorem trim_surrounded (hl : Blank l) (hk : Tight k) (hr : Blank r) : trim (l ++ (k ++ r)) = k := by
  have hleft : trim (l ++ (k ++ r)) = trim (k ++ r) := by
    unfold trim
    rw [trimStart_blank hl]
  rw [hleft, trim_append_blank hr]
  unfold trim
  rw [hk.trimStart, hk.trimEnd]

/-! ## Stripping and cutting once -/

/-- Stripping a word from the front of a text leaves what follows it. -/
theorem after?_eq_some_iff {p : List Char} : after? p cs = some r ↔ cs = p ++ r := by
  induction p generalizing cs with
  | nil => simp [after?]
  | cons c p ih =>
    cases cs with
    | nil => simp [after?]
    | cons d cs =>
      rw [after?, List.cons_append, List.cons.injEq]
      by_cases hd : c = d
      · rw [if_pos hd, ih]
        exact ⟨fun h => ⟨hd.symm, h⟩, fun h => h.2⟩
      · rw [if_neg hd]
        exact ⟨fun h => (nomatch h), fun h => absurd h.1.symm hd⟩

theorem after?_append (p r : List Char) : after? p (p ++ r) = some r :=
  after?_eq_some_iff.2 rfl

/-- Cutting a text at a separator takes the first one. -/
theorem splitFirst?_eq_some_iff : splitFirst? sep cs = some (l, r) ↔ cs = l ++ sep :: r ∧ sep ∉ l := by
  induction cs generalizing l with
  | nil => simp [splitFirst?]
  | cons c cs ih =>
    unfold splitFirst?
    split
    · rename_i hc
      subst hc
      cases l with
      | nil => simp
      | cons d l =>
        simp only [Option.some.injEq, Prod.mk.injEq, List.cons_append, List.cons.injEq,
          List.mem_cons, not_or]
        exact ⟨fun h => (nomatch h.1), fun h => absurd h.1.1 h.2.1⟩
    · rename_i hc
      rw [Option.map_eq_some_iff]
      constructor
      · rintro ⟨⟨l', r'⟩, hsplit, heq⟩
        cases heq
        obtain ⟨rfl, hl⟩ := ih.1 hsplit
        refine ⟨rfl, ?_⟩
        rw [List.mem_cons, not_or]
        exact ⟨Ne.symm hc, hl⟩
      · rintro ⟨hcs, hl⟩
        cases l with
        | nil => exact absurd (List.cons.inj hcs).1 hc
        | cons d l =>
          obtain ⟨rfl, rfl⟩ := List.cons.inj hcs
          exact ⟨(l, r), ih.2 ⟨rfl, fun h => hl (List.mem_cons_of_mem _ h)⟩, rfl⟩

theorem splitFirst?_append (hl : sep ∉ l) (r : List Char) :
    splitFirst? sep (l ++ sep :: r) = some (l, r) :=
  splitFirst?_eq_some_iff.2 ⟨rfl, hl⟩

/-! ## Cutting at all separators -/

theorem splitAll_ne_nil (sep : Char) (cs : List Char) : splitAll sep cs ≠ [] := by
  cases cs with
  | nil => simp [splitAll]
  | cons c cs =>
    unfold splitAll
    split
    · simp
    · split <;> simp

/-- A separator divides the pieces of a text into those before it and those after it. -/
theorem splitAll_append (sep : Char) (l r : List Char) :
    splitAll sep (l ++ sep :: r) = splitAll sep l ++ splitAll sep r := by
  induction l with
  | nil =>
    cases hr : splitAll sep r with
    | nil => exact absurd hr (splitAll_ne_nil sep r)
    | cons piece pieces => simp [splitAll, hr]
  | cons c l ih =>
    cases hl : splitAll sep l with
    | nil => exact absurd hl (splitAll_ne_nil sep l)
    | cons piece pieces =>
      rw [List.cons_append, splitAll, splitAll, ih, hl, List.cons_append]
      simp only
      split <;> rfl

theorem splitAll_of_not_mem (h : sep ∉ cs) : splitAll sep cs = [cs] := by
  induction cs with
  | nil => rfl
  | cons c cs ih =>
    obtain ⟨hc, hcs⟩ := not_or.1 (mt List.mem_cons.2 h)
    rw [splitAll, ih hcs]
    simp [Ne.symm hc]

/-- **Pieces put together with separators between them come apart again.** -/
theorem splitAll_intercalate {pieces : List (List Char)} (h : ∀ piece ∈ pieces, sep ∉ piece)
    (hne : pieces ≠ []) : splitAll sep ([sep].intercalate pieces) = pieces := by
  induction pieces with
  | nil => exact absurd rfl hne
  | cons piece pieces ih =>
    obtain ⟨hpiece, hpieces⟩ := List.forall_mem_cons.1 h
    cases pieces with
    | nil => rw [List.intercalate_singleton, splitAll_of_not_mem hpiece]
    | cons next pieces =>
      have hrest := ih hpieces (List.cons_ne_nil next pieces)
      rw [List.intercalate_cons_cons, List.append_assoc, List.singleton_append, splitAll_append,
        splitAll_of_not_mem hpiece, hrest, List.singleton_append]

theorem mem_intercalate {pieces : List (List Char)} (h : c ∈ [sep].intercalate pieces) :
    c = sep ∨ ∃ piece ∈ pieces, c ∈ piece := by
  induction pieces with
  | nil => cases h
  | cons piece pieces ih =>
    cases pieces with
    | nil =>
      rw [List.intercalate_singleton] at h
      exact Or.inr ⟨piece, List.mem_cons_self, h⟩
    | cons next pieces =>
      rw [List.intercalate_cons_cons, List.mem_append, List.mem_append, List.mem_singleton] at h
      rcases h with (h | h) | h
      · exact Or.inr ⟨piece, List.mem_cons_self, h⟩
      · exact Or.inl h
      · rcases ih h with hsep | ⟨later, hlater, hmem⟩
        · exact Or.inl hsep
        · exact Or.inr ⟨later, List.mem_cons_of_mem piece hlater, hmem⟩

/-- Blanks in front of all pieces are outer blanks of the first one. -/
theorem map_trim_splitAll (hsep : isBlank sep = false) (cs : List Char) :
    (splitAll sep (trimStart cs)).map trim = (splitAll sep cs).map trim := by
  induction cs with
  | nil => rfl
  | cons c cs ih =>
    by_cases hc : isBlank c = true
    · have hne : c ≠ sep := by
        intro heq
        rw [heq, hsep] at hc
        cases hc
      have hdrop : trimStart (c :: cs) = trimStart cs := List.dropWhile_cons_of_pos hc
      rw [hdrop, ih, splitAll]
      -- the blank is in the first piece, and trimming takes it there
      cases hpieces : splitAll sep cs with
      | nil => exact absurd hpieces (splitAll_ne_nil sep cs)
      | cons first pieces =>
        simp only [if_neg hne, List.map_cons, trim_cons_blank hc]
    · have hkeep : trimStart (c :: cs) = c :: cs := List.dropWhile_cons_of_neg hc
      rw [hkeep]

end RubyLint.Text
