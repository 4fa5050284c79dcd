import RubyLint.Proofs.Lines
import RubyLint.Proofs.Pieces
import RubyLint.Rule.Frozen

/-!
# The head of a file

The head of a file is read off its written lines, those that are not blank. Line feeds separate
written lines whatever else happens to them, so texts that are put together at a line feed have the
written lines of both.

* `hasComment_eq`: whether the head sets the option, without line numbers.
* `writtenFrom_append_newline`: the written lines of texts put together at a line feed.
* `opensWith_newline_comment`: **the comment on a line of its own counts exactly when the text in front
  of it is clear**, that is, has nothing but comments or the comment itself in its head.
* `clear_of_lastSpecial?`: the text down to the end of the last interpreter comment is clear.
-/

namespace RubyLint.FrozenLiteral

open Text

variable {rev cs : List Char}

/-- A line with something on it. -/
def isWritten (line : List Char) : Bool :=
  !(trim line).isEmpty

/-- A line that is a comment. -/
def isComment (line : List Char) : Bool :=
  (trimStart line).head? = some '#'

/-- The written lines of a text, when the characters in `rev` were already read in reverse. -/
def writtenFrom (rev cs : List Char) : List (List Char) :=
  ((linesFrom rev cs).map trimReturns).filter isWritten

/-- The written lines of a text. -/
def written (cs : List Char) : List (List Char) :=
  writtenFrom [] cs

/-- The comment is among the written lines before the first one that is no comment. -/
def opensWith (cs : List Char) : Bool :=
  ((written cs).takeWhile isComment).any fun line => magicKey? line = some option

theorem map_snd_numbered (n : Nat) (ls : List (List Char)) : (numbered n ls).map (·.2) = ls := by
  induction ls generalizing n with
  | nil => rfl
  | cons l ls ih => rw [numbered, List.map_cons, ih]

theorem map_snd_head (s : Source) : (head s).map (·.2) = (written s.chars).takeWhile isComment := by
  unfold written writtenFrom
  rw [show linesFrom [] s.chars = s.lines from rfl, ← map_snd_numbered 1 (s.lines.map trimReturns),
    List.filter_map, List.takeWhile_map]
  rfl

/-- Line numbers do not matter for whether the head sets the option. -/
theorem hasComment_eq (s : Source) : hasComment s = opensWith s.chars := by
  unfold opensWith hasComment
  rw [← map_snd_head, List.any_map]
  rfl

/-- Trimming the end of a text stops at a character that is to stay. -/
theorem exists_trimmed_end {p : Char → Bool} {c : Char} (hc : p c = false) (l t : List Char) :
    ∃ t', ((l ++ c :: t).reverse.dropWhile p).reverse = l ++ c :: t' := by
  refine ⟨(t.reverse.dropWhile p).reverse, ?_⟩
  have h : (l ++ c :: t).reverse = t.reverse ++ c :: l.reverse := by simp
  rw [h, dropWhile_append_cons hc]
  simp

theorem trimReturns_finishLine (rev : List Char) :
    trimReturns (finishLine rev) = trimReturns rev.reverse := by
  unfold finishLine trimReturns
  split <;> simp

theorem filter_cons_eq (l : List Char) (ls : List (List Char)) :
    (l :: ls).filter isWritten = [l].filter isWritten ++ ls.filter isWritten := by
  rw [← List.filter_append]; rfl

theorem writtenFrom_nil (rev : List Char) :
    writtenFrom rev [] = [trimReturns rev.reverse].filter isWritten := by
  unfold writtenFrom linesFrom
  cases rev <;> rfl

theorem writtenFrom_newline (rev cs : List Char) :
    writtenFrom rev ('\n' :: cs) = writtenFrom rev [] ++ writtenFrom [] cs := by
  rw [writtenFrom_nil]
  unfold writtenFrom
  rw [linesFrom_newline, List.map_cons, trimReturns_finishLine, filter_cons_eq]

theorem writtenFrom_cons {c : Char} (hc : c ≠ '\n') :
    writtenFrom rev (c :: cs) = writtenFrom (c :: rev) cs := by
  unfold writtenFrom; rw [linesFrom_cons hc]

/-- **Texts put together at a line feed have the written lines of both.** -/
theorem writtenFrom_append_newline (rev l r : List Char) :
    writtenFrom rev (l ++ '\n' :: r) = writtenFrom rev l ++ written r := by
  induction l generalizing rev with
  | nil => exact writtenFrom_newline rev r
  | cons c l ih =>
    by_cases hc : c = '\n'
    · subst hc
      rw [List.cons_append, writtenFrom_newline, ih, writtenFrom_newline rev l, List.append_assoc]
    · rw [List.cons_append, writtenFrom_cons hc, ih, writtenFrom_cons hc]

/-- A carriage return at the end of a text does not matter. -/
theorem writtenFrom_append_return (rev l : List Char) :
    writtenFrom rev (l ++ ['\r']) = writtenFrom rev l := by
  induction l generalizing rev with
  | nil =>
    rw [List.nil_append, writtenFrom_cons (by decide), writtenFrom_nil, writtenFrom_nil]
    simp [trimReturns]
  | cons c l ih =>
    by_cases hc : c = '\n'
    · subst hc; rw [List.cons_append, writtenFrom_newline, ih, writtenFrom_newline]
    · rw [List.cons_append, writtenFrom_cons hc, ih, writtenFrom_cons hc]

theorem written_dropReturn (l : List Char) : written (dropReturn l) = written l := by
  rcases dropReturn_cases l with h | h
  · rw [h]
  · have hret := writtenFrom_append_return [] (dropReturn l)
    rw [← h] at hret; exact hret.symm

/-- The written lines of the text before the `n`-th line feed are those among the first `n` lines. -/
theorem writtenFrom_untilBreak (n : Nat) (rev cs : List Char) :
    writtenFrom rev (untilBreak (n + 1) cs) =
      (((linesFrom rev cs).map trimReturns).take (n + 1)).filter isWritten := by
  induction cs generalizing rev n with
  | nil =>
    rw [untilBreak_nil]
    unfold writtenFrom linesFrom
    cases rev <;> simp
  | cons c cs ih =>
    by_cases hc : c = '\n'
    · subst hc
      rw [linesFrom_newline, List.map_cons, trimReturns_finishLine, List.take_succ_cons,
        filter_cons_eq]
      cases n with
      | zero => rw [untilBreak_one_newline, writtenFrom_nil]; simp
      | succ n => rw [untilBreak_newline, writtenFrom_newline, ih, writtenFrom_nil]
    · rw [untilBreak_cons hc, writtenFrom_cons hc, linesFrom_cons hc, ih]

theorem trim_append_cons {c : Char} (hc : isBlank c = false) (l t : List Char) :
    ∃ t', trim (l ++ c :: t) = l.dropWhile isBlank ++ c :: t' := by
  unfold trim trimEnd trimStart
  rw [dropWhile_append_cons hc]
  exact exists_trimmed_end hc _ t

theorem magicKey?_comment (t : List Char) : magicKey? (comment.toList ++ t) = some option := by
  have he : isBlank 'e' = false := by decide
  have hc : comment.toList ++ t = '#' :: ' ' :: "frozen_string_literal: tru".toList ++ 'e' :: t := by
    rw [show comment.toList = '#' :: ' ' :: "frozen_string_literal: tru".toList ++ ['e'] by decide]
    simp
  -- the line and its body are trimmed, which can only touch what follows the comment
  obtain ⟨t₁, h₁⟩ := trim_append_cons he ('#' :: ' ' :: "frozen_string_literal: tru".toList) t
  obtain ⟨t₂, h₂⟩ := trim_append_cons he (' ' :: "frozen_string_literal: tru".toList) t₁
  rw [show ('#' :: ' ' :: "frozen_string_literal: tru".toList).dropWhile isBlank =
    '#' :: ' ' :: "frozen_string_literal: tru".toList by decide] at h₁
  rw [show (' ' :: "frozen_string_literal: tru".toList).dropWhile isBlank =
    "frozen_string_literal".toList ++ ':' :: " tru".toList by decide, List.append_assoc] at h₂
  have hsplit : splitFirst? ':'
      ("frozen_string_literal".toList ++ (':' :: " tru".toList ++ 'e' :: t₂)) =
      some ("frozen_string_literal".toList, " tru".toList ++ 'e' :: t₂) := by
    rfl
  have hkey : String.ofList ((trim "frozen_string_literal".toList).map
      fun c => if c = '-' then '_' else c.toLower) = option := by
    decide
  have hmem : magicKeys.contains option = true := by decide
  unfold magicKey?
  rw [hc, h₁]
  simp only [List.cons_append, after?, if_true, Option.bind_eq_bind, Option.bind_some]
  rw [← List.cons_append, h₂, hsplit]
  simp only [Option.bind_some, hkey, hmem, if_true]

theorem isWritten_append_cons {c : Char} (hc : isBlank c = false) (l t : List Char) :
    isWritten (l ++ c :: t) = true := by
  obtain ⟨t', h⟩ := trim_append_cons hc l t
  unfold isWritten; rw [h]; simp

/-- A line stays in front, up to a character that cannot be trimmed away. -/
theorem exists_writtenFrom_cons {c : Char} (hc : isBlank c = false) (l t r : List Char) :
    ∃ t' rest, writtenFrom (l ++ c :: t).reverse r = (l ++ c :: t') :: rest := by
  have hret : decide (c = '\r') = false := decide_eq_false fun h => by
    subst h; cases hc
  -- at the end of its line, the characters read so far lose at most carriage returns
  have hend : ∀ t, ∃ t', writtenFrom (l ++ c :: t).reverse [] = [l ++ c :: t'] := by
    intro t
    obtain ⟨t', ht⟩ := exists_trimmed_end (p := fun d => decide (d = '\r')) hret l t
    refine ⟨t', ?_⟩
    rw [writtenFrom_nil, List.reverse_reverse, trimReturns, ht, List.filter_cons_of_pos
      (isWritten_append_cons hc l t'), List.filter_nil]
  induction r generalizing t with
  | nil => obtain ⟨t', ht⟩ := hend t; exact ⟨t', [], ht⟩
  | cons d r ih =>
    by_cases hd : d = '\n'
    · subst hd
      obtain ⟨t', ht⟩ := hend t
      exact ⟨t', written r, by rw [writtenFrom_newline, ht]; rfl⟩
    · obtain ⟨t', rest, ht⟩ := ih (t ++ [d])
      refine ⟨t', rest, ?_⟩
      rw [writtenFrom_cons hd, ← ht]
      simp

/-- The first written line of a text whose first line has a character to show. -/
theorem exists_written_cons {l : List Char} {c : Char} (hl : ∀ d ∈ l, d ≠ '\n')
    (hc : isBlank c = false) (r : List Char) :
    ∃ t rest, written (l ++ c :: r) = (l ++ c :: t) :: rest := by
  have hc' : c ≠ '\n' := fun h => by subst h; cases hc
  obtain ⟨t, rest, h⟩ := exists_writtenFrom_cons hc l [] r
  refine ⟨t, rest, ?_⟩
  rw [← h]
  unfold written writtenFrom
  rw [linesFrom_append hl, linesFrom_cons hc']
  simp

/-- A text that starts with the comment opens with it, whatever follows. -/
theorem exists_written_comment (r : List Char) :
    ∃ t rest, written (comment.toList ++ r) = (comment.toList ++ t) :: rest := by
  have hline : ("# frozen_string_literal: tru".toList.all fun d => d != '\n') = true := by decide
  obtain ⟨t, rest, h⟩ := exists_written_cons
    (fun d hd => by simpa using List.all_eq_true.1 hline d hd)
    (show isBlank 'e' = false by decide) r
  rw [show comment.toList = "# frozen_string_literal: tru".toList ++ ['e'] by decide]
  exact ⟨t, rest, by simpa using h⟩

theorem isComment_comment (t : List Char) : isComment (comment.toList ++ t) = true := by
  rw [show comment.toList = '#' :: " frozen_string_literal: true".toList by decide]
  have h : isBlank '#' = false := by decide
  unfold isComment trimStart
  rw [List.cons_append, List.dropWhile_cons, h]
  simp

theorem opensWith_comment (r : List Char) : opensWith (comment.toList ++ r) = true := by
  obtain ⟨t, rest, h⟩ := exists_written_comment r
  unfold opensWith
  rw [h, List.takeWhile_cons_of_pos (isComment_comment t), List.any_cons, magicKey?_comment]
  simp

/-- A colon starts a line of code. -/
theorem exists_written_colon (r : List Char) :
    ∃ t rest, written (':' :: r) = (':' :: t) :: rest ∧ isComment (':' :: t) = false := by
  have hb : isBlank ':' = false := by decide
  obtain ⟨t, rest, h⟩ := exists_written_cons
    (show ∀ d ∈ ([] : List Char), d ≠ '\n' by simp) hb r
  refine ⟨t, rest, h, ?_⟩
  unfold isComment trimStart
  rw [List.dropWhile_cons, hb]
  simp

/-- A text that starts with code opens with nothing. -/
theorem opensWith_colon (r : List Char) : opensWith (':' :: r) = false := by
  obtain ⟨t, rest, h, hcode⟩ := exists_written_colon r
  unfold opensWith
  rw [h, List.takeWhile_cons, hcode]
  rfl

/-- **What has to stand in front of the comment**: nothing but comments, or the comment itself. -/
def Clear (front : List Char) : Prop :=
  (∀ line ∈ written front, isComment line = true) ∨ opensWith front = true

theorem clear_nil : Clear [] :=
  Or.inl fun _ h => by cases h

theorem clear_comment (r : List Char) : Clear (comment.toList ++ r) :=
  Or.inr (opensWith_comment r)

theorem not_clear_colon (r : List Char) : ¬Clear (':' :: r) := by
  rintro (h | h)
  · obtain ⟨t, rest, hw, hcode⟩ := exists_written_colon r
    rw [h _ (by rw [hw]; exact List.mem_cons_self)] at hcode; cases hcode
  · rw [opensWith_colon] at h; cases h

/-- **The comment on a line of its own counts exactly when the text in front of it is clear.** -/
theorem opensWith_newline_comment (front r : List Char) :
    opensWith (front ++ '\n' :: (comment.toList ++ r)) = true ↔ Clear front := by
  have hw : written (front ++ '\n' :: (comment.toList ++ r)) =
      written front ++ written (comment.toList ++ r) :=
    writtenFrom_append_newline [] front _
  unfold Clear
  by_cases hall : ∀ line ∈ written front, isComment line = true
  · refine ⟨fun _ => Or.inl hall, fun _ => ?_⟩
    have h := opensWith_comment r
    unfold opensWith at h ⊢
    rw [hw, List.takeWhile_append_of_pos hall, List.any_append, h, Bool.or_true]
  · have hstop : ((written front).takeWhile isComment).length ≠ (written front).length := by
      intro hlen
      have hself := (List.takeWhile_prefix isComment).eq_of_length hlen
      have hcomments := List.all_takeWhile (p := isComment) (l := written front)
      rw [hself, List.all_eq_true] at hcomments
      exact hall hcomments
    have heq : opensWith (front ++ '\n' :: (comment.toList ++ r)) = opensWith front := by
      unfold opensWith
      rw [hw, List.takeWhile_append, if_neg hstop]
    rw [heq]
    exact ⟨Or.inr, fun h => h.resolve_left hall⟩

theorem mem_numbered {k n : Nat} {line : List Char} {ls : List (List Char)} :
    (n, line) ∈ numbered k ls ↔ ∃ i, n = k + i ∧ ls[i]? = some line := by
  induction ls generalizing k with
  | nil => simp [numbered]
  | cons l ls ih =>
    rw [numbered, List.mem_cons, ih]
    constructor
    · rintro (h | ⟨i, rfl, hi⟩)
      · cases h; exact ⟨0, rfl, rfl⟩
      · exact ⟨i + 1, by omega, hi⟩
    · rintro ⟨i, rfl, hi⟩
      cases i with
      | zero => cases hi; exact Or.inl rfl
      | succ i => exact Or.inr ⟨i, by omega, hi⟩

/-- Line numbers increase. -/
theorem pairwise_numbered (k : Nat) (ls : List (List Char)) :
    (numbered k ls).Pairwise fun a b => a.1 < b.1 := by
  induction ls generalizing k with
  | nil => exact List.Pairwise.nil
  | cons l ls ih =>
    refine List.pairwise_cons.2 ⟨fun b hb => ?_, ih (k + 1)⟩
    obtain ⟨i, hi, -⟩ := mem_numbered.1 (show (b.1, b.2) ∈ numbered (k + 1) ls from hb)
    show k < b.1
    omega

/-- The lines of the head and all written lines above them are comments. -/
theorem isComment_of_mem_head {s : Source} {n i : Nat} {last line : List Char}
    (hn : (n, last) ∈ head s) (hin : i < n) (hline : (s.lines.map trimReturns)[i]? = some line)
    (hw : isWritten line = true) : isComment line = true := by
  have hmem : (i + 1, line) ∈ (numbered 1 (s.lines.map trimReturns)).filter fun l => isWritten l.2 :=
    List.mem_filter.2 ⟨mem_numbered.2 ⟨i, Nat.add_comm i 1, hline⟩, hw⟩
  have hsorted := (pairwise_numbered 1 (s.lines.map trimReturns)).filter fun l => isWritten l.2
  have hhead : head s = ((numbered 1 (s.lines.map trimReturns)).filter fun l =>
      isWritten l.2).takeWhile fun l => isComment l.2 := rfl
  rw [← List.takeWhile_append_dropWhile (p := fun l => isComment l.2)
    (l := (numbered 1 (s.lines.map trimReturns)).filter fun l => isWritten l.2), ← hhead]
    at hmem hsorted
  rcases List.mem_append.1 hmem with h | h
  · rw [hhead] at h
    have hall := List.all_eq_true.1 List.all_takeWhile _ h
    exact hall
  · -- a line after the head has a greater number than the last line of the head
    have := (List.pairwise_append.1 hsorted).2.2 _ hn _ h
    exact absurd this (by show ¬n < i + 1; omega)

/-- **The text down to the end of the last interpreter comment is clear.** -/
theorem clear_of_lastSpecial? {s : Source} {n : Nat} (h : lastSpecial? s = some n) :
    ∃ m, n = m + 1 ∧ Clear (dropReturn (untilBreak (m + 1) s.chars)) := by
  obtain ⟨⟨k, last⟩, hlast, rfl⟩ := Option.map_eq_some_iff.1 h
  have hmem : (k, last) ∈ head s :=
    (List.takeWhile_sublist _).subset (List.mem_of_getLast? hlast)
  obtain ⟨m, rfl⟩ : ∃ m, k = m + 1 := by
    have hnum := List.mem_filter.1 ((List.takeWhile_sublist _).subset hmem)
    obtain ⟨i, hi, -⟩ := mem_numbered.1 hnum.1
    exact ⟨i, by omega⟩
  refine ⟨m, rfl, Or.inl fun line hline => ?_⟩
  rw [written_dropReturn, written, writtenFrom_untilBreak, List.mem_filter] at hline
  obtain ⟨i, hi⟩ := List.getElem?_of_mem hline.1
  rw [List.getElem?_take] at hi
  split at hi
  · rename_i him; exact isComment_of_mem_head hmem him hi hline.2
  · cases hi

end RubyLint.FrozenLiteral
