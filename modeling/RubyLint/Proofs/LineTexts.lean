import RubyLint.Proofs.Positions

/-!
# The text of a line

A line is known in two ways: as an entry of the list of lines, and as the stretch of the text from its
start in the table up to `Source.lineEnd`. The first leaves out a carriage return only in front of a
line feed, the second one leaves out any that ends a line. So the two agree on every line but one: a
last line without a line feed, if it ends in a carriage return.

* `lines_append`: a line start divides the lines of a text.
* `untilBreak_line`, `dropReturn_line`: where a line ends, counted from its start.
* `Source.exists_stretch`: **a line as a stretch of the text**, in both views.
* `Source.linesAgree_iff`: **the two views agree unless the text ends in a carriage return.**
-/

namespace RubyLint

namespace Text

variable {front line rest : List Char}

theorem length_linesFrom_newline (rev above : List Char) :
    (linesFrom rev (above ++ ['\n'])).length = above.count '\n' + 1 := by
  induction above generalizing rev with
  | nil => rfl
  | cons c above ih =>
    rw [List.cons_append]
    by_cases hc : c = '\n'
    · subst hc
      rw [linesFrom_newline, List.length_cons, ih, List.count_cons_self]
    · rw [linesFrom_cons hc, ih, List.count_cons_of_ne hc]

/-- **A line start divides the lines of a text.** -/
theorem lines_append (h : AtLineStart front) (back : List Char) :
    lines (front ++ back) = lines front ++ lines back := by
  cases h with
  | top => rfl
  | behind above =>
    rw [List.append_assoc]
    exact linesFrom_append_newline [] above back

theorem length_lines (h : AtLineStart front) : (lines front).length = front.count '\n' := by
  cases h with
  | top => rfl
  | behind above =>
    rw [List.count_append]
    exact length_linesFrom_newline [] above

/-- The first line, if a line feed ends it. -/
theorem lines_newline (h : '\n' ∉ line) (below : List Char) :
    lines (line ++ '\n' :: below) = dropReturn line :: lines below := by
  unfold lines
  rw [linesFrom_append (fun c hc heq => h (heq ▸ hc)), List.append_nil, linesFrom_newline,
    finishLine_reverse]

/-- The only line, if no line feed ends it. -/
theorem lines_of_not_mem (h : '\n' ∉ line) (hne : line ≠ []) : lines line = [line] := by
  have hread := linesFrom_append (fun c hc heq => h (heq ▸ hc)) [] []
  rw [List.append_nil, List.append_nil] at hread
  unfold lines
  rw [hread, linesFrom, if_neg (by simpa using hne), List.reverse_reverse]

/-- Only the empty text has no lines. -/
theorem eq_nil_of_lines {cs : List Char} (h : lines cs = []) : cs = [] := by
  obtain ⟨line, rest, rfl, hline, rfl | ⟨below, rfl⟩⟩ := exists_line cs
  · rw [List.append_nil] at h ⊢
    by_contra hne
    rw [lines_of_not_mem hline hne] at h
    cases h
  · rw [lines_newline hline] at h
    cases h

/-- The text before the line feed of a line, counted from the start of the line. -/
theorem untilBreak_line (hline : '\n' ∉ line) (hrest : rest = [] ∨ ∃ below, rest = '\n' :: below)
    (front : List Char) :
    untilBreak (front.count '\n' + 1) (front ++ (line ++ rest)) = front ++ line := by
  induction front with
  | nil =>
    induction line with
    | nil =>
      rcases hrest with rfl | ⟨below, rfl⟩
      · rfl
      · rfl
    | cons c line ih =>
      obtain ⟨hc, hline⟩ := not_or.1 (mt List.mem_cons.2 hline)
      exact (untilBreak_cons (Ne.symm hc) 0 (line ++ rest)).trans (congrArg (c :: ·) (ih hline))
  | cons c front ih =>
    rw [List.cons_append, List.cons_append]
    by_cases hc : c = '\n'
    · subst hc
      rw [List.count_cons_self, untilBreak_newline, ih]
    · rw [List.count_cons_of_ne hc, untilBreak_cons hc, ih]

/-- A carriage return at the end of a line belongs to the line. -/
theorem dropReturn_line (h : AtLineStart front) (line : List Char) :
    dropReturn (front ++ line) = front ++ dropReturn line := by
  induction line using List.reverseRecOn with
  | nil =>
    have hnil : dropReturn [] = [] := rfl
    rw [hnil, List.append_nil]
    cases h with
    | top => rfl
    | behind above =>
      unfold dropReturn
      rw [List.getLast?_concat]
      rfl
  | append_singleton line c _ =>
    unfold dropReturn
    rw [← List.append_assoc, List.getLast?_concat, List.getLast?_concat]
    split
    · rw [List.dropLast_concat, List.dropLast_concat]
    · rw [List.append_assoc]

theorem dropReturn_concat (line : List Char) : dropReturn (line ++ ['\r']) = line := by
  unfold dropReturn
  rw [List.getLast?_concat]
  exact List.dropLast_concat

theorem dropReturn_eq_self_iff : dropReturn line = line ↔ line.getLast? ≠ some '\r' := by
  constructor
  · intro h hlast
    obtain ⟨l, rfl⟩ := List.getLast?_eq_some_iff.1 hlast
    rw [dropReturn_concat] at h
    simp at h
  · intro h
    rcases dropReturn_cases line with hsame | hdrop
    · exact hsame
    · rw [hdrop, List.getLast?_concat] at h
      exact absurd rfl h

end Text

namespace Source

open Text

variable {s : Source} {i : Nat} {front line rest : List Char}

/-- **A line of the table as a stretch of the text.** It starts where the table says, and `lineEnd` is
the end of its text, less one carriage return. -/
theorem exists_stretch (hi : i ≤ s.chars.count '\n') :
    ∃ front line rest, s.chars = front ++ (line ++ rest) ∧ AtLineStart front ∧
      front.count '\n' = i ∧ '\n' ∉ line ∧ (rest = [] ∨ ∃ below, rest = '\n' :: below) ∧
      s.starts[i]? = some (width front) ∧
      s.lineEnd (i + 1) = width front + width (dropReturn line) := by
  obtain ⟨front, back, hsplit, hfront, rfl⟩ := exists_lineStart_of_le hi
  obtain ⟨line, rest, rfl, hline, hrest⟩ := exists_line back
  refine ⟨front, line, rest, hsplit, hfront, rfl, hline, hrest, starts_at hsplit hfront, ?_⟩
  obtain ⟨-, -, hend⟩ := s.lineEnd_split (front.count '\n')
  rw [hend, hsplit, untilBreak_line hline hrest, dropReturn_line hfront, width_append]

/-- The stretch from the start of a line to `lineEnd`. -/
theorem slice?_stretch (h : s.chars = front ++ (line ++ rest)) :
    slice? (width front) (width front + width (dropReturn line)) s.chars =
      some (dropReturn line) := by
  rcases dropReturn_cases line with hsame | hdrop
  · rw [h, hsame]
    exact slice?_middle front line rest
  · have hsplit : s.chars = front ++ (dropReturn line ++ ('\r' :: rest)) := by
      rw [h]
      conv_lhs => rw [hdrop]
      simp
    rw [hsplit]
    exact slice?_middle front (dropReturn line) ('\r' :: rest)

/-- The number of lines is that of the line feeds, and one more if something is behind the last. -/
theorem lineCount_le (s : Source) : s.lineCount ≤ s.chars.count '\n' + 1 := by
  obtain ⟨above, hsplit, habove⟩ := exists_lineStart s.chars
  have hline := newline_not_mem_rtakeWhile s.chars
  generalize s.chars.rtakeWhile (· ≠ '\n') = line at hsplit hline
  have hlast : (Text.lines line).length ≤ 1 := by
    by_cases hne : line = []
    · subst hne
      exact Nat.zero_le 1
    · rw [lines_of_not_mem hline hne]
      exact Nat.le_refl 1
  unfold lineCount Source.lines
  rw [hsplit, lines_append habove, List.length_append, length_lines habove, List.count_append]
  omega

/-- **The two views of a line.** The stretch from its start in the table to `lineEnd` is its entry in the
list of lines, but for a carriage return that ends the text. -/
theorem exists_views (hi : i < s.lineCount) :
    ∃ start text, s.starts[i]? = some start ∧
      slice? start (s.lineEnd (i + 1)) s.chars = some text ∧
      s.lines[i]? = some (text ++
        if i + 1 = s.lineCount ∧ s.chars.getLast? = some '\r' then ['\r'] else []) := by
  have hcount := s.lineCount_le
  obtain ⟨front, line, rest, hsplit, hfront, rfl, hline, hrest, hstart, hend⟩ :=
    exists_stretch (s := s) (i := i) (by omega)
  have hlines : s.lines = Text.lines front ++ Text.lines (line ++ rest) := by
    unfold Source.lines
    rw [hsplit, lines_append hfront]
  have hentry : s.lines[front.count '\n']? = (Text.lines (line ++ rest))[0]? := by
    rw [hlines, ← length_lines hfront, List.getElem?_append_right (Nat.le_refl _), Nat.sub_self]
  have hlength : s.lineCount = front.count '\n' + (Text.lines (line ++ rest)).length := by
    unfold lineCount
    rw [hlines, List.length_append, length_lines hfront]
  refine ⟨width front, dropReturn line, hstart, hend ▸ slice?_stretch hsplit, ?_⟩
  rw [hentry]
  rcases hrest with rfl | ⟨below, rfl⟩
  · -- no line feed: the list keeps a carriage return that `lineEnd` leaves out
    rw [List.append_nil] at hlength hsplit ⊢
    have hne : line ≠ [] := by
      rintro rfl
      change s.lineCount = front.count '\n' + 0 at hlength
      omega
    rw [lines_of_not_mem hline hne] at hlength ⊢
    have hlast : s.chars.getLast? = line.getLast? := by
      rw [hsplit, List.getLast?_append_of_ne_nil _ hne]
    rw [hlast]
    by_cases hreturn : line.getLast? = some '\r'
    · obtain ⟨above, rfl⟩ := List.getLast?_eq_some_iff.1 hreturn
      rw [if_pos ⟨hlength.symm, hreturn⟩, dropReturn_concat]
      rfl
    · rw [if_neg (fun h => hreturn h.2), dropReturn_eq_self_iff.2 hreturn, List.append_nil]
      rfl
  · -- a line feed: both leave the carriage return out, and it does not end the text
    rw [lines_newline hline] at hlength ⊢
    have hkeep : ¬(front.count '\n' + 1 = s.lineCount ∧ s.chars.getLast? = some '\r') := by
      rintro ⟨hlast, hreturn⟩
      rw [List.length_cons] at hlength
      have hbelow : below = [] := eq_nil_of_lines (List.length_eq_zero_iff.1 (by omega))
      rw [hsplit, hbelow, ← List.append_assoc, List.getLast?_concat] at hreturn
      exact absurd (Option.some.inj hreturn) (by decide)
    rw [if_neg hkeep, List.append_nil]
    rfl

/-- **No line ends before it starts.** -/
theorem start_le_lineEnd {start : Nat} (h : s.starts[i]? = some start) :
    start ≤ s.lineEnd (i + 1) := by
  obtain ⟨hi, -⟩ := Array.getElem?_eq_some_iff.1 h
  rw [size_starts] at hi
  obtain ⟨front, line, rest, -, -, rfl, -, -, hstart, hend⟩ :=
    exists_stretch (Nat.le_of_lt_succ hi)
  rw [h] at hstart
  have hwidth : start = width front := Option.some.inj hstart
  omega

theorem lineEnd_le_size (s : Source) (line : Nat) : s.lineEnd line ≤ s.size := by
  obtain ⟨front, back, hsplit, hwidth⟩ := isBoundary_iff.1 (s.isBoundary_lineEnd line)
  have hsize := size_eq hsplit
  omega

/-- The two views of every line agree: its entry in the list of lines is the stretch from its start in
the table to `lineEnd`. -/
def LinesAgree (s : Source) : Prop :=
  ∀ line, 1 ≤ line → line ≤ s.lineCount →
    ∃ start, s.starts[line - 1]? = some start ∧
      s.lines[line - 1]? = slice? start (s.lineEnd line) s.chars

theorem linesAgree_of_getLast? (h : s.chars.getLast? ≠ some '\r') : s.LinesAgree := by
  intro line hpos hle
  obtain ⟨i, rfl⟩ : ∃ i, line = i + 1 := ⟨line - 1, by omega⟩
  obtain ⟨start, text, hstart, hslice, hentry⟩ := exists_views hle
  rw [if_neg (fun hlast => h hlast.2), List.append_nil] at hentry
  exact ⟨start, hstart, hentry.trans hslice.symm⟩

theorem not_linesAgree_of_getLast? (h : s.chars.getLast? = some '\r') : ¬s.LinesAgree := by
  intro hagree
  have hlines : s.lines ≠ [] := by
    intro hnil
    rw [eq_nil_of_lines hnil] at h
    cases h
  have hpos : 0 < s.lineCount := List.length_pos_iff.2 hlines
  obtain ⟨i, hi⟩ : ∃ i, s.lineCount = i + 1 := ⟨s.lineCount - 1, by omega⟩
  obtain ⟨start, text, hstart, hslice, hentry⟩ := exists_views (s := s) (i := i) (by omega)
  obtain ⟨start', hstart', hsame⟩ := hagree (i + 1) (by omega) (by omega)
  rw [Nat.add_sub_cancel, hstart] at hstart'
  cases hstart'
  rw [Nat.add_sub_cancel, hentry, hslice, if_pos ⟨hi.symm, h⟩] at hsame
  simp at hsame

/-- **The two views agree unless the text ends in a carriage return.** Then the last line in the list
has this carriage return, which `lineEnd` leaves out; in all other lines there is no difference. No line
ends inside a character, past the end of the text or before its start. -/
theorem linesAgree_iff (s : Source) :
    (s.LinesAgree ↔ s.chars.getLast? ≠ some '\r') ∧
    (∀ line, 1 ≤ line → line ≤ s.lineCount →
      ∃ start text, s.starts[line - 1]? = some start ∧
        slice? start (s.lineEnd line) s.chars = some text ∧
        s.lines[line - 1]? = some (text ++
          if line = s.lineCount ∧ s.chars.getLast? = some '\r' then ['\r'] else [])) ∧
    ∀ line, isBoundary (s.lineEnd line) s.chars = true ∧ s.lineEnd line ≤ s.size ∧
      ∀ start, 1 ≤ line → s.starts[line - 1]? = some start → start ≤ s.lineEnd line := by
  refine ⟨⟨fun h hlast => not_linesAgree_of_getLast? hlast h, linesAgree_of_getLast?⟩, ?_, ?_⟩
  · intro line hpos hle
    obtain ⟨i, rfl⟩ : ∃ i, line = i + 1 := ⟨line - 1, by omega⟩
    exact exists_views hle
  · intro line
    refine ⟨s.isBoundary_lineEnd line, s.lineEnd_le_size line, ?_⟩
    intro start hpos hstart
    obtain ⟨i, rfl⟩ : ∃ i, line = i + 1 := ⟨line - 1, by omega⟩
    exact start_le_lineEnd hstart

/-- A line that a carriage return ends, and nothing else. -/
def loneReturn : Source :=
  .ofString "a\r"

/-- The list of lines has `"a\r"`, and the line ends after `"a"`. -/
theorem loneReturn_not_linesAgree :
    loneReturn.lines = [['a', '\r']] ∧ loneReturn.lineEnd 1 = 1 ∧ ¬loneReturn.LinesAgree := by
  refine ⟨by decide, by decide, ?_⟩
  intro h
  obtain ⟨start, hstart, hline⟩ := h 1 (by decide) (by decide)
  have hzero : start = 0 := Option.some.inj (hstart.symm.trans (by decide))
  rw [hzero] at hline
  exact absurd hline (by decide)

end Source

end RubyLint
