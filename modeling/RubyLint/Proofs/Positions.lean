import Mathlib.Data.List.DropRight
import Mathlib.Tactic.Common
import RubyLint.Proofs.LineNumbers

/-!
# Lines and columns

A place in a text is told in two ways: by its byte offset, and by a line and a column. The one comes
from a bisection of the table of line starts, the other from counting characters from the start of a
line on, across line ends if need be. Both are read off one cut of the text, at the start of the line.

* `AtLineStart`: a text that ends where a line starts; `exists_lineStart`: the line of a place,
  `exists_lineStart_of_le`: the line with a number.
* `lineStarts_at`: **the table entry of a line** is the width of the text in front of it.
* `Source.position_line_column`, `Source.offsetAt_line_column`: position and offset of a place.
* `Source.position_front`: **the position of an offset, counted from the text in front of it**;
  `Source.position_eq` counts bytes, and `Source.position_lt`: it grows with the offset.
* `Source.position_inverse`: **offsets and positions are inverse to each other.**
-/

namespace RubyLint

namespace Text

variable {front back k cs : List Char}

/-- A text ends where a line starts: nothing is in front of it, or a line feed ends it. -/
inductive AtLineStart : List Char → Prop
  | top : AtLineStart []
  | behind (above : List Char) : AtLineStart (above ++ ['\n'])

/-- **The table entry of a line** is the width of the text in front of it. -/
theorem lineStarts_at (h : AtLineStart front) (back : List Char) :
    (lineStarts (front ++ back))[front.count '\n']? = some (width front) := by
  cases h with
  | top => rfl
  | behind above =>
    have hbreak : startsAfter (width above) ['\n'] = [width above + width ['\n']] := rfl
    have hcount : (above ++ ['\n']).count '\n' = above.count '\n' + 1 := by simp
    have hlength : (startsAfter 0 above).length = above.count '\n' := length_startsAfter 0 above
    rw [lineStarts_append, startsAfter_append, hcount, Nat.zero_add, hbreak, width_append]
    simp [hlength]

/-- **The line of a place**: a text has its last line behind the last line feed. -/
theorem exists_lineStart (front : List Char) :
    ∃ above, front = above ++ front.rtakeWhile (· ≠ '\n') ∧ AtLineStart above := by
  refine ⟨front.rdropWhile (· ≠ '\n'), List.rdropWhile_append_rtakeWhile.symm, ?_⟩
  induction front using List.reverseRecOn with
  | nil => exact .top
  | append_singleton front c ih =>
    by_cases hc : c = '\n'
    · subst hc
      rw [List.rdropWhile_concat_neg _ _ _ (by decide)]
      exact .behind front
    · rw [List.rdropWhile_concat_pos _ _ _ (by simpa using hc)]
      exact ih

theorem newline_not_mem_rtakeWhile (front : List Char) :
    '\n' ∉ front.rtakeWhile (· ≠ '\n') := by
  intro h
  simpa using List.mem_rtakeWhile_imp h

/-- **The line with a number**: in front of it there are as many line feeds. -/
theorem exists_lineStart_of_le {i : Nat} (hi : i ≤ cs.count '\n') :
    ∃ front back, cs = front ++ back ∧ AtLineStart front ∧ front.count '\n' = i := by
  induction cs using List.reverseRecOn with
  | nil => exact ⟨[], [], rfl, .top, (Nat.le_zero.1 hi).symm⟩
  | append_singleton cs c ih =>
    by_cases hle : i ≤ cs.count '\n'
    · obtain ⟨front, back, rfl, hfront, hcount⟩ := ih hle
      exact ⟨front, back ++ [c], by simp, hfront, hcount⟩
    · -- only the last character can be the line feed that is missing
      have hc : c = '\n' := by
        by_contra hc
        rw [List.count_append, List.count_singleton, beq_eq_false_iff_ne.2 hc] at hi
        simp at hi
        omega
      subst hc
      have hcount : (cs ++ ['\n']).count '\n' = cs.count '\n' + 1 := by simp
      exact ⟨cs ++ ['\n'], [], by simp, .behind cs, by omega⟩

/-- What follows the start of a line: the line and its line feed, or the last line. -/
theorem exists_line (back : List Char) :
    ∃ line rest, back = line ++ rest ∧ '\n' ∉ line ∧ (rest = [] ∨ ∃ below, rest = '\n' :: below) := by
  refine ⟨back.takeWhile (· ≠ '\n'), back.dropWhile (· ≠ '\n'), List.takeWhile_append_dropWhile.symm,
    ?_, ?_⟩
  · intro h
    simpa using List.mem_takeWhile_imp h
  · cases hrest : back.dropWhile (· ≠ '\n') with
    | nil => exact Or.inl rfl
    | cons c below =>
      have hc := List.head?_dropWhile_not (· ≠ '\n') back
      rw [hrest] at hc
      have : c = '\n' := by simpa using hc
      exact Or.inr ⟨below, by rw [this]⟩

/-- Characters other than line feeds join the last line of a text. -/
theorem rtakeWhile_append (h : '\n' ∉ k) (front : List Char) :
    (front ++ k).rtakeWhile (· ≠ '\n') = front.rtakeWhile (· ≠ '\n') ++ k := by
  induction k using List.reverseRecOn with
  | nil => simp
  | append_singleton k c ih =>
    rw [List.mem_append, List.mem_singleton, not_or] at h
    rw [← List.append_assoc, List.rtakeWhile_concat_pos _ _ _ (by simpa using Ne.symm h.2),
      ih h.1, List.append_assoc]

/-- No byte of another character is that of a line feed. -/
theorem count_bytes_newline (cs : List Char) : (bytes cs).count 0x0A = cs.count '\n' := by
  induction cs with
  | nil => rfl
  | cons c cs ih =>
    rw [bytes_cons, List.count_append, ih]
    by_cases hc : c = '\n'
    · subst hc
      rw [List.count_cons_self, Nat.add_comm]
      rfl
    · have hnone : (0x0A : UInt8) ∉ String.utf8EncodeChar c := by
        intro h
        exact hc (Char.toNat_inj.1 (toNat_of_mem_utf8EncodeChar h (by decide)))
      rw [List.count_eq_zero_of_not_mem hnone, List.count_cons_of_ne hc, Nat.zero_add]

end Text

namespace Source

open Text

variable {s : Source} {front back k : List Char}

theorem size_eq (h : s.chars = front ++ back) : s.size = width front + width back := by
  unfold size
  rw [h, width_append]

theorem starts_at (h : s.chars = front ++ back) (hfront : AtLineStart front) :
    s.starts[front.count '\n']? = some (width front) := by
  rw [s.starts_eq, h, List.getElem?_toArray]
  exact lineStarts_at hfront back

/-- **The position of a place** in the line that starts after `front`, behind the characters `k`. -/
theorem position_line_column (h : s.chars = front ++ (k ++ back)) (hfront : AtLineStart front)
    (hk : '\n' ∉ k) :
    s.position (width front + width k) = (front.count '\n' + 1, k.length + 1) := by
  have hsplit : s.chars = (front ++ k) ++ back := by rw [h, List.append_assoc]
  have hoffset : width front + width k = width (front ++ k) := (width_append front k).symm
  have hmin : min (width (front ++ k)) s.size = width (front ++ k) := by
    have := size_eq hsplit
    omega
  have hindex : lineIndex s.starts (width (front ++ k)) = front.count '\n' := by
    rw [s.starts_eq, hsplit, lineIndex_append, List.count_append, List.count_eq_zero.2 hk]
    rfl
  have hstart : s.starts.getD (front.count '\n') 0 = width front := by
    rw [Array.getD_eq_getD_getElem?, starts_at h hfront]
    rfl
  have hslice : slice? (width front) (width (front ++ k)) s.chars = some k := by
    rw [h, ← hoffset]
    exact slice?_middle front k back
  unfold position
  rw [hoffset]
  simp only [hmin, hindex, hstart, hslice, Option.map_some, Option.getD_some]

/-- **The offset of a place** in the line that starts after `front`, behind the characters `k`, which
may reach past the end of the line. -/
theorem offsetAt_line_column (h : s.chars = front ++ (k ++ back)) (hfront : AtLineStart front) :
    s.offsetAt (front.count '\n' + 1) (k.length + 1) = width front + width k := by
  have hrest : from? (width front) s.chars = some (k ++ back) := by
    rw [h]
    exact from?_append front (k ++ back)
  unfold offsetAt
  rw [if_neg (Nat.succ_ne_zero _), Nat.add_sub_cancel, starts_at h hfront]
  simp only [hrest, Option.getD_some, Nat.add_sub_cancel, List.length_append]
  by_cases hback : back = []
  · -- behind the last character there is no further one to find
    subst hback
    have hsize := size_eq h
    rw [width_append] at hsize
    simp only [List.length_nil, Nat.add_zero, Nat.lt_irrefl, if_false]
    rw [hsize]
    rfl
  · have hlt : k.length < k.length + back.length := by
      have := List.length_pos_iff.2 hback
      omega
    rw [if_pos hlt, List.take_left]

/-- **The position of an offset, counted from the text in front of it**: one more than its line feeds,
and one more than the characters behind the last of them. -/
theorem position_front (h : s.chars = front ++ back) :
    s.position (width front) =
      (front.count '\n' + 1, (front.rtakeWhile (· ≠ '\n')).length + 1) := by
  obtain ⟨above, hsplit, habove⟩ := exists_lineStart front
  have hline := newline_not_mem_rtakeWhile front
  generalize front.rtakeWhile (· ≠ '\n') = line at hsplit hline ⊢
  subst hsplit
  rw [width_append, List.count_append, List.count_eq_zero.2 hline]
  exact position_line_column (by rw [h, List.append_assoc]) habove hline

/-- An offset past the end counts as the end. -/
theorem position_min (s : Source) (offset : Nat) :
    s.position (min offset s.size) = s.position offset := by
  unfold position
  rw [Nat.min_assoc, Nat.min_self]

/-- **The position of an offset, counted in bytes and characters**: one more than the bytes of line
feeds in front of it, and one more than the characters behind the last of them. -/
theorem position_eq (s : Source) (offset : Nat)
    (h : isBoundary (min offset s.size) s.chars = true) :
    ∃ front, upTo? (min offset s.size) s.chars = some front ∧
      s.position offset = (1 + ((bytes s.chars).take (min offset s.size)).count 0x0A,
        1 + (front.rtakeWhile (· ≠ '\n')).length) := by
  obtain ⟨front, back, hsplit, hwidth⟩ := isBoundary_iff.1 h
  have hbytes : (bytes s.chars).take (min offset s.size) = bytes front := by
    rw [hsplit, bytes_append, ← hwidth, ← length_bytes, List.take_left]
  refine ⟨front, upTo?_eq_some_iff.2 ⟨back, hsplit, hwidth⟩, ?_⟩
  rw [← position_min, hbytes, count_bytes_newline, ← hwidth, position_front hsplit, Nat.add_comm 1,
    Nat.add_comm 1]

/-- **Positions grow with offsets**, line by line and then column by column. -/
theorem position_lt {m n : Nat} (hm : isBoundary m s.chars = true) (hn : isBoundary n s.chars = true)
    (hlt : m < n) :
    (s.position m).1 < (s.position n).1 ∨
      (s.position m).1 = (s.position n).1 ∧ (s.position m).2 < (s.position n).2 := by
  obtain ⟨front, between, back, hsplit, rfl, rfl⟩ := exists_split hm hn (Nat.le_of_lt hlt)
  have hsplit' : s.chars = (front ++ between) ++ back := by rw [hsplit, List.append_assoc]
  rw [← width_append, position_front hsplit, position_front hsplit']
  by_cases hbreak : '\n' ∈ between
  · have hpos := List.count_pos_iff.2 hbreak
    refine Or.inl ?_
    rw [List.count_append]
    simp only
    omega
  · -- in one line, all characters in between are more columns
    have hne : between ≠ [] := by
      rintro rfl
      exact absurd hlt (Nat.lt_irrefl _)
    have hpos := List.length_pos_iff.2 hne
    refine Or.inr ⟨?_, ?_⟩
    · rw [List.count_append, List.count_eq_zero.2 hbreak]
    · rw [rtakeWhile_append hbreak, List.length_append]
      exact Nat.succ_lt_succ (Nat.lt_add_of_pos_right hpos)

/-- The text of a line with its line feed, from the table: it reaches up to the start of the next line,
or to the end of the text. -/
def row? (s : Source) (line : Nat) : Option (List Char) :=
  s.starts[line - 1]?.bind fun start => slice? start (s.starts.getD line s.size) s.chars

/-- Number of columns of a line that has the text `row`: one for each character, its line feed
included, and on the last line one more for the end of the text. -/
def columns (s : Source) (line : Nat) (row : List Char) : Nat :=
  if line = s.starts.size then row.length + 1 else row.length

theorem size_starts (s : Source) : s.starts.size = s.chars.count '\n' + 1 := by
  rw [s.starts_eq, List.size_toArray, length_lineStarts]

theorem row?_eq {row rest : List Char} (h : s.chars = front ++ (row ++ rest))
    {i : Nat} (hstart : s.starts[i]? = some (width front))
    (hstop : s.starts.getD (i + 1) s.size = width front + width row) : s.row? (i + 1) = some row := by
  unfold row?
  rw [Nat.add_sub_cancel, hstart, Option.bind_some, hstop, h]
  exact slice?_middle front row rest

/-- **A line of the table**, cut out of the text. The columns of the line do not reach past its line
feed. -/
theorem exists_row {i : Nat} (hi : i < s.starts.size) :
    ∃ front row rest, s.chars = front ++ (row ++ rest) ∧ AtLineStart front ∧
      front.count '\n' = i ∧ s.row? (i + 1) = some row ∧
      ∀ c, c < s.columns (i + 1) row → c ≤ row.length ∧ '\n' ∉ row.take c := by
  rw [size_starts] at hi
  obtain ⟨front, back, hsplit, hfront, rfl⟩ := exists_lineStart_of_le (Nat.le_of_lt_succ hi)
  obtain ⟨line, rest, rfl, hline, hrest⟩ := exists_line back
  have hstart := starts_at hsplit hfront
  have hcount : s.chars.count '\n' = front.count '\n' + rest.count '\n' := by
    rw [hsplit, List.count_append, List.count_append, List.count_eq_zero.2 hline, Nat.zero_add]
  have hsize := s.size_starts
  rcases hrest with rfl | ⟨below, rfl⟩
  · -- the last line ends with the text
    have hlast : s.starts.size = front.count '\n' + 1 := by
      rw [hsize, hcount, List.count_nil]
    refine ⟨front, line, [], hsplit, hfront, rfl, row?_eq hsplit hstart ?_, ?_⟩
    · rw [Array.getD_eq_getD_getElem?, Array.getElem?_eq_none (by omega), Option.getD_none,
        size_eq hsplit, List.append_nil]
    · intro c hc
      unfold columns at hc
      rw [if_pos hlast.symm] at hc
      exact ⟨by omega, fun h => hline (List.mem_of_mem_take h)⟩
  · -- the next line starts right behind the line feed
    have hrow : s.chars = front ++ ((line ++ ['\n']) ++ below) := by simp [hsplit]
    have hsplit' : s.chars = (front ++ line ++ ['\n']) ++ below := by simp [hsplit]
    have hnext := starts_at hsplit' (.behind (front ++ line))
    have hcount' : (front ++ line ++ ['\n']).count '\n' = front.count '\n' + 1 := by
      rw [List.count_append, List.count_append, List.count_eq_zero.2 hline]
      rfl
    rw [hcount'] at hnext
    refine ⟨front, line ++ ['\n'], below, hrow, hfront, rfl, row?_eq hrow hstart ?_, ?_⟩
    · rw [Array.getD_eq_getD_getElem?, hnext, Option.getD_some, List.append_assoc, width_append]
    · intro c hc
      unfold columns at hc
      rw [List.count_cons_self] at hcount
      rw [if_neg (by omega), List.length_append, List.length_singleton] at hc
      rw [List.take_append_of_le_length (by omega), List.length_append]
      exact ⟨by omega, fun h => hline (List.mem_of_mem_take h)⟩

/-- **Offsets and positions are inverse to each other.** The position of an offset between two
characters, or at either end, leads back to the offset. The table has a line for each line feed and one
more, and each column of a line leads to an offset with the position that it was looked up by. -/
theorem position_inverse (s : Source) :
    (∀ offset, isBoundary offset s.chars = true →
      s.offsetAt (s.position offset).1 (s.position offset).2 = offset) ∧
    s.starts.size = s.chars.count '\n' + 1 ∧
    ∀ line, 1 ≤ line → line ≤ s.starts.size → ∃ row, s.row? line = some row ∧
      ∀ column, 1 ≤ column → column ≤ s.columns line row →
        s.position (s.offsetAt line column) = (line, column) := by
  refine ⟨?_, s.size_starts, ?_⟩
  · intro offset hoffset
    obtain ⟨front, back, hsplit, rfl⟩ := isBoundary_iff.1 hoffset
    obtain ⟨above, hfront, habove⟩ := exists_lineStart front
    have hline := newline_not_mem_rtakeWhile front
    generalize front.rtakeWhile (· ≠ '\n') = k at hfront hline
    subst hfront
    rw [List.append_assoc] at hsplit
    rw [width_append, position_line_column hsplit habove hline]
    exact offsetAt_line_column hsplit habove
  · intro line hpos hle
    obtain ⟨i, rfl⟩ : ∃ i, line = i + 1 := ⟨line - 1, by omega⟩
    obtain ⟨front, row, rest, hsplit, hfront, rfl, hrow, hcolumns⟩ := exists_row hle
    refine ⟨row, hrow, ?_⟩
    intro column hcolumn hlast
    obtain ⟨c, rfl⟩ : ∃ c, column = c + 1 := ⟨column - 1, by omega⟩
    obtain ⟨hc, hbreak⟩ := hcolumns c hlast
    -- the place is behind the first `c` characters of the row
    have hplace : s.chars = front ++ (row.take c ++ (row.drop c ++ rest)) := by
      rw [hsplit, ← List.append_assoc (row.take c), List.take_append_drop]
    have hlength : (row.take c).length = c := by
      rw [List.length_take]
      omega
    have hoffset := offsetAt_line_column hplace hfront
    have hposition := position_line_column hplace hfront hbreak
    rw [hlength] at hoffset hposition
    rw [hoffset, hposition]

end Source

end RubyLint
