import RubyLint.Proofs.Offsets
import RubyLint.Source

/-!
# Where lines end

The table of line starts and the text itself agree on where a line ends: the entry for the line after
it is one past the text before the line feed in question.

* `untilBreak`: the text before the `n`-th line feed.
* `startsAfter_getD`: the table entry of the next line.
* `Source.lineEnd_split`: **a line ends after the text before its line feed, less one carriage
  return**; `Source.isBoundary_lineEnd`: it ends between two characters.
-/

namespace RubyLint

namespace Text

variable {rev cs : List Char} {c : Char}

@[simp]
theorem linesFrom_newline (rev cs : List Char) :
    linesFrom rev ('\n' :: cs) = finishLine rev :: linesFrom [] cs := rfl

theorem linesFrom_cons (hc : c ≠ '\n') : linesFrom rev (c :: cs) = linesFrom (c :: rev) cs := by
  rw [linesFrom]; exact hc

/-- Characters other than line feeds join the line that is being read. -/
theorem linesFrom_append {l : List Char} (hl : ∀ c ∈ l, c ≠ '\n') (rev r : List Char) :
    linesFrom rev (l ++ r) = linesFrom (l.reverse ++ rev) r := by
  induction l generalizing rev with
  | nil => rfl
  | cons c l ih =>
    rw [List.cons_append, linesFrom_cons (hl c List.mem_cons_self),
      ih fun d hd => hl d (List.mem_cons_of_mem c hd)]
    simp

/-- A line feed ends the lines of what is in front of it. -/
theorem linesFrom_append_newline (rev above back : List Char) :
    linesFrom rev (above ++ '\n' :: back) =
      linesFrom rev (above ++ ['\n']) ++ linesFrom [] back := by
  induction above generalizing rev with
  | nil => rfl
  | cons c above ih =>
    rw [List.cons_append, List.cons_append]
    by_cases hc : c = '\n'
    · subst hc
      rw [linesFrom_newline, linesFrom_newline, ih, List.cons_append]
    · rw [linesFrom_cons hc, linesFrom_cons hc, ih]

/-- The text before the `n`-th line feed, counted from 1; all of it when there are fewer. -/
def untilBreak : Nat → List Char → List Char
  | 0, _ => []
  | _ + 1, [] => []
  | n + 1, c :: cs =>
    if c = '\n' then if n = 0 then [] else c :: untilBreak n cs
    else c :: untilBreak (n + 1) cs

@[simp]
theorem untilBreak_nil (n : Nat) : untilBreak n [] = [] := by
  cases n <;> rfl

theorem untilBreak_one_newline (cs : List Char) : untilBreak 1 ('\n' :: cs) = [] := rfl

theorem untilBreak_newline (n : Nat) (cs : List Char) :
    untilBreak (n + 2) ('\n' :: cs) = '\n' :: untilBreak (n + 1) cs := rfl

theorem untilBreak_cons (hc : c ≠ '\n') (n : Nat) (cs : List Char) :
    untilBreak (n + 1) (c :: cs) = c :: untilBreak (n + 1) cs := by
  rw [untilBreak, if_neg hc]

theorem exists_append_untilBreak (n : Nat) (cs : List Char) : ∃ r, cs = untilBreak n cs ++ r := by
  induction cs generalizing n with
  | nil => exact ⟨[], by simp⟩
  | cons c cs ih =>
    rcases n with _ | n
    · exact ⟨c :: cs, rfl⟩
    by_cases hc : c = '\n'
    · subst hc
      cases n with
      | zero => exact ⟨'\n' :: cs, rfl⟩
      | succ n =>
        obtain ⟨r, hr⟩ := ih (n + 1)
        exact ⟨r, by rw [untilBreak_newline, List.cons_append, ← hr]⟩
    · obtain ⟨r, hr⟩ := ih (n + 1)
      exact ⟨r, by rw [untilBreak_cons hc, List.cons_append, ← hr]⟩

/-- **The table entry of the next line** is one past the text before the line feed; a line without
one would be followed by a line one past the end. -/
theorem startsAfter_getD (offset n : Nat) (cs : List Char) :
    (startsAfter offset cs).getD n (offset + width cs + 1) =
      offset + width (untilBreak (n + 1) cs) + 1 := by
  induction cs generalizing offset n with
  | nil => simp [startsAfter, width]
  | cons c cs ih =>
    by_cases hc : c = '\n'
    · subst hc
      cases n with
      | zero => simp [startsAfter, untilBreak_one_newline, width]; rfl
      | succ n =>
        have h := ih (offset + '\n'.utf8Size) n
        simp only [startsAfter, if_true, List.getD_cons_succ, untilBreak_newline, width]
        rw [Nat.add_assoc offset] at h
        rw [h]; omega
    · have h := ih (offset + c.utf8Size) n
      simp only [startsAfter, if_neg hc, untilBreak_cons hc, width]
      rw [Nat.add_assoc offset] at h
      rw [h]; omega

/-- A text without one carriage return at its end. -/
def dropReturn (cs : List Char) : List Char :=
  match cs.getLast? with
  | some '\r' => cs.dropLast
  | _ => cs

/-- Either nothing is dropped, or a carriage return is. -/
theorem dropReturn_cases (cs : List Char) :
    dropReturn cs = cs ∨ cs = dropReturn cs ++ ['\r'] := by
  unfold dropReturn
  split
  · rename_i h
    obtain ⟨l, rfl⟩ := List.getLast?_eq_some_iff.1 h
    exact Or.inr (by rw [List.dropLast_concat])
  · exact Or.inl rfl

end Text

namespace Source

open Text

/-- **A line ends after the text before its line feed, less one carriage return.** -/
theorem lineEnd_split (s : Source) (n : Nat) :
    ∃ back, s.chars = dropReturn (untilBreak (n + 1) s.chars) ++ back ∧
      s.lineEnd (n + 1) = width (dropReturn (untilBreak (n + 1) s.chars)) := by
  obtain ⟨r, hr⟩ := exists_append_untilBreak (n + 1) s.chars
  have hnext : s.starts.getD (n + 1) (s.size + 1) = width (untilBreak (n + 1) s.chars) + 1 := by
    have h := startsAfter_getD 0 n s.chars
    rw [Nat.zero_add, Nat.zero_add] at h
    rw [s.starts_eq, ← h]
    simp [lineStarts, size, List.getD]
  generalize untilBreak (n + 1) s.chars = line at hr hnext ⊢
  have hsize : min (width line + 1 - 1) s.size = width line := by
    have : s.size = width line + width r := by unfold size; rw [hr, width_append]
    omega
  have hcut : upTo? (width line) s.chars = some line := upTo?_eq_some_iff.2 ⟨r, hr, rfl⟩
  by_cases h : line.getLast? = some '\r'
  · have hdrop : dropReturn line = line.dropLast := by unfold dropReturn; simp only [h]
    have hend : s.lineEnd (n + 1) = width line - 1 := by
      unfold lineEnd; simp only [hnext, hsize, hcut, Option.bind_some, h]
    obtain ⟨l, rfl⟩ := List.getLast?_eq_some_iff.1 h
    refine ⟨'\r' :: r, ?_, ?_⟩
    · rw [hdrop, List.dropLast_concat, hr, List.append_assoc]; rfl
    · have hret : width ['\r'] = 1 := rfl
      rw [hend, hdrop, List.dropLast_concat, width_append]; omega
  · have hdrop : dropReturn line = line := by
      unfold dropReturn
      split
      · rename_i hlast; exact absurd hlast h
      · rfl
    have hend : s.lineEnd (n + 1) = width line := by
      unfold lineEnd; simp only [hnext, hsize, hcut, Option.bind_some]
    exact ⟨r, by rw [hdrop, hr], by rw [hend, hdrop]⟩

theorem lineEnd_zero (s : Source) : s.lineEnd 0 = 0 := by
  have hnext : s.starts.getD 0 (s.size + 1) = 0 := by
    rw [s.starts_eq]
    rfl
  have hcut : upTo? 0 s.chars = some [] := upTo?_eq_some_iff.2 ⟨s.chars, rfl, rfl⟩
  unfold lineEnd
  simp only [hnext, Nat.zero_sub, Nat.zero_min, hcut]
  rfl

/-- No line ends inside a character. -/
theorem isBoundary_lineEnd (s : Source) (line : Nat) :
    isBoundary (s.lineEnd line) s.chars = true := by
  cases line with
  | zero =>
    rw [lineEnd_zero]
    exact isBoundary_zero s.chars
  | succ n =>
    obtain ⟨back, hsplit, hend⟩ := s.lineEnd_split n
    exact isBoundary_iff.2 ⟨_, back, hsplit, hend.symm⟩

end Source

end RubyLint
