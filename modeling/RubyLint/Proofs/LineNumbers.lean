import Mathlib.Data.List.DropRight
import Mathlib.Data.List.GetD
import Mathlib.Tactic.Common
import RubyLint.Proofs.Lines

/-!
# Line numbers

Lines are counted in two ways: by bisection of the table of line starts, and as places in the list of
line texts. Both count the line feeds in front of an offset.

* `bisect_isLast`, `lineIndex_append`: bisection finds the number of line feeds in front of an offset.
* `Source.position_line`: **the line of an offset.**
* `lineAcross`, `lineAbove?`: the text between the line feeds around a place, and the line before it.
* `lines_at`: **the line text with that number** is this text, up to a carriage return.
-/

namespace RubyLint

namespace Text

variable {starts : Array Nat} {offset lo hi fuel : Nat} {front back cs : List Char}

/-- An index of a table is the last one whose entry is at most `offset`, or at least the entry after
it is larger. -/
structure IsLast (starts : Array Nat) (offset index : Nat) : Prop where
  lt_size : index < starts.size
  entry_le : starts.getD index 0 ≤ offset
  lt_next : index + 1 < starts.size → offset < starts.getD (index + 1) 0

/-- Bisection keeps an entry that is at most `offset` on its left side and none on its right side. -/
theorem bisect_isLast (hlo : starts.getD lo 0 ≤ offset)
    (hhi : hi < starts.size → offset < starts.getD hi 0) (hlt : lo < hi) (hle : hi ≤ starts.size)
    (hfuel : hi ≤ lo + fuel + 1) : IsLast starts offset (bisect starts offset fuel lo hi) := by
  induction fuel generalizing lo hi with
  | zero =>
    obtain rfl : hi = lo + 1 := by omega
    exact ⟨by rw [bisect]; omega, hlo, hhi⟩
  | succ fuel ih =>
    unfold bisect
    split
    · by_cases hmid : starts.getD ((lo + hi) / 2) 0 ≤ offset
      · simp only [hmid, if_true]
        exact ih hmid hhi (by omega) hle (by omega)
      · simp only [hmid, if_false]
        exact ih hlo (fun _ => by omega) (by omega) (by omega) (by omega)
    · obtain rfl : hi = lo + 1 := by omega
      exact ⟨by omega, hlo, hhi⟩

theorem startsAfter_append (offset : Nat) (l r : List Char) :
    startsAfter offset (l ++ r) = startsAfter offset l ++ startsAfter (offset + width l) r := by
  induction l generalizing offset with
  | nil => simp [startsAfter, width]
  | cons c l ih =>
    simp only [List.cons_append, startsAfter, width, ih, Nat.add_assoc]
    split <;> simp

theorem length_startsAfter (offset : Nat) (cs : List Char) :
    (startsAfter offset cs).length = cs.count '\n' := by
  induction cs generalizing offset with
  | nil => rfl
  | cons c cs ih =>
    by_cases hc : c = '\n' <;> simp [startsAfter, hc, ih]

theorem mem_startsAfter {s : Nat} (h : s ∈ startsAfter offset cs) :
    offset < s ∧ s ≤ offset + width cs := by
  induction cs generalizing offset with
  | nil => cases h
  | cons c cs ih =>
    have hpos := c.utf8Size_pos
    have hrest : s ∈ startsAfter (offset + c.utf8Size) cs → offset < s ∧ s ≤ offset + width (c :: cs) :=
      fun h => by have := ih h; unfold width; omega
    unfold startsAfter at h
    simp only at h
    split at h
    · rcases List.mem_cons.1 h with rfl | h
      · unfold width; omega
      · exact hrest h
    · exact hrest h

theorem lineStarts_append (front back : List Char) :
    lineStarts (front ++ back) =
      (0 :: startsAfter 0 front) ++ startsAfter (width front) back := by
  unfold lineStarts
  rw [startsAfter_append, Nat.zero_add, List.cons_append]

theorem length_lineStarts (cs : List Char) : (lineStarts cs).length = cs.count '\n' + 1 := by
  unfold lineStarts; rw [List.length_cons, length_startsAfter]

/-- Up to the line that holds the end of `front`, lines start in `front`. -/
theorem lineStarts_getD_le (back : List Char) {i : Nat} (hi : i ≤ front.count '\n') :
    (lineStarts (front ++ back)).getD i 0 ≤ width front := by
  have hlength := length_lineStarts front
  unfold lineStarts at hlength
  rw [lineStarts_append, List.getD_append _ _ _ _ (by omega)]
  cases i with
  | zero => exact Nat.zero_le _
  | succ i =>
    have hlt : i < (startsAfter 0 front).length := by rw [length_startsAfter]; omega
    rw [List.getD_cons_succ, List.getD_eq_getElem _ _ hlt]
    have := (mem_startsAfter (List.getElem_mem hlt)).2
    omega

/-- After that line, they start behind it. -/
theorem lt_lineStarts_getD {i : Nat} (hi : front.count '\n' < i)
    (hlt : i < (lineStarts (front ++ back)).length) :
    width front < (lineStarts (front ++ back)).getD i 0 := by
  have hlength := length_lineStarts front
  unfold lineStarts at hlength
  rw [lineStarts_append] at hlt ⊢
  rw [List.length_append] at hlt
  rw [List.getD_append_right _ _ _ _ (by omega), List.getD_eq_getElem _ _ (by omega)]
  exact (mem_startsAfter (List.getElem_mem _)).1

/-- **Bisection counts line feeds**: in front of the line that holds the end of `front` there are as
many lines as `front` has line feeds. -/
theorem lineIndex_append (front back : List Char) :
    lineIndex (lineStarts (front ++ back)).toArray (width front) = front.count '\n' := by
  have hsize := length_lineStarts (front ++ back)
  rw [List.count_append] at hsize
  obtain ⟨hlt, hle, hnext⟩ : IsLast (lineStarts (front ++ back)).toArray (width front)
      (lineIndex (lineStarts (front ++ back)).toArray (width front)) :=
    bisect_isLast (Nat.zero_le _) (fun h => absurd h (Nat.lt_irrefl _)) (by simp; omega)
      (Nat.le_refl _) (by omega)
  generalize lineIndex (lineStarts (front ++ back)).toArray (width front) = index at *
  simp only [List.size_toArray, Array.getD_eq_getD_getElem?, List.getElem?_toArray,
    ← List.getD_eq_getElem?_getD] at hlt hle hnext
  rcases Nat.lt_trichotomy index (front.count '\n') with h | h | h
  · have := lineStarts_getD_le back (Nat.succ_le_of_lt h)
    exact absurd (hnext (by omega)) (Nat.not_lt.2 this)
  · exact h
  · exact absurd (lt_lineStarts_getD h hlt) (Nat.not_lt.2 hle)

end Text

namespace Source

open Text

/-- **The line of an offset** is one more than the number of line feeds in front of it. -/
theorem position_line (s : Source) {front back : List Char} (h : s.chars = front ++ back) :
    (s.position (width front)).1 = front.count '\n' + 1 := by
  have hsize : min (width front) s.size = width front := by
    unfold size; rw [h, width_append]; omega
  unfold position
  simp only [hsize]
  rw [s.starts_eq, h, lineIndex_append]

end Source

namespace Text

/-- The text between the line feeds around the place where `front` meets `back`. -/
def lineAcross (front back : List Char) : List Char :=
  front.rtakeWhile (· ≠ '\n') ++ back.takeWhile (· ≠ '\n')

/-- The text of the line before the one in which `front` ends, if there is one. -/
def lineAbove? (front : List Char) : Option (List Char) :=
  match front.rdropWhile (· ≠ '\n') with
  | [] => none
  | above => some (above.dropLast.rtakeWhile (· ≠ '\n'))

theorem rtakeWhile_newline (l r : List Char) :
    (l ++ '\n' :: r).rtakeWhile (· ≠ '\n') = r.rtakeWhile (· ≠ '\n') := by
  induction r using List.reverseRecOn with
  | nil => rw [List.rtakeWhile_concat_neg _ _ _ (by decide), List.rtakeWhile_nil]
  | append_singleton r c ih =>
    rw [← List.cons_append, ← List.append_assoc, List.rtakeWhile_concat, List.rtakeWhile_concat, ih]

/-- The line above is the one that ends at the last line feed. -/
theorem lineAbove?_cases (front : List Char) :
    front.count '\n' = 0 ∧ lineAbove? front = none ∨
      ∃ above rest, front = above ++ '\n' :: rest ∧ front.count '\n' = above.count '\n' + 1 ∧
        lineAbove? front = some (above.rtakeWhile (· ≠ '\n')) := by
  induction front using List.reverseRecOn with
  | nil => exact Or.inl ⟨rfl, rfl⟩
  | append_singleton front c ih =>
    by_cases hc : c = '\n'
    · subst hc
      refine Or.inr ⟨front, [], rfl, by simp, ?_⟩
      unfold lineAbove?
      rw [List.rdropWhile_concat_neg _ _ _ (by decide)]
      split
      · rename_i h; simp at h
      · rw [List.dropLast_concat]
    · have hsame : lineAbove? (front ++ [c]) = lineAbove? front := by
        unfold lineAbove?
        rw [List.rdropWhile_concat_pos _ _ _ (by simpa using hc)]
      rw [hsame, List.count_append, List.count_singleton, beq_eq_false_iff_ne.2 hc, if_neg (by simp),
        Nat.add_zero]
      refine ih.imp_right ?_
      rintro ⟨above, rest, rfl, hcount⟩
      exact ⟨above, rest ++ [c], by simp, hcount⟩

theorem finishLine_reverse (l : List Char) : finishLine l.reverse = dropReturn l := by
  induction l using List.reverseRecOn with
  | nil => rfl
  | append_singleton l c _ =>
    rw [List.reverse_concat]
    unfold finishLine dropReturn
    rw [List.getLast?_concat]
    split
    · rename_i h; cases h; simp
    · rename_i h; split
      · rename_i h'; cases h'; exact absurd rfl (h _)
      · simp

variable {α : Type} {f : List Char → Option α} {front : List Char}

theorem eq_of_dropReturn (hreturn : ∀ l, f (l ++ ['\r']) = f l) (l : List Char) :
    f (dropReturn l) = f l := by
  rcases dropReturn_cases l with h | h
  · rw [h]
  · conv_rhs => rw [h, hreturn]

/-- The line in which a text starts, when the characters in `rev` belong to it already. -/
theorem linesFrom_zero (hreturn : ∀ l, f (l ++ ['\r']) = f l) (hnil : f [] = none)
    (rev back : List Char) :
    (linesFrom rev back)[0]?.bind f = f (rev.reverse ++ back.takeWhile (· ≠ '\n')) := by
  induction back generalizing rev with
  | nil =>
    cases rev with
    | nil => exact hnil.symm
    | cons c rev => simp [linesFrom]
  | cons c back ih =>
    by_cases hc : c = '\n'
    · subst hc
      have hline : finishLine rev = dropReturn rev.reverse := by
        rw [← finishLine_reverse, List.reverse_reverse]
      simp [hline, eq_of_dropReturn hreturn]
    · rw [linesFrom_cons hc, ih]
      simp [hc]

/-- The line in which `front` ends, when the characters in `rev` belong to its first line. -/
theorem linesFrom_at (hreturn : ∀ l, f (l ++ ['\r']) = f l) (hnil : f [] = none)
    {rev : List Char} (hrev : '\n' ∉ rev) (front back : List Char) :
    (linesFrom rev (front ++ back))[front.count '\n']?.bind f =
      f (lineAcross (rev.reverse ++ front) back) := by
  induction front generalizing rev with
  | nil =>
    have hself : rev.reverse.rtakeWhile (· ≠ '\n') = rev.reverse := by
      rw [List.rtakeWhile_eq_self_iff]
      intro c hc
      rw [List.mem_reverse] at hc
      simpa using fun h : c = '\n' => hrev (h ▸ hc)
    unfold lineAcross
    rw [List.append_nil, hself]
    exact linesFrom_zero hreturn hnil rev back
  | cons c front ih =>
    by_cases hc : c = '\n'
    · subst hc
      have hfront : lineAcross (rev.reverse ++ '\n' :: front) back = lineAcross front back := by
        unfold lineAcross; rw [rtakeWhile_newline]
      rw [List.cons_append, linesFrom_newline, List.count_cons_self, List.getElem?_cons_succ, hfront]
      exact ih List.not_mem_nil
    · rw [List.cons_append, linesFrom_cons hc, List.count_cons_of_ne hc,
        ih (by simpa using ⟨Ne.symm hc, hrev⟩)]
      simp

/-- **The line text with the number of a place** is the text between the line feeds around it: for
any reading `f` of a line that a carriage return at its end does not change and that finds nothing
in an empty line, since a text that ends in a line feed has no further line. -/
theorem lines_at (hreturn : ∀ l, f (l ++ ['\r']) = f l) (hnil : f [] = none)
    (front back : List Char) :
    (lines (front ++ back))[front.count '\n']?.bind f = f (lineAcross front back) :=
  linesFrom_at hreturn hnil List.not_mem_nil front back

/-- The line text before that one. -/
theorem lines_before (hreturn : ∀ l, f (l ++ ['\r']) = f l) (hnil : f [] = none) {n : Nat}
    (hn : front.count '\n' = n + 1) (back : List Char) :
    (lines (front ++ back))[n]?.bind f = (lineAbove? front).bind f := by
  rcases lineAbove?_cases front with ⟨hcount, -⟩ | ⟨above, rest, rfl, hcount, habove⟩
  · omega
  · have h := lines_at hreturn hnil above ('\n' :: (rest ++ back))
    obtain rfl : above.count '\n' = n := by omega
    rw [habove, List.append_assoc, List.cons_append, h]
    simp [lineAcross]

end Text

end RubyLint
