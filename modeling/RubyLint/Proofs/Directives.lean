import RubyLint.Allow
import RubyLint.Proofs.LineNumbers
import RubyLint.Proofs.Pieces

/-!
# Directives and the lines they stand in

A directive is read from the text of a line. A carriage return at the end of a line is a blank, so
it does not matter whether the line is read with its whole ending or without.

* `Directive.read?_append_return`: **a carriage return at the end of a line changes no directive.**
* `AllowIndex.at?_ofText`: the directive with a line number is that of the line.
* `AllowIndex.at?_here`, `AllowIndex.at?_above`: **the directives of the lines around an offset.**
-/

namespace RubyLint

namespace Text

variable {c : Char}

/-- A character that is not part of `p` does not help a text to start with `p`. -/
theorem after?_concat {p : List Char} (hp : c ∉ p) (cs : List Char) :
    after? p (cs ++ [c]) = (after? p cs).map (· ++ [c]) := by
  induction p generalizing cs with
  | nil => rfl
  | cons d p ih =>
    rw [List.mem_cons, not_or] at hp
    cases cs with
    | nil => simp [after?, Ne.symm hp.1]
    | cons x cs =>
      rw [List.cons_append, after?, after?]
      split
      · exact ih hp.2 cs
      · rfl

end Text

namespace Directive

open Text

theorem blank_return : Blank ['\r'] := by decide

theorem marker_concat (cs : List Char) :
    after? marker (trimStart (cs ++ ['\r'])) = (after? marker (trimStart cs)).map (· ++ ['\r']) := by
  rw [trimStart_append_blank blank_return]
  split
  · rename_i h; rw [List.isEmpty_iff.1 h]; rfl
  · exact after?_concat (by decide) _

theorem body?_concat (line : List Char) :
    body? (line ++ ['\r']) = (body? line).map (· ++ ['\r']) := by
  induction line with
  | nil => rfl
  | cons c cs ih =>
    rw [List.cons_append, body?, body?]
    split
    · rw [marker_concat]
      cases after? marker (trimStart cs) with
      | some body => rfl
      | none => exact ih
    · exact ih

/-- **A carriage return at the end of a line changes no directive.** -/
theorem read?_append_return (line : List Char) : read? (line ++ ['\r']) = read? line := by
  unfold read?
  rw [body?_concat]
  cases body? line with
  | none => rfl
  | some body => simp [trim_append_blank blank_return]

theorem read?_nil : read? [] = none := rfl

end Directive

namespace AllowIndex

open Text

theorem le_of_mem_collect {number : Nat} {lines : List (List Char)} {x : Nat × Directive}
    (h : x ∈ collect number lines) : number ≤ x.1 := by
  induction lines generalizing number with
  | nil => cases h
  | cons line lines ih =>
    unfold collect at h
    split at h
    · rcases List.mem_cons.1 h with rfl | h
      · exact Nat.le_refl _
      · have := ih h; omega
    · have := ih h; omega

/-- The directive with a number is that of the line with this number. -/
theorem find?_collect (number i : Nat) (lines : List (List Char)) :
    ((collect number lines).find? (·.1 == number + i)).map (·.2) =
      lines[i]?.bind Directive.read? := by
  induction lines generalizing number i with
  | nil => rfl
  | cons line lines ih =>
    have hlater : (collect (number + 1) lines).find? (·.1 == number) = none := by
      rw [List.find?_eq_none]
      intro x hx
      have := le_of_mem_collect hx
      simp; omega
    cases i with
    | zero =>
      unfold collect
      rw [Nat.add_zero, List.getElem?_cons_zero, Option.bind_some]
      split
      · rename_i d hd; simp [hd]
      · rename_i hd; rw [hlater, hd]; rfl
    | succ i =>
      have h := ih (number + 1) i
      rw [Nat.add_assoc, Nat.add_comm 1] at h
      unfold collect
      rw [List.getElem?_cons_succ, ← h]
      split
      · rw [List.find?_cons_of_neg (by simp)]
      · rfl

theorem at?_ofText (chars : List Char) (n : Nat) :
    (ofText chars).at? (n + 1) = (lines chars)[n]?.bind Directive.read? := by
  rw [← find?_collect 1 n, Nat.add_comm]; rfl

theorem at?_zero (chars : List Char) : (ofText chars).at? 0 = none := by
  unfold at? ofText
  rw [List.find?_eq_none.2 fun x hx => ?_]
  · rfl
  · have := le_of_mem_collect hx
    simp; omega

/-- **The directive on the line of an offset** is that of the text between the line feeds around
it. -/
theorem at?_here (front back : List Char) :
    (ofText (front ++ back)).at? (front.count '\n' + 1) =
      Directive.read? (lineAcross front back) := by
  rw [at?_ofText]
  exact lines_at Directive.read?_append_return Directive.read?_nil front back

/-- **The directive on the line before** is that of the line above, if there is one. -/
theorem at?_above (front back : List Char) :
    (ofText (front ++ back)).at? (front.count '\n') = (lineAbove? front).bind Directive.read? := by
  cases hcount : front.count '\n' with
  | zero =>
    rcases lineAbove?_cases front with ⟨-, h⟩ | ⟨above, rest, -, h, -⟩
    · rw [h, at?_zero]; rfl
    · omega
  | succ n =>
    rw [at?_ofText]
    exact lines_before Directive.read?_append_return Directive.read?_nil hcount back

end AllowIndex

end RubyLint
