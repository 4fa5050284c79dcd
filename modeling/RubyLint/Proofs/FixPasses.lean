import Mathlib
import RubyLint.Analyzer.Fix

/-!
# The passes of a fix run

A fix run is a loop with three pieces of state: the text, the number of edits so far, and both of
them one pass earlier. It is compared here with the plain sequence of texts `textAt`, in which every
pass counts and none is taken back.

* `fixPasses_after` (loop invariant): as long as every pass applied an edit, the state of the loop is
  the text, the sum of the edits and the one pass older pair of that sequence.
* `Ending`, `fixPasses_ending`: the four ways in which a run ends.
* `fixSource_returns_textAt`: **a run returns a text of the sequence with the edits that led to it.**
* `fixSource_takes_iff`: **the returned text can be read, unless ten passes all applied edits and the
  last of them broke it.**
* `fixSource_again`: **a second run changes nothing**, when the first one was not cut off.
-/

namespace RubyLint

open Finset

/-- A grammar takes a text: there is a tree for it, and the tree reports no fault. -/
def Grammar.takes (g : Grammar) (text : String) : Bool :=
  match ParsedFile.parse g (.ofString text) with
  | .ok _ => true
  | .error _ => false

namespace Analyzer

variable (a : Analyzer) (g : Grammar) (path : Path) (content : String)

/-- A text is analyzed without a syntax error. -/
def reads (text : String) : Bool :=
  match a.analyzeSource g path text with
  | .ok _ => true
  | .error _ => false

/-- One pass over a text; a text that cannot be read is left as it is. -/
def revise (text : String) : Revision :=
  match a.analyzeSource g path text with
  | .ok violations => Violation.applyFixes text violations
  | .error _ => ⟨text, 0, 0⟩

/-- The text after `i` passes, however many they are and whatever they make of it. -/
def textAt : ℕ → String
  | 0 => content
  | i + 1 => (a.revise g path (textAt i)).content

/-- Number of edits of the pass after `textAt i`. -/
def appliedAt (i : ℕ) : ℕ :=
  (a.revise g path (a.textAt g path content i)).applied

/-- Number of edits of the first `m` passes together. -/
def appliedUntil (m : ℕ) : ℕ :=
  ∑ i ∈ range m, a.appliedAt g path content i

/-- What the loop remembers after `m` passes: the text and the number of edits one pass before. -/
def previousAt : ℕ → Option (String × ℕ)
  | 0 => none
  | m + 1 => some (a.textAt g path content m, a.appliedUntil g path content m)

variable {a g path content}

@[simp]
theorem textAt_zero : a.textAt g path content 0 = content := rfl

theorem textAt_succ (i : ℕ) :
    a.textAt g path content (i + 1) = (a.revise g path (a.textAt g path content i)).content := rfl

theorem appliedUntil_succ (m : ℕ) :
    a.appliedUntil g path content (m + 1) =
      a.appliedUntil g path content m + a.appliedAt g path content m :=
  sum_range_succ _ m

/-- Only texts of Ruby files can fail to be read, and they fail when the grammar refuses them. -/
theorem reads_eq (text : String) : a.reads g path text = (!isRuby path || g.takes text) := by
  unfold reads analyzeSource Grammar.takes FileContext.inProject
  cases hp : isRuby path with
  | false => simp
  | true => cases hg : ParsedFile.parse g (.ofString text) <;> simp [hg]

theorem reads_of_takes {text : String} (h : g.takes text = true) : a.reads g path text = true := by
  rw [reads_eq, h, Bool.or_true]

theorem takes_of_reads (hp : isRuby path = true) {text : String} (h : a.reads g path text = true) :
    g.takes text = true := by
  rw [reads_eq, hp] at h; simpa using h

/-- A text that cannot be read comes with the error that says why. -/
theorem exists_error_of_not_reads {text : String} (h : a.reads g path text = false) :
    ∃ e, a.analyzeSource g path text = .error e := by
  unfold reads at h
  split at h
  · cases h
  · rename_i e he; exact ⟨e, he⟩

theorem not_reads_of_error {text : String} {e : SyntaxError}
    (h : a.analyzeSource g path text = .error e) : a.reads g path text = false := by
  unfold reads; rw [h]

/-- A pass that applied an edit had a text to read. -/
theorem reads_of_applied {text : String} (h : 0 < (a.revise g path text).applied) :
    a.reads g path text = true := by
  unfold revise at h; unfold reads
  split at h
  · rfl
  · simp at h

theorem fixPasses_zero (text : String) (k : ℕ) (previous : Option (String × ℕ)) :
    a.fixPasses g path 0 text k previous = ⟨text, k, .capped⟩ := rfl

/-- One round of the loop. -/
theorem fixPasses_succ (n : ℕ) (text : String) (k : ℕ) (previous : Option (String × ℕ)) :
    a.fixPasses g path (n + 1) text k previous =
      match a.analyzeSource g path text with
      | .error e =>
        match previous with
        | some (older, count) => ⟨older, count, .discarded e⟩
        | none => ⟨text, k, .unreadable e⟩
      | .ok violations =>
        if (Violation.applyFixes text violations).changed then
          a.fixPasses g path n (Violation.applyFixes text violations).content
            (k + (Violation.applyFixes text violations).applied) (some (text, k))
        else ⟨text, k, .settled⟩ := by
  exact rfl

/-- **A pass that applies an edit** moves the loop on to its text. -/
theorem fixPasses_edit {text : String} (h : 0 < (a.revise g path text).applied) (n k : ℕ)
    (previous : Option (String × ℕ)) :
    a.fixPasses g path (n + 1) text k previous =
      a.fixPasses g path n (a.revise g path text).content (k + (a.revise g path text).applied)
        (some (text, k)) := by
  unfold revise at h ⊢
  rw [fixPasses_succ]
  split at h
  · rename_i vs hvs
    simp only [hvs, Revision.changed, decide_eq_true h, if_true]
  · simp at h

/-- A pass that applies nothing ends the loop with the text it found. -/
theorem fixPasses_settled {text : String} (hr : a.reads g path text = true)
    (h : (a.revise g path text).applied = 0) (n k : ℕ) (previous : Option (String × ℕ)) :
    a.fixPasses g path (n + 1) text k previous = ⟨text, k, .settled⟩ := by
  unfold revise at h
  unfold reads at hr
  rw [fixPasses_succ]
  split at h
  · rename_i vs hvs
    simp [hvs, Revision.changed, h]
  · rename_i e he
    rw [he] at hr; cases hr

/-- A text that cannot be read ends the loop: with the remembered pair, if there is one. -/
theorem fixPasses_unread {text : String} {e : SyntaxError}
    (h : a.analyzeSource g path text = .error e) (n k : ℕ) (previous : Option (String × ℕ)) :
    a.fixPasses g path (n + 1) text k previous =
      match previous with
      | some (older, count) => ⟨older, count, .discarded e⟩
      | none => ⟨text, k, .unreadable e⟩ := by
  rw [fixPasses_succ, h]

/-- **Loop invariant.** After `m` passes that all applied an edit, the loop stands at the text and
the sum of the sequence, and remembers those of one pass before. -/
theorem fixPasses_after {m : ℕ} (h : ∀ i < m, 0 < a.appliedAt g path content i) (n : ℕ) :
    a.fixPasses g path (m + n) content 0 none =
      a.fixPasses g path n (a.textAt g path content m) (a.appliedUntil g path content m)
        (a.previousAt g path content m) := by
  induction m generalizing n with
  | zero => rw [Nat.zero_add]; rfl
  | succ m ih =>
    have hm := h m (Nat.lt_succ_self m)
    rw [show m + 1 + n = m + (n + 1) by omega, ih (fun i hi => h i (by omega)) (n + 1),
      fixPasses_edit hm, appliedUntil_succ]
    rfl

variable (a g path content) in
/-- **The four ways in which a run of at most `n` passes ends**: it is cut off, it settles, its last
pass is taken back, or it cannot even start. -/
inductive Ending (n : ℕ) : Fixed → Prop
  /-- All passes applied edits, and nobody looks at what the last of them left. -/
  | capped (edits : ∀ i < n, 0 < a.appliedAt g path content i) :
      Ending n ⟨a.textAt g path content n, a.appliedUntil g path content n, .capped⟩
  /-- Pass `m` found nothing to apply. -/
  | settled (m : ℕ) (lt : m < n) (edits : ∀ i < m, 0 < a.appliedAt g path content i)
      (reads : a.reads g path (a.textAt g path content m) = true)
      (idle : a.appliedAt g path content m = 0) :
      Ending n ⟨a.textAt g path content m, a.appliedUntil g path content m, .settled⟩
  /-- Pass `m` left a text that pass `m + 1` could not read. -/
  | discarded (m : ℕ) (e : SyntaxError) (lt : m + 1 < n)
      (edits : ∀ i < m + 1, 0 < a.appliedAt g path content i)
      (broken : a.analyzeSource g path (a.textAt g path content (m + 1)) = .error e) :
      Ending n ⟨a.textAt g path content m, a.appliedUntil g path content m, .discarded e⟩
  /-- The text could not be read in the first place. -/
  | unreadable (e : SyntaxError) (broken : a.analyzeSource g path content = .error e) :
      Ending n ⟨content, 0, .unreadable e⟩

variable (a g path content) in
/-- Every run ends in one of the four ways. -/
theorem fixPasses_ending (n : ℕ) :
    Ending a g path content n (a.fixPasses g path n content 0 none) := by
  by_cases hall : ∀ i < n, 0 < a.appliedAt g path content i
  · have h := fixPasses_after hall 0
    rw [Nat.add_zero] at h
    rw [h, fixPasses_zero]
    exact .capped hall
  · -- the first pass that applies nothing decides how the run ends
    have hex : ∃ j, j < n ∧ a.appliedAt g path content j = 0 := by
      by_contra hno
      exact hall fun i hi => Nat.pos_of_ne_zero fun h0 => hno ⟨i, hi, h0⟩
    obtain ⟨j, ⟨hj, hj0⟩, hmin⟩ := Nat.findX hex
    have hedits : ∀ i < j, 0 < a.appliedAt g path content i := fun i hi =>
      Nat.pos_of_ne_zero fun h0 => hmin i hi ⟨by omega, h0⟩
    obtain ⟨r, rfl⟩ : ∃ r, n = j + (r + 1) := ⟨n - j - 1, by omega⟩
    rw [fixPasses_after hedits (r + 1)]
    cases hread : a.reads g path (a.textAt g path content j) with
    | true =>
      rw [fixPasses_settled hread hj0]
      exact .settled j hj hedits hread hj0
    | false =>
      obtain ⟨e, he⟩ := exists_error_of_not_reads hread
      rw [fixPasses_unread he]
      cases j with
      | zero => exact .unreadable e he
      | succ m => exact .discarded m e hj hedits he

/-- A readable text is fixed without failure. -/
theorem fixSource_of_reads (h : a.reads g path content = true) :
    a.fixSource g path content = .ok (a.fixPasses g path maxFixPasses content 0 none) := by
  have hend := fixPasses_ending a g path content maxFixPasses
  unfold fixSource
  generalize a.fixPasses g path maxFixPasses content 0 none = fixed at hend
  cases hend with
  | capped | settled | discarded => rfl
  | unreadable e he => unfold reads at h; rw [he] at h; cases h

/-- A text that cannot be read is returned as it is, or reported if the analyzer is set so. -/
theorem fixSource_of_error {e : SyntaxError} (h : a.analyzeSource g path content = .error e) :
    a.fixSource g path content =
      if a.failOnParseError then .error e else .ok ⟨content, 0, .unreadable e⟩ := by
  unfold fixSource maxFixPasses
  rw [fixPasses_unread h]

/-- A run of no edits leaves the text alone. -/
theorem textAt_eq_of_appliedUntil {m : ℕ} (h : ∀ i < m, 0 < a.appliedAt g path content i)
    (h0 : a.appliedUntil g path content m = 0) : a.textAt g path content m = content := by
  cases m with
  | zero => rfl
  | succ m =>
    have := h m (Nat.lt_succ_self m)
    rw [appliedUntil_succ] at h0; omega

variable (a g path content) in
/-- A run over `content` ends with the text after `m` passes: all of them applied edits, and, unless
there were ten, pass `m` applies nothing, or breaks the text and is not the last one allowed, or
there is nothing to read to begin with. -/
structure EndsAfter (m : ℕ) : Prop where
  le : m ≤ 10
  reads : ∀ i < m, a.reads g path (a.textAt g path content i) = true
  edits : ∀ i < m, 0 < a.appliedAt g path content i
  stop : m < 10 →
    (a.reads g path (a.textAt g path content m) = true ∧ a.appliedAt g path content m = 0) ∨
    (a.reads g path (a.textAt g path content m) = true ∧
      a.reads g path (a.textAt g path content (m + 1)) = false ∧ m + 1 < 10) ∨
    (m = 0 ∧ a.reads g path content = false)

theorem EndsAfter.not_lt {m m' : ℕ} (h : EndsAfter a g path content m)
    (h' : EndsAfter a g path content m') : ¬m < m' := by
  intro hlt
  have hm := h'.edits m hlt
  rcases h.stop (by have := h'.le; omega) with ⟨-, h0⟩ | ⟨-, hbroken, hten⟩ | ⟨rfl, hbroken⟩
  · omega
  · -- the text that `m` gives up is one that `m'` has to read, or to end with
    rcases Nat.lt_or_ge (m + 1) m' with hnext | hlast
    · rw [h'.reads (m + 1) hnext] at hbroken; cases hbroken
    · obtain rfl : m' = m + 1 := by omega
      rcases h'.stop hten with ⟨hr, -⟩ | ⟨hr, -⟩ | ⟨h0, -⟩
      · rw [hr] at hbroken; cases hbroken
      · rw [hr] at hbroken; cases hbroken
      · omega
  · have hr := h'.reads 0 hlt
    rw [textAt_zero, hbroken] at hr; cases hr

/-- The end of a run is determined. -/
theorem EndsAfter.unique {m m' : ℕ} (h : EndsAfter a g path content m)
    (h' : EndsAfter a g path content m') : m' = m :=
  Nat.le_antisymm (Nat.le_of_not_lt (h.not_lt h')) (Nat.le_of_not_lt (h'.not_lt h))

theorem Ending.endsAfter {fixed : Fixed} (h : Ending a g path content 10 fixed) :
    ∃ m, EndsAfter a g path content m ∧
      ∃ stop, fixed = ⟨a.textAt g path content m, a.appliedUntil g path content m, stop⟩ := by
  cases h with
  | capped edits =>
    exact ⟨10, ⟨le_rfl, fun i hi => reads_of_applied (edits i hi), edits, fun h => absurd h (by omega)⟩,
      _, rfl⟩
  | settled m lt edits reads idle =>
    exact ⟨m, ⟨lt.le, fun i hi => reads_of_applied (edits i hi), edits,
      fun _ => Or.inl ⟨reads, idle⟩⟩, _, rfl⟩
  | discarded m e lt edits broken =>
    have hb := not_reads_of_error broken
    refine ⟨m, ⟨by omega, fun i hi => reads_of_applied (edits i (by omega)),
      fun i hi => edits i (by omega), fun _ => Or.inr (Or.inl ⟨?_, hb, lt⟩)⟩, _, rfl⟩
    exact reads_of_applied (edits m (Nat.lt_succ_self m))
  | unreadable e broken =>
    exact ⟨0, ⟨by omega, fun i hi => absurd hi (by omega), fun i hi => absurd hi (by omega),
      fun _ => Or.inr (Or.inr ⟨rfl, not_reads_of_error broken⟩)⟩, _, rfl⟩

/-- When a run fails: only for a Ruby text that the grammar refuses, under an analyzer set to fail. -/
theorem fixSource_error_iff :
    (∃ e, a.fixSource g path content = .error e) ↔
      isRuby path = true ∧ g.takes content = false ∧ a.failOnParseError = true := by
  have hreads : a.reads g path content = false ↔ isRuby path = true ∧ g.takes content = false := by
    rw [reads_eq]; simp
  rw [← and_assoc, ← hreads]
  cases hr : a.reads g path content with
  | true => rw [fixSource_of_reads hr]; simp
  | false =>
    obtain ⟨e, he⟩ := exists_error_of_not_reads hr
    rw [fixSource_of_error he]
    cases a.failOnParseError <;> simp

/-- Whatever a run returns, it ended in one of the four ways. -/
theorem ending_of_fixSource {fixed : Fixed} (h : a.fixSource g path content = .ok fixed) :
    Ending a g path content 10 fixed := by
  cases hr : a.reads g path content with
  | true =>
    rw [fixSource_of_reads hr] at h
    cases h
    exact fixPasses_ending a g path content maxFixPasses
  | false =>
    obtain ⟨e, he⟩ := exists_error_of_not_reads hr
    rw [fixSource_of_error he] at h
    split at h
    · cases h
    · cases h; exact .unreadable e he

variable (a g path content) in
/-- **What a fix run returns.** It fails for a Ruby text that the grammar refuses, if the analyzer is
set to fail on such. Otherwise there is one `m` at which the run ends, and it returns the text after
`m` passes with the edits of these passes. A run without edits returns the text it was given. -/
theorem fixSource_returns_textAt :
    ((∃ e, a.fixSource g path content = .error e) ↔
      isRuby path = true ∧ g.takes content = false ∧ a.failOnParseError = true) ∧
    (¬(isRuby path = true ∧ g.takes content = false ∧ a.failOnParseError = true) →
      ∃ m, EndsAfter a g path content m ∧ (∀ m', EndsAfter a g path content m' → m' = m) ∧
        ∃ stop, a.fixSource g path content =
          .ok ⟨a.textAt g path content m, ∑ i ∈ range m, a.appliedAt g path content i, stop⟩) ∧
    ∀ fixed, a.fixSource g path content = .ok fixed → fixed.applied = 0 →
      fixed.content = content := by
  refine ⟨fixSource_error_iff, fun hok => ?_, fun fixed hfixed h0 => ?_⟩
  · cases hf : a.fixSource g path content with
    | error e => exact absurd (fixSource_error_iff.1 ⟨e, hf⟩) hok
    | ok fixed =>
      obtain ⟨m, hm, stop, rfl⟩ := (ending_of_fixSource hf).endsAfter
      exact ⟨m, hm, fun m' => hm.unique, stop, rfl⟩
  · obtain ⟨m, hm, stop, rfl⟩ := (ending_of_fixSource hfixed).endsAfter
    exact textAt_eq_of_appliedUntil hm.edits h0

/-- **A fix run can break a text in its last pass only.** A Ruby text that the grammar takes is fixed
without failure, and the result can be read again exactly unless ten passes in a row applied edits
and the tenth left a text that the grammar refuses: nothing looks at that one. -/
theorem fixSource_takes_iff (hp : isRuby path = true) (hc : g.takes content = true) :
    ∃ fixed, a.fixSource g path content = .ok fixed ∧
      (g.takes fixed.content = true ↔
        ((∀ i < 10, 0 < a.appliedAt g path content i) →
          g.takes (a.textAt g path content 10) = true)) := by
  refine ⟨_, fixSource_of_reads (reads_of_takes hc), ?_⟩
  have hend := fixPasses_ending a g path content maxFixPasses
  generalize a.fixPasses g path maxFixPasses content 0 none = fixed at hend
  cases hend with
  | capped edits => exact ⟨fun h _ => h, fun h => h edits⟩
  | settled m lt edits reads idle =>
    refine ⟨fun _ hall => ?_, fun _ => takes_of_reads hp reads⟩
    have := hall m lt
    omega
  | discarded m e lt edits broken =>
    -- the text before the broken one was read, or the broken one would not exist
    have hm := takes_of_reads hp (reads_of_applied (edits m (Nat.lt_succ_self m)))
    refine ⟨fun _ hall => ?_, fun _ => hm⟩
    have hr : a.reads g path (a.textAt g path content (m + 1)) = true :=
      reads_of_applied (hall (m + 1) lt)
    rw [not_reads_of_error broken] at hr; cases hr
  | unreadable e broken =>
    have hr : a.reads g path content = true := reads_of_takes hc
    rw [not_reads_of_error broken] at hr; cases hr

/-- An analyzer whose only rule puts the letter `A` in front of constants. -/
def lengthening : Analyzer where
  root := ⟨"/"⟩
  surroundings := { workingDir := ⟨"/"⟩ }
  rules := [({ separator := "A" } : ConstantPrefix).rule]
  textRules := []
  exclude := []
  config := {}
  failOnParseError := false

/-- The grammar of texts that are one constant of fewer than `n` letters. -/
def oneConstant (n : ℕ) : Grammar := fun text =>
  if text.length < n then
    some (.node { kind := .other "program", span := ⟨0, text.length⟩ }
      [.node { kind := .constant, span := ⟨0, text.length⟩ } []])
  else none

/-- The tenth pass over `Foo` leaves a constant that is one letter too long, and it is returned. -/
theorem fixSource_breaks_in_last_pass :
    isRuby ⟨"a.rb"⟩ = true ∧ (oneConstant 13).takes "Foo" = true ∧
      ∃ fixed, lengthening.fixSource (oneConstant 13) ⟨"a.rb"⟩ "Foo" = .ok fixed ∧
        (oneConstant 13).takes fixed.content = false := by
  have hp : isRuby ⟨"a.rb"⟩ = true := by cbv
  have hc : (oneConstant 13).takes "Foo" = true := by cbv
  obtain ⟨fixed, hfixed, hiff⟩ := fixSource_takes_iff (a := lengthening) hp hc
  have hall : (List.range 10).all (fun i =>
      decide (0 < lengthening.appliedAt (oneConstant 13) ⟨"a.rb"⟩ "Foo" i)) = true := by
    cbv
  have hlast : (oneConstant 13).takes
      (lengthening.textAt (oneConstant 13) ⟨"a.rb"⟩ "Foo" 10) = false := by
    cbv
  refine ⟨hp, hc, fixed, hfixed, Bool.eq_false_iff.2 fun ht => ?_⟩
  have h := hiff.1 ht fun i hi => by
    simpa using List.all_eq_true.1 hall i (List.mem_range.2 hi)
  rw [hlast] at h; cases h

/-- **A second run changes nothing**, unless ten passes all applied edits in the first one: the text
it starts from has nothing to apply, or breaks in the first pass and is taken back again, or still
cannot be read. -/
theorem fixSource_again {fixed : Fixed} (h : a.fixSource g path content = .ok fixed)
    (hten : ∃ i < 10, a.appliedAt g path content i = 0) :
    ∃ again, a.fixSource g path fixed.content = .ok again ∧ again.content = fixed.content ∧
      again.applied = 0 := by
  cases ending_of_fixSource h with
  | capped edits =>
    obtain ⟨i, hi, h0⟩ := hten
    have := edits i hi
    omega
  | settled m lt edits reads idle =>
    refine ⟨_, fixSource_of_reads reads, ?_⟩
    unfold maxFixPasses
    rw [fixPasses_settled reads idle]
    exact ⟨rfl, rfl⟩
  | discarded m e lt edits broken =>
    have hm := edits m (Nat.lt_succ_self m)
    refine ⟨_, fixSource_of_reads (reads_of_applied hm), ?_⟩
    unfold maxFixPasses
    -- the bad pass is made again, and its text is again refused
    rw [fixPasses_edit hm, ← textAt_succ, fixPasses_unread broken]
    exact ⟨rfl, rfl⟩
  | unreadable e broken =>
    exact ⟨_, h, rfl, rfl⟩

/-- One pass over `Foo` is kept and the next is taken back; from `AFoo` the bad pass is taken back
at once. -/
theorem fixSource_again_after_discard :
    lengthening.fixSource (oneConstant 5) ⟨"a.rb"⟩ "Foo" = .ok ⟨"AFoo", 1, .discarded .noTree⟩ ∧
      lengthening.appliedAt (oneConstant 5) ⟨"a.rb"⟩ "Foo" 2 = 0 ∧
      ∃ again, lengthening.fixSource (oneConstant 5) ⟨"a.rb"⟩ "AFoo" = .ok again ∧
        again.content = "AFoo" ∧ again.applied = 0 := by
  have h0 : lengthening.revise (oneConstant 5) ⟨"a.rb"⟩ "Foo" = ⟨"AFoo", 1, 0⟩ := by cbv
  have h1 : lengthening.revise (oneConstant 5) ⟨"a.rb"⟩ "AFoo" = ⟨"AAFoo", 1, 0⟩ := by cbv
  have h2 : lengthening.analyzeSource (oneConstant 5) ⟨"a.rb"⟩ "AAFoo" = .error .noTree := by cbv
  have hrun : lengthening.fixSource (oneConstant 5) ⟨"a.rb"⟩ "Foo" =
      .ok ⟨"AFoo", 1, .discarded .noTree⟩ := by
    rw [fixSource_of_reads (reads_of_applied (by rw [h0]; decide)), maxFixPasses,
      fixPasses_edit (by rw [h0]; decide), h0, fixPasses_edit (by rw [h1]; decide), h1,
      fixPasses_unread h2]
    rfl
  have hidle : lengthening.appliedAt (oneConstant 5) ⟨"a.rb"⟩ "Foo" 2 = 0 := by cbv
  exact ⟨hrun, hidle, fixSource_again hrun ⟨2, by decide, hidle⟩⟩

end Analyzer

end RubyLint
