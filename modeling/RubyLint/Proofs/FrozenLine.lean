import Mathlib
import RubyLint.Proofs.FrozenFix
import RubyLint.Proofs.Splice

/-!
# The frozen comment as one more line

Applied alone, the fix of `FrozenLiteral` adds one line to a file and leaves its other lines as they
are, up to carriage returns at their ends. The place is read off the lines, while the insertion is
made at an offset from the table of line starts, so both views of the lines have to agree on where
the last interpreter comment ends.

* `LeadingRun`: the lines of a file, cut after the interpreter comments that it starts with.
* `exists_leadingRun`: the cut is there, and it is where `lastSpecial?` says.
* `plainFrom_untilBreak`: the text before a line feed has the lines in front of it.
* `applyFixes_inserts_line`: **the fix adds the comment as a line after the leading run, and settles
  the rule.**
-/

namespace RubyLint.FrozenLiteral

open Text Edit

variable {rev cs : List Char}

/-! ## The run of interpreter comments -/

/-- The lines of a file in two parts, where the first one is the run of interpreter comments that the
file starts with, blank lines in between included. The run ends with a comment, and the next written
line is no interpreter comment. -/
structure LeadingRun (before after : List (List Char)) : Prop where
  special : ∀ line ∈ before, isWritten line = true → isSpecial line = true
  last : ∀ line, before.getLast? = some line → isWritten line = true
  next : ∀ line, after.find? isWritten = some line → isSpecial line = false

theorem after?_isSome_iff {p l : List Char} : (after? p l).isSome = true ↔ p <+: l := by
  rw [Option.isSome_iff_exists]
  constructor
  · rintro ⟨rest, hrest⟩
    exact ⟨rest, (after?_eq_some_iff.1 hrest).symm⟩
  · rintro ⟨rest, hrest⟩
    exact ⟨rest, after?_eq_some_iff.2 hrest.symm⟩

/-- The interpreter's comments are comments. -/
theorem isComment_of_isSpecial {line : List Char} (h : isSpecial line = true) :
    isComment line = true := by
  have hstart : ['#'] <+: trimStart line := by
    rcases Bool.or_eq_true _ _ ▸ h with hshebang | hkey
    · obtain ⟨rest, rfl⟩ := after?_isSome_iff.1 hshebang
      exact ⟨'!' :: rest, rfl⟩
    · obtain ⟨key, hkey⟩ := Option.isSome_iff_exists.1 hkey
      obtain ⟨body, hbody, -⟩ := Option.bind_eq_some_iff.1 hkey
      have htrim : ['#'] <+: trim line := after?_isSome_iff.1 (hbody ▸ rfl)
      exact htrim.trans (List.rdropWhile_prefix _ _)
  obtain ⟨rest, hrest⟩ := hstart
  unfold isComment
  rw [← hrest]
  rfl

/-- The numbered interpreter comments at the start of some lines, blank lines passed over. -/
def specialRun (number : Nat) (ls : List (List Char)) : List (Nat × List Char) :=
  ((numbered number ls).filter fun l => isWritten l.2).takeWhile fun l => isSpecial l.2

/-- The scan for comments does not cut the scan for interpreter comments short. -/
theorem lastSpecial?_eq (s : Source) :
    lastSpecial? s = (specialRun 1 (s.lines.map trimReturns)).getLast?.map (·.1) := by
  have hrun : ((head s).takeWhile fun l => isSpecial l.2) =
      specialRun 1 (s.lines.map trimReturns) := by
    change ((((numbered 1 (s.lines.map trimReturns)).filter fun l => isWritten l.2).takeWhile
      fun l => isComment l.2).takeWhile fun l => isSpecial l.2) = _
    rw [List.takeWhile_takeWhile, specialRun]
    congr 1
    funext l
    cases hl : isSpecial l.2 with
    | false => simp
    | true => simp [isComment_of_isSpecial hl]
  unfold lastSpecial?
  rw [← hrun]

section
variable {k : Nat} {line : List Char} {ls : List (List Char)}

theorem specialRun_blank (hw : ¬isWritten line = true) :
    specialRun k (line :: ls) = specialRun (k + 1) ls := by
  unfold specialRun
  rw [numbered, List.filter_cons, if_neg hw]

theorem specialRun_special (hw : isWritten line = true) (hs : isSpecial line = true) :
    specialRun k (line :: ls) = (k, line) :: specialRun (k + 1) ls := by
  unfold specialRun
  rw [numbered, List.filter_cons, if_pos hw, List.takeWhile_cons, if_pos hs]

theorem specialRun_other (hw : isWritten line = true) (hs : ¬isSpecial line = true) :
    specialRun k (line :: ls) = [] := by
  unfold specialRun
  rw [numbered, List.filter_cons, if_pos hw, List.takeWhile_cons, if_neg hs]

end

/-- A line can join a run in front, unless it would be a blank line alone. -/
theorem LeadingRun.cons {before after : List (List Char)} {line : List Char}
    (h : LeadingRun before after) (hspecial : isWritten line = true → isSpecial line = true)
    (hlast : before = [] → isWritten line = true) : LeadingRun (line :: before) after where
  special := List.forall_mem_cons.2 ⟨hspecial, h.special⟩
  last := by
    intro l hl
    cases before with
    | nil => cases hl; exact hlast rfl
    | cons l' before => exact h.last l (by simpa using hl)
  next := h.next

/-- **The leading run ends where the scan for interpreter comments does.** -/
theorem exists_leadingRun (k : Nat) (ls : List (List Char)) :
    ∃ before after, ls = before ++ after ∧ LeadingRun before after ∧
      (specialRun (k + 1) ls).getLast?.map (·.1) =
        if before = [] then none else some (k + before.length) := by
  induction ls generalizing k with
  | nil => exact ⟨[], [], rfl, ⟨by simp, by simp, by simp⟩, rfl⟩
  | cons line ls ih =>
    obtain ⟨before, after, hls, hrun, hlast⟩ := ih (k + 1)
    by_cases hw : isWritten line = true
    · by_cases hs : isSpecial line = true
      · refine ⟨line :: before, after, by rw [hls, List.cons_append],
          hrun.cons (fun _ => hs) (fun _ => hw), ?_⟩
        have hnumber := Option.getD_map (fun l : Nat × List Char => l.1) (k + 1, line)
          (specialRun (k + 1 + 1) ls).getLast?
        rw [specialRun_special hw hs, List.getLast?_cons, Option.map_some, ← hnumber, hlast,
          if_neg (List.cons_ne_nil _ _), List.length_cons]
        split
        · rename_i hb; rw [hb]; rfl
        · rw [Option.getD_some]; congr 1; omega
      · -- a written line of another kind: the run is over before it starts
        refine ⟨[], line :: ls, rfl, ⟨by simp, by simp, ?_⟩, ?_⟩
        · rw [List.find?_cons_of_pos hw]
          rintro _ ⟨⟩
          exact Bool.eq_false_iff.2 hs
        · rw [specialRun_other hw hs]
          rfl
    · rw [specialRun_blank hw, hlast]
      by_cases hb : before = []
      · -- blank lines in front of no run belong to what follows
        subst hb
        refine ⟨[], line :: ls, rfl, ⟨by simp, by simp, ?_⟩, rfl⟩
        rw [List.find?_cons_of_neg hw, hls]
        exact hrun.next
      · refine ⟨line :: before, after, by rw [hls, List.cons_append],
          hrun.cons (fun h => absurd h hw) (fun h => absurd h hb), ?_⟩
        rw [if_neg hb, if_neg (List.cons_ne_nil _ _), List.length_cons]
        congr 1
        omega

/-! ## The lines of the new text -/

/-- The lines of a text without the carriage returns at their ends, when the characters in `rev` were
already read in reverse. -/
def plainFrom (rev cs : List Char) : List (List Char) :=
  (linesFrom rev cs).map trimReturns

theorem plainFrom_newline (rev cs : List Char) :
    plainFrom rev ('\n' :: cs) = trimReturns rev.reverse :: plainFrom [] cs := by
  unfold plainFrom
  rw [linesFrom_newline, List.map_cons, trimReturns_finishLine]

theorem plainFrom_cons {c : Char} (hc : c ≠ '\n') (rev cs : List Char) :
    plainFrom rev (c :: cs) = plainFrom (c :: rev) cs := by
  unfold plainFrom
  rw [linesFrom_cons hc]

/-- A line feed ends the lines of what is in front of it. -/
theorem plainFrom_append_newline (rev l r : List Char) :
    plainFrom rev (l ++ '\n' :: r) = plainFrom rev (l ++ ['\n']) ++ plainFrom [] r := by
  unfold plainFrom
  rw [linesFrom_append_newline, List.map_append]

/-- A carriage return in front of a line feed does not matter. -/
theorem plainFrom_append_return (rev l : List Char) :
    plainFrom rev (l ++ ['\r', '\n']) = plainFrom rev (l ++ ['\n']) := by
  induction l generalizing rev with
  | nil =>
    rw [List.nil_append, plainFrom_cons (by decide), plainFrom_newline, List.nil_append,
      plainFrom_newline]
    simp [trimReturns]
  | cons c l ih =>
    rw [List.cons_append, List.cons_append]
    by_cases hc : c = '\n'
    · subst hc; rw [plainFrom_newline, plainFrom_newline, ih]
    · rw [plainFrom_cons hc, plainFrom_cons hc, ih]

theorem plainFrom_dropReturn (l : List Char) :
    plainFrom [] (dropReturn l ++ ['\n']) = plainFrom [] (l ++ ['\n']) := by
  rcases dropReturn_cases l with h | h
  · rw [h]
  · have hreturn := plainFrom_append_return [] (dropReturn l)
    rw [List.append_cons, ← h] at hreturn
    exact hreturn.symm

/-- **The text before the `n`-th line feed**, with a line feed behind it, has the first `n` lines, and
what follows that line feed has the others. -/
theorem plainFrom_untilBreak {n : Nat} (hn : n < (plainFrom rev cs).length) :
    ∃ r, cs = untilBreak (n + 1) cs ++ r ∧ (r = [] ∨ r.head? = some '\n') ∧
      plainFrom rev cs = plainFrom rev (untilBreak (n + 1) cs ++ ['\n']) ++ plainFrom [] r.tail ∧
      (plainFrom rev (untilBreak (n + 1) cs ++ ['\n'])).length = n + 1 := by
  induction cs generalizing rev n with
  | nil =>
    -- the last line has no line feed of its own
    cases rev with
    | nil => cases hn
    | cons c rev =>
      obtain rfl : n = 0 := Nat.lt_one_iff.1 hn
      refine ⟨[], rfl, Or.inl rfl, ?_, ?_⟩ <;> rw [untilBreak_nil, List.nil_append, plainFrom_newline]
      · rfl
      · rfl
  | cons c cs ih =>
    by_cases hc : c = '\n'
    · subst hc
      cases n with
      | zero =>
        refine ⟨'\n' :: cs, rfl, Or.inr rfl, ?_, ?_⟩ <;>
          rw [untilBreak_one_newline, List.nil_append, plainFrom_newline]
        · rw [plainFrom_newline]; rfl
        · rfl
      | succ n =>
        rw [plainFrom_newline, List.length_cons, Nat.add_lt_add_iff_right] at hn
        obtain ⟨r, hr, hhead, hlines, hlength⟩ := ih hn
        refine ⟨r, ?_, hhead, ?_, ?_⟩ <;> rw [untilBreak_newline, List.cons_append]
        · rw [← hr]
        · rw [plainFrom_newline, plainFrom_newline, hlines, List.cons_append]
        · rw [plainFrom_newline, List.length_cons, hlength]
    · rw [plainFrom_cons hc] at hn ⊢
      obtain ⟨r, hr, hhead, hlines, hlength⟩ := ih hn
      refine ⟨r, ?_, hhead, ?_, ?_⟩ <;> rw [untilBreak_cons hc, List.cons_append]
      · rw [← hr]
      · rw [plainFrom_cons hc, hlines]
      · rw [plainFrom_cons hc, hlength]

/-- A text that stands at the start of a line and up to its end is a line. -/
theorem plainFrom_line {l r : List Char} (hl : ∀ c ∈ l, c ≠ '\n') (hne : l ≠ [])
    (hr : r = [] ∨ r.head? = some '\n') :
    plainFrom [] (l ++ r) = trimReturns l :: plainFrom [] r.tail := by
  have hread : plainFrom [] (l ++ r) = plainFrom l.reverse r := by
    unfold plainFrom
    rw [linesFrom_append hl, List.append_nil]
  rw [hread]
  cases r with
  | nil =>
    unfold plainFrom linesFrom
    simp [hne]
  | cons c r =>
    obtain rfl : c = '\n' := by simpa using hr
    rw [plainFrom_newline, List.reverse_reverse]
    rfl

/-- The comment is a line, also with a carriage return behind it. -/
theorem plainFrom_comment {back r : List Char} (hback : back = r ∨ back = '\r' :: r)
    (hr : r = [] ∨ r.head? = some '\n') :
    plainFrom [] (comment.toList ++ back) = comment.toList :: plainFrom [] r.tail := by
  have hline : ((comment.toList ++ ['\r']).all fun c => c != '\n') = true := by decide
  rw [List.all_eq_true] at hline
  rcases hback with rfl | rfl
  · rw [plainFrom_line (fun c hc => by simpa using hline c (List.mem_append_left _ hc)) (by decide) hr]
    congr 1
  · rw [List.append_cons, plainFrom_line (fun c hc => by simpa using hline c hc) (by decide) hr]
    congr 1

/-! ## The fix applied -/

section
variable {ctx : FileContext}

/-- The fix is an insertion. -/
theorem woven_fix (front back : List Char) (hstart : width front = (fix ctx).start) :
    Woven 0 [fix ctx] (front ++ back) (front ++ ((fix ctx).newText.toList ++ back)) := by
  have hlength : (fix ctx).location.length = 0 := by
    unfold fix
    split
    · exact Nat.sub_self _
    · rfl
  exact .edit front [] (by rw [Nat.zero_add, hstart]) hlength.symm (.done _ back)

/-- Without interpreter comments, the comment becomes the first line. -/
theorem inserted_top (h : lastSpecial? ctx.source = none) :
    ∃ new, Woven 0 [fix ctx] ctx.source.chars new ∧ opensWith new = true ∧
      plainFrom [] new = comment.toList :: plainFrom [] ctx.source.chars := by
  obtain ⟨htop, htext⟩ := fix_of_none h
  refine ⟨_, woven_fix [] _ (atTop_iff.1 htop).1.symm, ?_, ?_⟩
  · rw [htext, List.nil_append, List.append_assoc]
    exact opensWith_comment _
  · rw [htext, List.nil_append, List.append_assoc]
    exact plainFrom_comment (Or.inl rfl) (Or.inr rfl)

/-- Below the interpreter comments, the comment becomes the line after them. -/
theorem inserted_line {before after : List (List Char)}
    (hlines : plainFrom [] ctx.source.chars = before ++ after)
    (h : lastSpecial? ctx.source = some before.length) :
    ∃ new, Woven 0 [fix ctx] ctx.source.chars new ∧ opensWith new = true ∧
      plainFrom [] new = before ++ comment.toList :: after := by
  obtain ⟨m, hm, hclear⟩ := clear_of_lastSpecial? h
  obtain ⟨hstart, htext⟩ := fix_of_some h
  obtain ⟨back, hsplit, hend⟩ := ctx.source.lineEnd_split m
  have hexists : m < (plainFrom [] ctx.source.chars).length := by
    rw [hlines, List.length_append]
    omega
  obtain ⟨r, hr, hbreak, hcut, hlength⟩ := plainFrom_untilBreak hexists
  -- both views cut the lines at the same place
  obtain ⟨hbefore, hafter⟩ := List.append_inj (hlines.symm.trans hcut) (hm.trans hlength.symm)
  have hback : back = r ∨ back = '\r' :: r := by
    rcases dropReturn_cases (untilBreak (m + 1) ctx.source.chars) with hkeep | hdrop
    · rw [hkeep] at hsplit
      exact Or.inl (List.append_cancel_left (hsplit.symm.trans hr))
    · rw [hdrop, List.append_assoc] at hr
      exact Or.inr (List.append_cancel_left (hsplit.symm.trans hr))
  rw [hm, hend] at hstart
  rw [hsplit]
  refine ⟨_, woven_fix _ back hstart.symm, ?_, ?_⟩
  · rw [htext, List.cons_append]
    exact (opensWith_newline_comment _ back).2 hclear
  · rw [htext, List.cons_append, plainFrom_append_newline, plainFrom_dropReturn,
      plainFrom_comment hback hbreak, ← hbefore, ← hafter]

/-- The insertion of the comment, whatever the file starts with. -/
theorem exists_inserted (ctx : FileContext) :
    ∃ before after new, plainFrom [] ctx.source.chars = before ++ after ∧
      LeadingRun before after ∧ Woven 0 [fix ctx] ctx.source.chars new ∧ opensWith new = true ∧
      plainFrom [] new = before ++ comment.toList :: after := by
  obtain ⟨before, after, hlines, hrun, hlast⟩ :=
    exists_leadingRun 0 (plainFrom [] ctx.source.chars)
  have hspecial := (lastSpecial?_eq ctx.source).trans hlast
  by_cases hb : before = []
  · subst hb
    obtain ⟨new, hwoven, hopens, hnew⟩ := inserted_top hspecial
    exact ⟨[], after, new, hlines, hrun, hwoven, hopens, by rw [hnew, hlines]; rfl⟩
  · rw [if_neg hb, Nat.zero_add] at hspecial
    obtain ⟨new, hwoven, hopens, hnew⟩ := inserted_line hlines hspecial
    exact ⟨before, after, new, hlines, hrun, hwoven, hopens, hnew⟩

end

/-- With the comment in the head, nothing is reported. -/
theorem check_of_opensWith {ctx : FileContext} (h : opensWith ctx.source.chars = true) (root : Tree) :
    check ctx root = [] := by
  unfold check
  rw [hasComment_eq, h]
  rfl

/-- **The fix adds the comment as a line after the leading run, and settles the rule.** Wherever a
violation is reported, it is one, and its fix applies without conflict. The new text has the lines
of the old one, carriage returns at their ends aside, and the comment as one more line right after
the leading run of interpreter comments, so at the top when there is none. The comment is then in
the head of the text, and nothing is reported of that text, whatever its tree. -/
theorem applyFixes_inserts_line {ctx : FileContext} {root : Tree} (h : check ctx root ≠ []) :
    ∃ v new before after, check ctx root = [v] ∧
      Violation.applyFixes ctx.source.content [v] = ⟨new, 1, 0⟩ ∧
      ctx.source.lines.map trimReturns = before ++ after ∧ LeadingRun before after ∧
      (Source.ofString new).lines.map trimReturns = before ++ comment.toList :: after ∧
      hasComment (.ofString new) = true ∧
      ∀ (ctx' : FileContext) (root' : Tree), ctx'.source.content = new → check ctx' root' = [] := by
  obtain ⟨before, after, new, hlines, hrun, hwoven, hopens, hnew⟩ := exists_inserted ctx
  obtain ⟨v, hcheck, hedit⟩ : ∃ v, check ctx root = [v] ∧ v.edit? = some (fix ctx) := by
    unfold check at h ⊢
    split
    · rename_i hsettled; exact absurd (if_pos hsettled) h
    · exact ⟨_, rfl, rfl⟩
  have hchars : (Source.ofString (String.ofList new)).chars = new := String.toList_ofList
  refine ⟨v, String.ofList new, before, after, hcheck, ?_, hlines, hrun, ?_, ?_, ?_⟩
  · unfold Violation.applyFixes
    rw [List.filterMap_cons_some hedit, List.filterMap_nil]
    rw [ctx.source.chars_eq] at hwoven
    exact applyAll_of_woven hwoven
  · rw [← hnew, Source.lines, hchars]
    rfl
  · rw [hasComment_ofList, hopens]
  · intro ctx' root' hcontent
    refine check_of_opensWith ?_ root'
    rw [ctx'.source.chars_eq, hcontent, String.toList_ofList]
    exact hopens

/-- A file with a shebang, a blank line, an option and a note, with line ends of both kinds and none
at its end. -/
def mixedEnds : FileContext :=
  .standalone ⟨"a.rb"⟩ "\n#!/usr/bin/env ruby\r\n\n# typed: true\r\n# a note\nputs 'x'"

/-- The tree of this file. -/
def mixedEndsTree : Tree :=
  .node { kind := .other "program", span := ⟨1, 55⟩ }
    [.node { kind := .comment, span := ⟨1, 20⟩ } [], .node { kind := .comment, span := ⟨23, 36⟩ } [],
      .node { kind := .comment, span := ⟨38, 46⟩ } [],
      .node { kind := .call, span := ⟨47, 55⟩ }
        [.node { kind := .identifier, span := ⟨47, 51⟩, field := some .method } [],
          .node { kind := .other "argument_list", span := ⟨52, 55⟩, field := some .arguments }
            [.node { kind := .string, span := ⟨52, 55⟩ } []]]]

/-- The comment goes between the option and the note, in front of the carriage return, and the new
text is settled. -/
theorem applyFixes_inserts_line_mixedEnds :
    check mixedEnds mixedEndsTree ≠ [] ∧
      ∃ v new, check mixedEnds mixedEndsTree = [v] ∧
        Violation.applyFixes mixedEnds.source.content [v] = ⟨new, 1, 0⟩ ∧
        new = "\n#!/usr/bin/env ruby\r\n\n# typed: true\n# frozen_string_literal: true\r\n" ++
          "# a note\nputs 'x'" ∧
        ∀ (ctx : FileContext) (root : Tree), ctx.source.content = new → check ctx root = [] := by
  have hlength : (check mixedEnds mixedEndsTree).length = 1 := by decide +kernel
  have hreported : check mixedEnds mixedEndsTree ≠ [] :=
    List.ne_nil_of_length_eq_add_one hlength
  have hcontent : (Violation.applyFixes mixedEnds.source.content
      (check mixedEnds mixedEndsTree)).content =
      "\n#!/usr/bin/env ruby\r\n\n# typed: true\n# frozen_string_literal: true\r\n" ++
        "# a note\nputs 'x'" := by
    decide +kernel
  obtain ⟨v, new, -, -, hcheck, hnew, -, -, -, -, hsettled⟩ := applyFixes_inserts_line hreported
  rw [hcheck, hnew] at hcontent
  exact ⟨hreported, v, new, hcheck, hnew, hcontent, hsettled⟩

end RubyLint.FrozenLiteral
