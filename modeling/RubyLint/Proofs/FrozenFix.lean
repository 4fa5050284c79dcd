import Mathlib
import RubyLint.Proofs.Batch
import RubyLint.Proofs.Catalog
import RubyLint.Proofs.FrozenHead

/-!
# The frozen comment among other fixes

One pass applies the fixes of all rules together. The comment that `FrozenLiteral` inserts counts
only if nothing but comments comes to stand in front of it. In the recommended preset the prefix of
constants is written first, so a constant at the very start of a file takes the place of the comment.

* `ConstantPrefix.exists_colon`: the fixes of constants are code.
* `exists_edits`: the edits of the recommended preset, in the order in which they are listed.
* `hasComment_applyFixes_iff`: **when the inserted comment counts.**
-/

namespace RubyLint

/-! ## What the fix of a constant starts with -/

theorem foldl_append_toList (separator : String) (segments : List String) (text : String) :
    (segments.foldl (fun text segment => text ++ separator ++ segment) text).toList =
      text.toList ++ segments.flatMap fun s => separator.toList ++ s.toList := by
  induction segments generalizing text with
  | nil => simp
  | cons s segments ih => rw [List.foldl_cons, ih]; simp

theorem NamePath.toList_render (p : NamePath) (separator : String) :
    (p.render separator).toList = p.segments.flatMap fun s => separator.toList ++ s.toList := by
  unfold NamePath.render; rw [foldl_append_toList]; simp

theorem Outline.exists_segments {o : Outline} {names : List String} {ctx path : NamePath}
    (h : o.locate? names ctx = some path) : ∃ s segments, path.segments = s :: segments := by
  unfold Outline.locate? at h
  split at h
  · cases h
  · rename_i first rest
    obtain ⟨⟨_, found⟩, -, rfl⟩ := Option.map_eq_some_iff.1 h
    cases hs : found.context.segments with
    | nil => exact ⟨first, rest, by simp [NamePath.join, hs]⟩
    | cons s segments => exact ⟨s, segments ++ first :: rest, by simp [NamePath.join, hs]⟩

/-- **A constant's fix is code**: it starts with the separator, which is a colon unless the options
say otherwise. -/
theorem ConstantPrefix.exists_colon {r : ConstantPrefix} (hr : r.separator = "::")
    {ctx : FileContext} {o : Outline} {w : Violation} {x : Edit} (hw : w ∈ r.check ctx o)
    (hx : w.edit? = some x) : ∃ t, x.newText.toList = ':' :: t := by
  obtain ⟨id, -, rfl⟩ := List.mem_map.1 hw
  change (r.suggestion ctx o id).edit = some x at hx
  have hsep : r.separator.toList = [':', ':'] := by rw [hr]; rfl
  unfold ConstantPrefix.suggestion at hx
  split at hx
  · rename_i path hpath
    cases hx
    unfold ConstantPrefix.fullPath? at hpath
    obtain ⟨s, segments, hs⟩ := Outline.exists_segments (Option.eq_some_of_filter_eq_some hpath)
    refine ⟨':' :: (s.toList ++ segments.flatMap fun s => r.separator.toList ++ s.toList), ?_⟩
    rw [NamePath.toList_render, hs, List.flatMap_cons, hsep]
    rfl
  · cases hx
    exact ⟨[':'], hsep⟩

/-- Without a table for any rule, nothing is opted in to. -/
theorem withOptedIn_default {α : Type} (name : α → String) (selected available : List α) :
    withOptedIn {} name selected available = selected := by
  induction available with
  | nil => rfl
  | cons r available ih => exact ih

/-- The recommended preset starts with the prefix of constants and the frozen comment. -/
theorem recommended_rules : ∃ more, (Preset.recommended.select {}).rules =
    ConstantPrefix.rule {} :: FrozenLiteral.rule :: more := by
  obtain ⟨more, hall⟩ : ∃ more, allRules {} =
    ConstantPrefix.rule {} :: FrozenLiteral.rule :: more := ⟨_, rfl⟩
  refine ⟨more.filter fun r => Preset.recommended.includes r.name, ?_⟩
  simp only [Preset.select, withOptedIn_default, hall]
  rw [List.filter_cons_of_pos (by decide), List.filter_cons_of_pos (by decide)]

/-- An analyzer with the rules of the recommended preset, as they are without a configuration. -/
structure Analyzer.IsRecommended (a : Analyzer) : Prop where
  rules : a.rules = (Preset.recommended.select {}).rules
  textRules : a.textRules = (Preset.recommended.select {}).textRules

/-- A violation in the name of a rule of the catalogue is one of that rule. -/
theorem Analyzer.IsRecommended.mem_runRule {a : Analyzer} (ha : a.IsRecommended) {path : Path}
    {ctx : FileContext} {index : AllowIndex} {file : ParsedFile} {r : Rule} {v : Violation}
    (hr : r ∈ allRules {}) (hrule : v.rule = r.name)
    (hv : v ∈ a.rules.flatMap (a.runRule ctx index file) ++
      (a.textRulesFor path).flatMap (a.runTextRule ctx index)) :
    v ∈ a.runRule ctx index file r := by
  apply Analyzer.mem_runRule_of_rule _ _ hr hv hrule
  · intro r' hr'
    rw [ha.rules] at hr'
    exact Preset.mem_allRules hr'
  · intro r' hr'
    rw [ha.textRules] at hr'
    exact Preset.mem_allTextRules hr'

namespace FrozenLiteral

open Text Edit

variable {a : Analyzer} {grammar : Grammar} {path : Path} {content : String}
  {violations : List Violation} {ctx : FileContext} {index : AllowIndex} {file : ParsedFile}
  {v : Violation} {e : Edit} {constants others before after : List Edit}

theorem edit_of_mem_check (hv : v ∈ FrozenLiteral.rule.check ctx file) :
    v.edit? = some (fix ctx) := by
  change v ∈ check ctx file.root at hv
  unfold check at hv
  split at hv
  · cases hv
  · rw [List.mem_singleton] at hv; subst hv; rfl

theorem fix_of_none (h : lastSpecial? ctx.source = none) :
    (fix ctx).atTop = true ∧ (fix ctx).newText.toList = comment.toList ++ ['\n'] := by
  unfold fix
  rw [h]
  exact ⟨rfl, String.toList_append⟩

theorem fix_of_some {n : Nat} (h : lastSpecial? ctx.source = some n) :
    (fix ctx).start = ctx.source.lineEnd n ∧
      (fix ctx).newText.toList = '\n' :: comment.toList := by
  unfold fix
  rw [h]
  exact ⟨rfl, String.toList_append⟩

theorem eq_fix (hv : v ∈ a.runRule ctx index file FrozenLiteral.rule) (he : v.edit? = some e) :
    e = fix ctx := by
  obtain ⟨u, hu, hue⟩ := Analyzer.edit_of_mem_runRule hv he
  rw [edit_of_mem_check hu] at hue
  exact (Option.some.inj hue).symm

theorem exists_filterMap (hv : v ∈ a.runRule ctx index file FrozenLiteral.rule)
    (he : v.edit? = some e) :
    ∃ again, (a.runRule ctx index file FrozenLiteral.rule).filterMap (·.edit?) = e :: again := by
  have hmem := List.mem_filterMap.2 ⟨v, hv, he⟩
  cases hl : (a.runRule ctx index file FrozenLiteral.rule).filterMap (·.edit?) with
  | nil => rw [hl] at hmem; cases hmem
  | cons x again =>
    obtain ⟨w, hw, hx⟩ := List.mem_filterMap.1 (hl ▸ List.mem_cons_self)
    exact ⟨again, by rw [eq_fix hw hx, eq_fix hv he]⟩

/-- **The edits of the recommended preset**: those of constants, which are code, then the comment, and
then those of the other rules. -/
theorem exists_edits (ha : a.IsRecommended) (hruby : isRuby path = true)
    (h : a.analyzeSource grammar path content = .ok violations) (hv : v ∈ violations)
    (hrule : v.rule = info.name) (he : v.edit? = some e) :
    ∃ constants others, violations.filterMap (·.edit?) = constants ++ e :: others ∧
      e = fix (.inProject path content a.root) ∧
      (∀ x ∈ constants, ∃ t, x.newText.toList = ':' :: t) ∧
      ∀ x, x ∈ constants ↔
        ∃ w ∈ violations, w.rule = ConstantPrefix.ruleName ∧ w.edit? = some x := by
  obtain ⟨file, hvs⟩ := Analyzer.analyzeSource_ruby hruby h
  obtain ⟨more, hrules⟩ := recommended_rules
  set run := a.runRule (.inProject path content a.root) (.ofText content.toList) file with hrun
  set texts := (a.textRulesFor path).flatMap
    (a.runTextRule (.inProject path content a.root) (.ofText content.toList)) with htexts
  -- the first two rules of the preset, and then everything else
  have hlist : violations = run (ConstantPrefix.rule {}) ++
      (run FrozenLiteral.rule ++ (more.flatMap run ++ texts)) := by
    rw [hvs, ha.rules, hrules, List.flatMap_cons, List.flatMap_cons]; simp
  have hfrozen : v ∈ run FrozenLiteral.rule :=
    ha.mem_runRule (List.mem_cons_of_mem _ List.mem_cons_self) hrule (hvs ▸ hv)
  obtain ⟨again, hagain⟩ := exists_filterMap hfrozen he
  refine ⟨(run (ConstantPrefix.rule {})).filterMap (·.edit?),
    again ++ (more.flatMap run ++ texts).filterMap (·.edit?), ?_, eq_fix hfrozen he, ?_, ?_⟩
  · rw [hlist, List.filterMap_append, List.filterMap_append, hagain, List.cons_append]
  · intro x hx
    obtain ⟨w, hw, hx⟩ := List.mem_filterMap.1 hx
    obtain ⟨u, hu, hux⟩ := Analyzer.edit_of_mem_runRule hw hx
    exact ConstantPrefix.exists_colon rfl hu hux
  · intro x
    rw [List.mem_filterMap]
    constructor
    · rintro ⟨w, hw, hx⟩
      refine ⟨w, ?_, Analyzer.rule_of_mem_runRule (ConstantPrefix.rule_signs {}) hw, hx⟩
      rw [hlist]
      exact List.mem_append_left _ hw
    · rintro ⟨w, hw, hname, hx⟩
      exact ⟨w, ha.mem_runRule List.mem_cons_self hname (hvs ▸ hw), hx⟩

theorem hasComment_ofList (cs : List Char) :
    hasComment (.ofString (String.ofList cs)) = opensWith cs := by
  rw [hasComment_eq]; exact congrArg opensWith String.toList_ofList

theorem inFront_of_top (he : e.atTop = true) (content : String) (before : List Edit) :
    inFront content before e = weave [] 0 before := by
  unfold inFront; rw [(atTop_iff.1 he).1, upTo?_zero, Option.getD_some]

/-- **A comment at the top** counts unless code is inserted there as well: that code is listed earlier,
so it is accepted first and the comment ends up behind it. -/
theorem hasComment_of_top (he : e.atTop = true) (htext : e.newText.toList = comment.toList ++ ['\n'])
    (hcode : ∀ x ∈ constants, ∃ t, x.newText.toList = ':' :: t)
    (hacc : accepted content (constants ++ e :: others) = before ++ e :: after) :
    (hasComment (.ofString (applyAll content (constants ++ e :: others)).content) = true ↔
      Clear (inFront content before e)) ∧
    (hasComment (.ofString (applyAll content (constants ++ e :: others)).content) = true ↔
      ∀ x ∈ constants, x.atTop = false) := by
  rw [inFront_of_top he, applyAll_content, hasComment_ofList]
  by_cases hall : ∀ x ∈ constants, x.atTop = false
  · -- the comment is accepted first; should it be listed twice, the text before its copy starts with it
    obtain ⟨rest, hrest⟩ := accepted_of_top content others he hall
    have hopens : opensWith (weave content.toList 0 (e :: rest)) = true := by
      rw [weave_top he, htext, List.append_assoc]; exact opensWith_comment _
    have hclear : Clear (weave [] 0 before) := by
      cases before with
      | nil => exact clear_nil
      | cons x before =>
        rw [hrest] at hacc
        cases hacc
        rw [weave_top he, htext, List.append_assoc]; exact clear_comment _
    rw [hrest]
    exact ⟨iff_of_true hopens hclear, iff_of_true hopens hall⟩
  · -- the first of the constants at the top is accepted first, and the comment somewhere behind it
    obtain ⟨earlier, x, later, rfl, hx, hearlier⟩ := exists_first_top hall
    obtain ⟨t, ht⟩ := hcode x (List.mem_append_right _ List.mem_cons_self)
    obtain ⟨rest, hrest⟩ := accepted_of_top content (later ++ e :: others) hx hearlier
    rw [List.append_assoc, List.cons_append] at hacc ⊢
    have hopens : ¬opensWith (weave content.toList 0 (x :: rest)) = true := by
      rw [weave_top hx, ht, List.cons_append, opensWith_colon]; exact Bool.false_ne_true
    have hclear : ¬Clear (weave [] 0 before) := by
      rw [hrest] at hacc
      cases before with
      | nil =>
        -- the comment itself is no code
        cases hacc
        rw [htext] at ht
        exact absurd (List.cons.inj ht).1 (by decide)
      | cons y before =>
        cases hacc
        rw [weave_top hx, ht]; exact not_clear_colon _
    rw [hrest]
    exact ⟨iff_of_false hopens hclear, iff_of_false hopens hall⟩

/-- **A comment below the interpreter's lines** counts when what is put in front of it is clear. -/
theorem hasComment_of_line {edits : List Edit} (htext : e.newText.toList = '\n' :: comment.toList)
    (hacc : accepted content edits = before ++ e :: after) :
    hasComment (.ofString (applyAll content edits).content) = true ↔
      Clear (inFront content before e) := by
  obtain ⟨rest, hsplit⟩ := applyAll_content_split hacc
  rw [hsplit, hasComment_ofList, htext, List.cons_append]
  exact opensWith_newline_comment _ rest

/-- With no edit in front of it, the comment stands below comments only. -/
theorem clear_inFront_nil (he : e = fix ctx) (hctx : ctx.source = .ofString content) :
    Clear (inFront content [] e) := by
  cases hn : lastSpecial? ctx.source with
  | none =>
    obtain ⟨htop, -⟩ := fix_of_none hn
    rw [he, inFront_of_top htop]
    exact clear_nil
  | some n =>
    obtain ⟨m, rfl, hclear⟩ := clear_of_lastSpecial? hn
    obtain ⟨back, hchars, hend⟩ := ctx.source.lineEnd_split m
    have hcontent : content.toList = dropReturn (untilBreak (m + 1) ctx.source.chars) ++ back := by
      rw [← hchars, hctx]; rfl
    unfold inFront
    rw [he, (fix_of_some hn).1, hend, hcontent, upTo?_append, Option.getD_some, weave_nil,
      from?_zero, Option.getD_some]
    exact hclear

/-- **When the inserted comment counts.** Among the fixes of the recommended preset, an accepted comment
is in the head of the new text exactly when what the batch puts in front of it is clear, and so it is
when nothing is accepted earlier. In a file without interpreter comments, where the comment goes to
the top, it counts exactly when no constant is to be prefixed there. -/
theorem hasComment_applyFixes_iff (ha : a.IsRecommended) (hruby : isRuby path = true)
    (h : a.analyzeSource grammar path content = .ok violations) (hv : v ∈ violations)
    (hrule : v.rule = info.name) (he : v.edit? = some e)
    (hacc : accepted content (violations.filterMap (·.edit?)) = before ++ e :: after) :
    (hasComment (.ofString (Violation.applyFixes content violations).content) = true ↔
      Clear (inFront content before e)) ∧
    (before = [] →
      hasComment (.ofString (Violation.applyFixes content violations).content) = true) ∧
    (lastSpecial? (.ofString content) = none →
      (hasComment (.ofString (Violation.applyFixes content violations).content) = true ↔
        ∀ w ∈ violations, w.rule = ConstantPrefix.ruleName → ∀ x, w.edit? = some x →
          x.atTop = false)) := by
  obtain ⟨constants, others, hedits, hfix, hcode, hconstants⟩ := exists_edits ha hruby h hv hrule he
  -- two shapes of the comment: at the top, or on a new line below the interpreter's comments
  have hiff : hasComment (.ofString (Violation.applyFixes content violations).content) = true ↔
      Clear (inFront content before e) := by
    unfold Violation.applyFixes
    cases hn : lastSpecial? (FileContext.inProject path content a.root).source with
    | none =>
      obtain ⟨htop, htext⟩ := fix_of_none hn
      rw [hedits] at hacc ⊢
      rw [← hfix] at htop htext
      exact (hasComment_of_top htop htext hcode hacc).1
    | some n =>
      obtain ⟨-, htext⟩ := fix_of_some hn
      rw [← hfix] at htext
      exact hasComment_of_line htext hacc
  refine ⟨hiff, ?_, ?_⟩
  · rintro rfl
    exact hiff.2 (clear_inFront_nil hfix rfl)
  · intro hn
    have hhead : lastSpecial? (FileContext.inProject path content a.root).source = none := hn
    obtain ⟨htop, htext⟩ := fix_of_none hhead
    rw [← hfix] at htop htext
    unfold Violation.applyFixes
    rw [hedits] at hacc ⊢
    rw [(hasComment_of_top htop htext hcode hacc).2]
    constructor
    · intro hall w hw hname x hx
      exact hall x ((hconstants x).2 ⟨w, hw, hname, hx⟩)
    · intro hall x hx
      obtain ⟨w, hw, hname, hx⟩ := (hconstants x).1 hx
      exact hall w hw hname x hx

/-- An analyzer with the recommended preset and no configuration. -/
def recommended : Analyzer where
  root := ⟨"/"⟩
  surroundings := { workingDir := ⟨"/"⟩ }
  rules := (Preset.recommended.select {}).rules
  textRules := (Preset.recommended.select {}).textRules
  exclude := []
  config := {}
  failOnParseError := false

/-- The tree of a constant and a string on two lines. -/
def constantAndString : Grammar := fun _ =>
  some (.node { kind := .other "program", span := ⟨0, 8⟩ }
    [.node { kind := .constant, span := ⟨0, 3⟩ } [],
      .node { kind := .string, span := ⟨4, 7⟩ }
        [.node { kind := .other "string_content", span := ⟨5, 6⟩ } []]])

/-- An insertion at the top of `a.rb`. -/
def insertion (text : String) : Edit :=
  ⟨{ file := ⟨"a.rb"⟩, line := 1, column := 1 }, text⟩

/-- What is reported of the constant. -/
def bareConstant : Violation :=
  (ConstantPrefix.info {}).violation { file := ⟨"a.rb"⟩, line := 1, column := 1, length := 3 }
    (ConstantPrefix.message {})
    (some { message := "Prefix with `::`", edit := some (insertion "::") })

/-- What is reported of the string. -/
def missingComment : Violation :=
  info.violation { file := ⟨"a.rb"⟩, line := 1, column := 1 } message
    (some { message := "Add `# frozen_string_literal: true`",
            edit := some (insertion (comment ++ "\n")) })

/-- With `Foo` on the first line, the prefix is written in front of the comment, and the new text does
not have the comment in its head. -/
theorem comment_behind_constant :
    recommended.IsRecommended ∧ isRuby ⟨"/a.rb"⟩ = true ∧
      recommended.analyzeSource constantAndString ⟨"/a.rb"⟩ "Foo\n\"x\"\n" =
        .ok [bareConstant, missingComment] ∧
      accepted "Foo\n\"x\"\n" ([bareConstant, missingComment].filterMap (·.edit?)) =
        [insertion "::"] ++ insertion (comment ++ "\n") :: [] ∧
      hasComment (.ofString (Violation.applyFixes "Foo\n\"x\"\n"
        [bareConstant, missingComment]).content) = false := by
  have ha : recommended.IsRecommended := ⟨rfl, rfl⟩
  have hp : isRuby ⟨"/a.rb"⟩ = true := by cbv
  have h : recommended.analyzeSource constantAndString ⟨"/a.rb"⟩ "Foo\n\"x\"\n" =
      .ok [bareConstant, missingComment] := by
    cbv
  have hacc : accepted "Foo\n\"x\"\n" ([bareConstant, missingComment].filterMap (·.edit?)) =
      [insertion "::"] ++ insertion (comment ++ "\n") :: [] := by
    cbv
  have hhead : lastSpecial? (.ofString "Foo\n\"x\"\n") = none := by cbv
  have hmem : missingComment ∈ [bareConstant, missingComment] :=
    List.mem_cons_of_mem _ List.mem_cons_self
  obtain ⟨-, -, hiff⟩ := hasComment_applyFixes_iff ha hp h hmem rfl rfl hacc
  refine ⟨ha, hp, h, hacc, Bool.eq_false_iff.2 fun hcomment => ?_⟩
  have htop := (hiff hhead).1 hcomment bareConstant List.mem_cons_self rfl (insertion "::") rfl
  cases htop

end FrozenLiteral

end RubyLint
