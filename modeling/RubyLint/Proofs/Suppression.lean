import Mathlib
import RubyLint.Analyzer.Basic
import RubyLint.Proofs.Directives

/-!
# What directives leave of the violations

A directive speaks for its own line and for the next one. Whether a violation is reported depends on
the two lines that can hold a directive for it, and on whether its rule asks for a reason.

* `allowing?`: the directive for a rule at an offset, read from the two lines themselves.
* `find?_location`: it is the one that the index finds for the line number of the offset.
* `settle_location`: **what is left of a violation depends on its line and the line before.**
* `Analyzer.findings`, `Analyzer.textFindings`: what rules find when no directive counts.
* `Analyzer.analyzeSource_reason`: **what a rule that asks for a reason finds is never dropped without
  one.**
-/

namespace RubyLint

open Text

namespace Text

/-- The text between the line feeds around an offset. -/
def lineAt (offset : Nat) (chars : List Char) : List Char :=
  lineAcross ((upTo? offset chars).getD []) ((from? offset chars).getD [])

/-- The text of the line before the one that holds an offset, if there is one. -/
def lineBefore? (offset : Nat) (chars : List Char) : Option (List Char) :=
  lineAbove? ((upTo? offset chars).getD [])

end Text

/-- The directive for a rule at an offset: that of its line if it covers the rule, else that of the
line before if it covers the rule. -/
def allowing? (chars : List Char) (offset : Nat) (rule : String) : Option Directive :=
  ((Directive.read? (lineAt offset chars)).filter (·.covers rule)).or
    (((lineBefore? offset chars).bind Directive.read?).filter (·.covers rule))

/-- **The index finds the directive that stands in the two lines.** -/
theorem find?_location (ctx : FileContext) {start : Nat} (stop : Nat) (rule : String)
    (hstart : isBoundary start ctx.source.chars = true) :
    (AllowIndex.ofText ctx.source.chars).find? (ctx.location start stop).line rule =
      allowing? ctx.source.chars start rule := by
  obtain ⟨front, back, hsplit, rfl⟩ := isBoundary_iff.1 hstart
  have hline : (ctx.location (width front) stop).line = front.count '\n' + 1 :=
    ctx.source.position_line hsplit
  unfold AllowIndex.find? allowing? lineAt lineBefore?
  rw [hline, hsplit, upTo?_append, from?_append]
  simp only [Option.getD_some, Nat.add_sub_cancel, AllowIndex.at?_here, AllowIndex.at?_above]

theorem AllowIndex.find?_of_isEmpty {index : AllowIndex} (h : index.isEmpty = true) (line : Nat)
    (rule : String) : index.find? line rule = none := by
  have hentries : index.entries = [] := List.isEmpty_iff.1 h
  unfold find? at?
  rw [hentries]
  rfl

/-- Looking up each violation changes nothing when there is no directive at all. -/
theorem settle_eq_filterMap (index : AllowIndex) (rule : String) (requiresReason : Bool)
    (violations : List Violation) :
    settle index rule requiresReason violations =
      violations.filterMap (settleOne? index rule requiresReason) := by
  unfold settle
  split
  · rename_i h
    have hsome : settleOne? index rule requiresReason = some := by
      funext v; unfold settleOne?; rw [AllowIndex.find?_of_isEmpty h]
    rw [hsome, List.filterMap_some]
  · rfl

/-- **What is left of a violation depends on its line and the line before.** Without a directive for
its rule there it stays; with one it is dropped, if the directive gives a reason or none is asked
for; otherwise a warning stands in its place. -/
theorem settle_location (ctx : FileContext) (rule : String) (requiresReason : Bool) (v : Violation)
    (start stop : Nat) (hv : v.location = ctx.location start stop)
    (hstart : isBoundary start ctx.source.chars = true) :
    (allowing? ctx.source.chars start rule = none →
      settle (.ofText ctx.source.chars) rule requiresReason [v] = [v]) ∧
    (∀ d, allowing? ctx.source.chars start rule = some d →
      (d.reason ≠ none ∨ requiresReason = false →
        settle (.ofText ctx.source.chars) rule requiresReason [v] = []) ∧
      (d.reason = none → requiresReason = true →
        ∃ w, settle (.ofText ctx.source.chars) rule requiresReason [v] = [w] ∧
          w.severity = .warning ∧ w.code = v.code ∧ w.location = v.location ∧ w.rule = rule ∧
          w.edit? = none)) := by
  have hfind := find?_location ctx stop rule hstart
  rw [← hv] at hfind
  rw [settle_eq_filterMap, ← hfind]
  refine ⟨fun hnone => ?_, fun d hd => ⟨fun hreason => ?_, fun hreason hneeded => ?_⟩⟩
  · simp [settleOne?, hnone]
  · have hfree : (d.reason.isNone && requiresReason) = false := by
      rcases hreason with h | h
      · simp [h]
      · simp [h]
    simp [settleOne?, hd, hfree]
  · exact ⟨missingReason rule v, by simp [settleOne?, hd, hreason, hneeded], rfl, rfl, rfl, rfl, rfl⟩

/-- A file whose first line, which ends in a carriage return and a line feed, allows every rule and
gives no reason. -/
def unreasoned : FileContext :=
  .standalone ⟨"a.rb"⟩ "# rb-lint: allow(all)\r\nuser.reload\r\n"

/-- What the second line of that file is reported for. -/
def reloadCall : Violation :=
  noReload.violation (unreasoned.location 23 34) "Update the model in memory"

/-- The directive in the first line drops it, or puts a warning in its place if a reason is asked
for. -/
theorem settle_location_unreasoned :
    isBoundary 23 unreasoned.source.chars = true ∧
      allowing? unreasoned.source.chars 23 "no-reload" = some ⟨["all"], none⟩ ∧
      settle (.ofText unreasoned.source.chars) "no-reload" false [reloadCall] = [] ∧
      ∃ w, settle (.ofText unreasoned.source.chars) "no-reload" true [reloadCall] = [w] ∧
        w.severity = .warning ∧ w.location = unreasoned.location 23 34 := by
  have hstart : isBoundary 23 unreasoned.source.chars = true := by cbv
  have hd : allowing? unreasoned.source.chars 23 "no-reload" = some ⟨["all"], none⟩ := by cbv
  obtain ⟨-, hfree⟩ := settle_location unreasoned "no-reload" false reloadCall 23 34 rfl hstart
  obtain ⟨-, hneeded⟩ := settle_location unreasoned "no-reload" true reloadCall 23 34 rfl hstart
  obtain ⟨w, hw, hseverity, -, hlocation, -⟩ := (hneeded _ hd).2 rfl rfl
  exact ⟨hstart, hd, (hfree _ hd).1 (Or.inr rfl), w, hw, hseverity, hlocation⟩

namespace Analyzer

variable {a : Analyzer} {ctx : FileContext} {index : AllowIndex} {file : ParsedFile}
  {v : Violation}

/-- What a rule finds in a Ruby file, with its configured severity, when no directive counts. -/
def findings (a : Analyzer) (ctx : FileContext) (file : ParsedFile) (r : Rule) : List Violation :=
  a.runRule ctx ⟨[]⟩ file r

/-- What a rule over text finds in a file, with its configured severity, when no directive counts. -/
def textFindings (a : Analyzer) (ctx : FileContext) (r : TextRule) : List Violation :=
  a.runTextRule ctx ⟨[]⟩ r

/-- Directives are looked up for what a rule finds without them. -/
theorem runRule_eq (a : Analyzer) (ctx : FileContext) (index : AllowIndex) (file : ParsedFile)
    (r : Rule) :
    a.runRule ctx index file r =
      (a.findings ctx file r).filterMap (settleOne? index r.name r.requiresReason) := by
  unfold findings runRule
  split
  · rw [settle_eq_filterMap index]; rfl
  · rfl

theorem runTextRule_eq (a : Analyzer) (ctx : FileContext) (index : AllowIndex) (r : TextRule) :
    a.runTextRule ctx index r =
      (a.textFindings ctx r).filterMap (settleOne? index r.name false) := by
  unfold textFindings runTextRule
  rw [settle_eq_filterMap index]
  rfl

/-- A rule over text asks for no reason: of what it finds, that is left which no directive covers. -/
theorem runTextRule_eq_filter (a : Analyzer) (ctx : FileContext) (index : AllowIndex)
    (r : TextRule) :
    a.runTextRule ctx index r =
      (a.textFindings ctx r).filter fun v => (index.find? v.location.line r.name).isNone := by
  rw [runTextRule_eq, ← List.filterMap_eq_filter]
  congr 1
  funext v
  unfold settleOne? Option.guard
  cases hfind : index.find? v.location.line r.name <;> simp [hfind]

/-- What a rule finds stays, if no directive covers it. -/
theorem mem_runRule_of_none {r : Rule} (hv : v ∈ a.findings ctx file r)
    (hd : index.find? v.location.line r.name = none) : v ∈ a.runRule ctx index file r := by
  rw [runRule_eq]
  exact List.mem_filterMap.2 ⟨v, hv, by unfold settleOne?; rw [hd]⟩

/-- A directive without the reason that is owed leaves a warning. -/
theorem missingReason_mem_runRule {r : Rule} {d : Directive} (hv : v ∈ a.findings ctx file r)
    (hd : index.find? v.location.line r.name = some d) (hneeded : r.requiresReason = true)
    (hreason : d.reason = none) : missingReason r.name v ∈ a.runRule ctx index file r := by
  rw [runRule_eq]
  exact List.mem_filterMap.2 ⟨v, hv, by unfold settleOne?; rw [hd]; simp [hneeded, hreason]⟩

/-- **What a rule that asks for a reason finds is never dropped without one.** Of what a rule over
Ruby files finds when no directive counts, that stays in the report which no directive covers; and
if the rule asks for a reason, a directive that gives none leaves a warning in the same place, however
severe the configuration makes the rule. Rules over text ask for no reason: of what they find, exactly
that is reported which no directive covers. -/
theorem analyzeSource_reason {grammar : Grammar} {path : Path} {content : String}
    {violations : List Violation}
    (h : a.analyzeSource grammar path content = .ok violations) :
    ∃ inRuby,
      violations = inRuby ++ (a.textRulesFor path).flatMap (fun r =>
        (a.textFindings (.inProject path content a.root) r).filter fun v =>
          ((AllowIndex.ofText content.toList).find? v.location.line r.name).isNone) ∧
      (isRuby path = true →
        ∃ file, ParsedFile.parse grammar (.ofString content) = .ok file ∧
          ∀ r ∈ a.rules, ∀ v ∈ a.findings (.inProject path content a.root) file r,
            ((AllowIndex.ofText content.toList).find? v.location.line r.name = none →
              v ∈ inRuby) ∧
            ∀ d, (AllowIndex.ofText content.toList).find? v.location.line r.name = some d →
              r.requiresReason = true → d.reason = none → missingReason r.name v ∈ inRuby) := by
  have htexts := funext (a.runTextRule_eq_filter (.inProject path content a.root)
    (.ofText content.toList))
  rw [← htexts]
  unfold analyzeSource at h
  by_cases hruby : isRuby path = true
  · simp only [hruby, if_true] at h
    split at h
    · cases h
    · rename_i file hfile
      cases h
      refine ⟨_, rfl, fun _ => ⟨file, hfile, fun r hr v hv => ⟨fun hd => ?_, ?_⟩⟩⟩
      · exact List.mem_flatMap.2 ⟨r, hr, mem_runRule_of_none hv hd⟩
      · intro d hd hneeded hreason
        exact List.mem_flatMap.2 ⟨r, hr, missingReason_mem_runRule hv hd hneeded hreason⟩
  · simp only [hruby] at h
    cases h
    exact ⟨[], rfl, fun h => absurd h hruby⟩

/-- An analyzer with a rule that asks for a reason, and with one over Ruby files and one over text
that do not, though the configuration makes them as severe. -/
def raised : Analyzer where
  root := ⟨"/"⟩
  surroundings := { workingDir := ⟨"/"⟩ }
  rules := [noDirChdir, noReload]
  textRules := [LiquidWords.rule]
  exclude := []
  config := { rules := [("no-reload", { severity := some .error }),
    ("liquid-boolean-words", { severity := some .error })] }
  failOnParseError := false

/-- A line that breaks both rules over Ruby files, and allows that without a reason. -/
def twoCalls : String := "Dir.chdir(x) { user.reload } # rb-lint: allow(all)\n"

/-- The tree of that line. -/
def twoCallsTree : Tree :=
  .node { kind := .other "program", span := ⟨0, 51⟩ }
    [.node { kind := .call, span := ⟨0, 28⟩ }
      [.node { kind := .constant, span := ⟨0, 3⟩, field := some .receiver } [],
        .node { kind := .identifier, span := ⟨4, 9⟩, field := some .method } [],
        .node { kind := .other "argument_list", span := ⟨9, 12⟩, field := some .arguments }
          [.node { kind := .identifier, span := ⟨10, 11⟩ } []],
        .node { kind := .other "block", span := ⟨13, 28⟩, field := some .block }
          [.node { kind := .other "block_body", span := ⟨15, 26⟩, field := some .body }
            [.node { kind := .call, span := ⟨15, 26⟩ }
              [.node { kind := .identifier, span := ⟨15, 19⟩, field := some .receiver } [],
                .node { kind := .identifier, span := ⟨20, 26⟩, field := some .method } []]]]],
      .node { kind := .comment, span := ⟨29, 50⟩ } []]

/-- What the first rule finds in that line. -/
def chdirFound : Violation :=
  noDirChdir.violation { file := ⟨"a.rb"⟩, line := 1, column := 1, length := 28 }
    "Avoid using Dir.chdir due to thread safety issues"

/-- What the second rule finds in it, made an error. -/
def reloadFound : Violation :=
  { noReload.violation { file := ⟨"a.rb"⟩, line := 1, column := 16, offset := 15, length := 11 }
      "Update the model in memory instead of calling .reload" with
    severity := .error }

/-- What is reported of that line: the rule that asks for a reason leaves a warning. -/
def owed : List Violation := [missingReason "no-dir-chdir" chdirFound]

theorem analyzeSource_twoCalls :
    raised.analyzeSource (fun _ => some twoCallsTree) ⟨"/a.rb"⟩ twoCalls = .ok owed := by
  cbv

theorem find?_twoCalls (rule : String) :
    (AllowIndex.ofText twoCalls.toList).find? 1 rule = some ⟨["all"], none⟩ := by
  have hentries : AllowIndex.ofText twoCalls.toList = ⟨[(1, ⟨["all"], none⟩)]⟩ := rfl
  rw [hentries]
  simp [AllowIndex.find?, AllowIndex.at?, Directive.covers]

/-- The rule that asks for a reason leaves a warning, as it is bound to. -/
theorem analyzeSource_reason_chdir :
    raised.analyzeSource (fun _ => some twoCallsTree) ⟨"/a.rb"⟩ twoCalls = .ok owed ∧
      noDirChdir.requiresReason = true ∧
      (AllowIndex.ofText twoCalls.toList).find? chdirFound.location.line noDirChdir.name =
        some ⟨["all"], none⟩ ∧
      ∃ inRuby, owed = inRuby ++ [] ∧ missingReason noDirChdir.name chdirFound ∈ inRuby := by
  have hd := find?_twoCalls noDirChdir.name
  obtain ⟨inRuby, howed, hruby⟩ := analyzeSource_reason analyzeSource_twoCalls
  obtain ⟨file, hfile, hrules⟩ := hruby (by cbv)
  have hfound : raised.findings (.inProject ⟨"/a.rb"⟩ twoCalls raised.root) file noDirChdir =
      [chdirFound] := by
    cases hfile; cbv
  have hmem : chdirFound ∈ raised.findings (.inProject ⟨"/a.rb"⟩ twoCalls raised.root) file
      noDirChdir := by
    rw [hfound]; exact List.mem_cons_self
  exact ⟨analyzeSource_twoCalls, rfl, hd, inRuby, howed,
    (hrules noDirChdir List.mem_cons_self chdirFound hmem).2 _ hd rfl rfl⟩

/-- A template that breaks the rule over text, and allows that without a reason. -/
def template : String := "a || b # rb-lint: allow(all)\n"

theorem analyzeSource_template :
    raised.analyzeSource (fun _ => none) ⟨"/a.liquid"⟩ template = .ok [] := by
  have hruby : isRuby ⟨"/a.liquid"⟩ = false := by cbv
  have htexts : raised.textRulesFor ⟨"/a.liquid"⟩ = [LiquidWords.rule] := by cbv
  have hrun : raised.runTextRule (.inProject ⟨"/a.liquid"⟩ template raised.root)
      (.ofText template.toList) LiquidWords.rule = [] := by
    cbv
  unfold analyzeSource
  simp only [hruby, htexts, List.flatMap_cons, List.flatMap_nil, List.append_nil]
  exact congrArg Except.ok hrun

/-- **An error can be dropped without a reason.** The rules that ask for none find errors here, since
the configuration makes them so; directives without a reason cover what they find; and nothing of it
is reported. -/
theorem error_dropped_without_reason :
    (raised.analyzeSource (fun _ => some twoCallsTree) ⟨"/a.rb"⟩ twoCalls = .ok owed ∧
      (∃ file, ParsedFile.parse (fun _ => some twoCallsTree) (.ofString twoCalls) = .ok file ∧
        raised.findings (.inProject ⟨"/a.rb"⟩ twoCalls raised.root) file noReload =
          [reloadFound]) ∧
      reloadFound.severity = .error ∧
      (AllowIndex.ofText twoCalls.toList).find? reloadFound.location.line noReload.name =
        some ⟨["all"], none⟩ ∧
      ∀ v ∈ owed, v.rule ≠ noReload.name) ∧
    (raised.analyzeSource (fun _ => none) ⟨"/a.liquid"⟩ template = .ok [] ∧
      (raised.textFindings (.inProject ⟨"/a.liquid"⟩ template raised.root) LiquidWords.rule).map
        (fun v => (v.severity, v.location.line)) = [(.error, 1)] ∧
      (AllowIndex.ofText template.toList).find? 1 LiquidWords.rule.name =
        some ⟨["all"], none⟩) := by
  refine ⟨⟨analyzeSource_twoCalls, ⟨_, rfl, by cbv⟩, rfl, find?_twoCalls _, ?_⟩,
    analyzeSource_template, by cbv, by cbv⟩
  intro v hv
  rw [List.mem_singleton.1 hv]
  decide

end Analyzer

end RubyLint
