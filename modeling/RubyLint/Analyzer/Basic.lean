import RubyLint.Allow
import RubyLint.Catalog
import RubyLint.Surroundings

/-!
# Analyzing one file

An analyzer is a selection of rules with a configuration. It runs the rules that apply to a file and
settles what their violations come to: the configured severity, and what the file's allow directives
say.

* `AnalyzerSetup.build`: an analyzer from its options.
* `isRuby`: which files are parsed as Ruby.
* `settle`: violations under the allow directives of their file.
* `Analyzer.analyzeSource`: the violations of one file.
-/

namespace RubyLint

/-- Rules, a configuration and the place they apply to. -/
structure Analyzer where
  root : Path
  surroundings : Surroundings
  rules : List Rule
  textRules : List TextRule
  exclude : List Glob
  config : Config
  failOnParseError : Bool

/-- What an analyzer is made from. -/
structure AnalyzerSetup where
  root : Option Path := none
  selection : Selection
  exclude : List String := []
  config : Option Config := none
  failOnParseError : Bool := false

namespace AnalyzerSetup

/-- The patterns in force: the given ones and those of the configuration, or else the default
ones. -/
def patterns (s : AnalyzerSetup) : List String :=
  let given := s.exclude ++ (s.config.map (·.discovery.exclude)).getD []
  if given.isEmpty then defaultExcludes else given

/-- The directory or file to analyze: the given one, or that of the configuration, or the working
directory; a relative one is seen from the working directory. -/
def rootFrom (s : AnalyzerSetup) (surroundings : Surroundings) : Path :=
  surroundings.locate ((s.root.or (s.config.map (·.discovery.root))).getD ⟨"."⟩)

/-- The analyzer; fails at the first malformed pattern. -/
def build (s : AnalyzerSetup) (surroundings : Surroundings) : Except GlobError Analyzer := do
  let exclude ← s.patterns.mapM Glob.compile
  return {
    root := s.rootFrom surroundings
    surroundings
    rules := s.selection.rules
    textRules := s.selection.textRules
    exclude
    config := s.config.getD {}
    failOnParseError := s.failOnParseError }

theorem build_eq_ok_iff {s : AnalyzerSetup} {surroundings : Surroundings} {a : Analyzer} :
    s.build surroundings = .ok a ↔ ∃ exclude, s.patterns.mapM Glob.compile = .ok exclude ∧
      a = { root := s.rootFrom surroundings
            surroundings
            rules := s.selection.rules
            textRules := s.selection.textRules
            exclude
            config := s.config.getD {}
            failOnParseError := s.failOnParseError } := by
  unfold build
  cases s.patterns.mapM Glob.compile with
  | error e => simp [bind, Except.bind]
  | ok exclude => simp [bind, Except.bind, pure, Except.pure, eq_comm]

end AnalyzerSetup

/-- Extensions of Ruby files. -/
def rubyExtensions : List String := ["rb", "rake", "gemspec", "ru"]

/-- Names of Ruby files without such an extension. -/
def rubyNames : List String := ["Gemfile", "Rakefile"]

/-- A file is parsed as Ruby. -/
def isRuby (path : Path) : Bool :=
  path.extension?.any rubyExtensions.contains || path.fileName?.any rubyNames.contains

/-- The warning in place of a violation that a directive allows without the reason it owes. -/
def missingReason (rule : String) (v : Violation) : Violation :=
  { code := v.code
    rule
    severity := .warning
    location := v.location
    message := s!"Allow directive for '{rule}' is missing required reason" }

/-- What is left of a violation of a rule under the allow directives of its file. -/
def settleOne? (index : AllowIndex) (rule : String) (requiresReason : Bool) (v : Violation) :
    Option Violation :=
  match index.find? v.location.line rule with
  | none => some v
  | some d => if d.reason.isNone && requiresReason then some (missingReason rule v) else none

/-- What is left of the violations of a rule under the allow directives of their file. -/
def settle (index : AllowIndex) (rule : String) (requiresReason : Bool)
    (violations : List Violation) : List Violation :=
  if index.isEmpty then violations
  else violations.filterMap (settleOne? index rule requiresReason)

/-- Gives violations of a rule the severity that the configuration sets for it. -/
def Config.overrideSeverity (c : Config) (rule : String) (violations : List Violation) :
    List Violation :=
  match c.severity? rule with
  | some severity => violations.map fun v => { v with severity }
  | none => violations

namespace Analyzer

/-- Number of rules. -/
def ruleCount (a : Analyzer) : Nat :=
  a.rules.length + a.textRules.length

/-- The text rules that run on a file: by extension, and not switched off. -/
def textRulesFor (a : Analyzer) (path : Path) : List TextRule :=
  a.textRules.filter fun r =>
    r.extensions.contains (path.extension?.getD "") && a.config.isEnabled r.name

/-- The violations of a Ruby rule in a file. -/
def runRule (a : Analyzer) (ctx : FileContext) (index : AllowIndex) (file : ParsedFile)
    (r : Rule) : List Violation :=
  if a.config.isEnabled r.name then
    settle index r.name r.requiresReason (a.config.overrideSeverity r.name (r.check ctx file))
  else []

/-- The violations of a text rule in a file. No reason is asked for. -/
def runTextRule (a : Analyzer) (ctx : FileContext) (index : AllowIndex) (r : TextRule) :
    List Violation :=
  settle index r.name false (a.config.overrideSeverity r.name (r.check ctx))

/-- The violations of one file, rule by rule, or why a Ruby file could not be read. -/
def analyzeSource (a : Analyzer) (grammar : Grammar) (path : Path) (content : String) :
    Except SyntaxError (List Violation) :=
  let ctx := FileContext.inProject path content a.root
  let index := AllowIndex.ofText ctx.source.chars
  let inText := (a.textRulesFor path).flatMap (a.runTextRule ctx index)
  if isRuby path then
    match ParsedFile.parse grammar ctx.source with
    | .error e => .error e
    | .ok file => .ok (a.rules.flatMap (a.runRule ctx index file) ++ inText)
  else .ok inText

end Analyzer

end RubyLint
