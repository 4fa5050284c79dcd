import RubyLint.Cli.Json
import RubyLint.Cli.Command
import RubyLint.Catalog

/-!
# What the program prints

* `Report.parts`: a report grouped by file.
* `Report.text`: the grouped report as text, with colours and a summary.
* `Report.compact`: one line for each violation.
* `Report.output`: a report in a format.
* `ruleListing`: the list of rules and presets.
-/

namespace RubyLint

/-- A text in a colour or style of the terminal. -/
def styled (code : Nat) (text : String) : String :=
  s!"\x1b[{code}m{text}\x1b[0m"

/-- The word for a severity in its colour. -/
def Severity.label : Severity → String
  | .error => styled 31 "error"
  | .warning => styled 33 "warning"
  | .info => styled 34 "info"

/-- A part of a report grouped by file. -/
inductive TextPart where
  /-- The name of a file, in front of its violations. -/
  | header (file : Path)
  | violation (v : Violation)
  /-- An empty line, between two files and after the last. -/
  | gap
  deriving DecidableEq, Repr

/-- The lines of a part. A violation takes a second line for its advice. -/
def TextPart.lines : TextPart → List String
  | .header file => [styled 1 file.text]
  | .violation v =>
    let l := v.location
    s!"  {l.line}:{l.column}  {v.severity.label}  {v.code} {v.rule}  {v.message}" ::
      (v.suggestion.map fun s => s!"      = help: {s.message}").toList
  | .gap => [""]

namespace Report

/-- The parts of violations in the order of a report, `current` being the file whose header was last
written: a header stands where the file changes. -/
def parts : Option Path → List Violation → List TextPart
  | none, [] => []
  | some _, [] => [.gap]
  | none, v :: rest =>
    .header v.location.file :: .violation v :: parts (some v.location.file) rest
  | some current, v :: rest =>
    if current.same v.location.file then .violation v :: parts (some current) rest
    else .gap :: .header v.location.file :: .violation v :: parts (some v.location.file) rest

/-- The summary of a report: its counts in the colour of the worst severity, and a hint if
something can be fixed. -/
def summaryLines (r : Report) : List String :=
  let (errors, warnings, infos) := r.counts
  let colour := if 0 < errors then 31 else if 0 < warnings then 33 else 32
  let counts := styled colour
    s!"Found {errors} error(s), {warnings} warning(s), {infos} info(s) in {r.filesChecked} file(s)"
  if 0 < r.fixable then [counts, s!"{r.fixable} issue(s) can be fixed with --fix"] else [counts]

/-- Lines, each with its end. -/
def printed (lines : List String) : String :=
  String.join (lines.map (· ++ "\n"))

/-- A report grouped by file. -/
def text (r : Report) : String :=
  printed ((parts none r.violations).flatMap TextPart.lines ++ r.summaryLines)

/-- A report with one line for each violation. -/
def compact (r : Report) : String :=
  printed (r.violations.map (·.summary))

/-- What a report prints in a format. The excerpts of the pretty format go elsewhere. -/
def output (r : Report) : Format → String
  | .text => r.text
  | .json => printed [r.json.pretty]
  | .compact => r.compact
  | .pretty => printed r.summaryLines

end Report

/-- A text filled with blanks up to a width. -/
def padded (width : Nat) (text : String) : String :=
  text ++ String.ofList (List.replicate (width - text.length) ' ')

/-- A line of the list of rules. -/
def columns (code name description : String) : String :=
  s!"{padded 8 code} {padded 32 name} {description}"

/-- The line of a rule in the list of rules. -/
def RuleInfo.listLine (i : RuleInfo) : String :=
  columns i.code i.name i.description

/-- The list of rules and presets. -/
def ruleListing : String :=
  let config : Config := {}
  let preset (p : Preset) : String :=
    let chosen := p.select config
    let codes := chosen.rules.map (·.code) ++ chosen.textRules.map (·.code)
    let marker := if p = .recommended then " (default)" else ""
    s!"  {padded 12 p.name} " ++ ", ".intercalate codes ++ marker
  Report.printed <|
    ["Available rules:", "", columns "Code" "Name" "Description",
      String.ofList (List.replicate 96 '-')] ++
    (allRules config).map (·.listLine) ++
    (allTextRules config).map (fun r =>
      s!"{r.listLine} (." ++ ", .".intercalate r.extensions ++ ")") ++
    ["", "Presets:"] ++ Preset.all.map preset ++
    ["", "Use --rules to filter specific rules, e.g.:",
      "  rb-lint check --rules require-constant-prefix,no-reload",
      "  rb-lint check --rules RBL001,RBL005"]

end RubyLint
