import RubyLint.Cli.Output
import RubyLint.Cli.ConfigFile
import RubyLint.Project.Run

/-!
# Running a command

A command sees the files as a value and gives back what it prints, its exit code and the files it
leaves.

* `CommandError`: why a command failed.
* `runCheck`, `runInit`: the commands that can fail.
* `runProgram`: the program, from its arguments to its outcome.
-/

namespace RubyLint

/-- Why a command failed. -/
inductive CommandError where
  | config (path : Path)
  | noKnownRules (filter : String)
  | unknownPreset (name : String)
  | build (e : GlobError)
  | fix (e : RunError)
  | analysis (e : RunError)
  | configExists (path : Path)
  | cannotWrite (path : Path)
  deriving DecidableEq, Repr

/-- The words for a failed command. -/
def CommandError.message : CommandError → String
  | config path => s!"Failed to load config: {path.text}"
  | noKnownRules filter => s!"No known rules selected by --rules {filter}"
  | unknownPreset name =>
    s!"Unknown preset '{name}' (expected recommended, strict or minimal)"
  | build _ => "Failed to build analyzer"
  | fix _ => "Autofix failed"
  | analysis _ => "Analysis failed"
  | configExists path =>
    s!"Configuration file already exists at {path.text}. Use --force to overwrite."
  | cannotWrite path => s!"Failed to write {path.text}"

/-- The cause behind a failed command, if it has one worth telling. -/
def CommandError.cause? : CommandError → Option String
  | build e => some (RunError.glob e).message
  | fix e | analysis e => some e.message
  | _ => none

/-- What a command leaves behind. -/
structure Outcome where
  exitCode : Nat := 0
  stdout : String := ""
  /-- Violations to show with excerpts of their files. -/
  excerpts : List Violation := []
  error : Option CommandError := none
  notices : List Notice := []
  disk : Disk

/-- A command that failed. -/
def Outcome.failed (notices : List Notice) (disk : Disk) (e : CommandError) : Outcome :=
  { exitCode := 1, error := some e, notices, disk }

/-- The notices on malformed path patterns, one for each time the catalogue is set up. -/
def catalogNotices (config : Config) (times : Nat) : List Notice :=
  (List.replicate times
    ((malformedPaths config).map fun (pattern, e) => Notice.malformedPath pattern e)).flatten

/-- The names in a list separated by commas. -/
def filterNames (list : String) : List String :=
  (((Text.splitAll ',' list.toList).map Text.trim).filter (!·.isEmpty)).map String.ofList

/-- The rules of a check: those asked for by name, or else those of a preset, for which the
catalogue is set up a second time to look for rules that the configuration opts in to. -/
def selectRules (options : CheckOptions) (config : Config) :
    List Notice × Except CommandError Selection :=
  match options.rules with
  | some filter =>
    let names := filterNames filter
    let chosen := Selection.byNames names config
    let notices := catalogNotices config 1 ++ (chosen.unknown names).map .unknownRule
    (notices, if chosen.size = 0 then .error (.noKnownRules filter) else .ok chosen)
  | none =>
    let name := (options.preset.or config.preset).getD Preset.recommended.name
    match Preset.ofName? name with
    | none => ([], .error (.unknownPreset name))
    | some preset =>
      (catalogNotices config (if preset = .minimal then 1 else 2), .ok (preset.select config))

/-- Fixes what can be fixed, if asked for: the files after it, what it told, and its failure. -/
def fixFirst (options : CheckOptions) (a : Analyzer) (grammar : Grammar) (d : Disk) :
    Disk × List Notice × Option RunError :=
  if options.fix then
    let run := a.fix grammar d
    match run.result with
    | .error e => (run.disk, run.notices, some e)
    | .ok report =>
      (run.disk, run.notices ++ [.fixedAll report.fixesApplied report.filesFixed.length], none)
  else (d, [], none)

/-- Checks with an analyzer, after fixing if asked for. -/
def checkWith (options : CheckOptions) (a : Analyzer) (grammar : Grammar) (told : List Notice)
    (d : Disk) : Outcome :=
  let told := told ++ [.analyzing options.path a.ruleCount]
  match fixFirst options a grammar d with
  | (d, fixTold, some e) => .failed (told ++ fixTold) d (.fix e)
  | (d, fixTold, none) =>
    let run := a.analyze grammar d
    let told := told ++ fixTold ++ run.notices
    match run.result with
    | .error e => .failed told d (.analysis e)
    | .ok report =>
      { exitCode := if report.hasErrors then 1 else 0
        stdout := report.output options.format
        excerpts := if options.format = .pretty then report.violations else []
        notices := told
        disk := d }

/-- The command `check`. -/
def runCheck (grammar : Grammar) (reader : ConfigReader) (env : Environment)
    (configFile : Option Path) (options : CheckOptions) (d : Disk) : Outcome :=
  let source := ConfigSource.find env d configFile options.path
  match source.load reader env d with
  | .error path => .failed source.notices d (.config path)
  | .ok config =>
    let (ruleNotices, selected) := selectRules options config
    let told := source.notices ++ ruleNotices
    match selected with
    | .error e => .failed told d e
    | .ok selection =>
      let setup : AnalyzerSetup :=
        { root := some options.path, selection, exclude := options.exclude, config := some config }
      match setup.build env.toSurroundings with
      | .error e => .failed told d (.build e)
      | .ok a => checkWith options a grammar told d

/-- The configuration file that `init` writes. -/
def starterConfig : String :=
  Report.printed
    ["# rb-lint configuration",
      "",
      "# recommended | strict | minimal",
      "preset = \"recommended\"",
      "",
      "[analyzer]",
      "# Glob patterns to exclude from analysis",
      "exclude = [",
      "    \"**/vendor/**\",",
      "    \"**/node_modules/**\",",
      "    \"**/tmp/**\",",
      "]",
      "",
      "# Respect .gitignore files",
      "respect_gitignore = true",
      "",
      "# Each rule can be enabled/disabled and have its severity overridden.",
      "",
      "[rules.require-constant-prefix]",
      "enabled = true",
      "# severity = \"error\"",
      "# separator = \"::\"",
      "# Names added to the built-in list of core and stdlib constants",
      "extra_well_known = []",
      "",
      "[rules.require-block-call]",
      "methods = [\"open\", \"inline!\"]",
      "",
      "[rules.file-line-limit]",
      "max_lines = 1180",
      "",
      "# Opt-in outside the strict preset.",
      "# [rules.data-migration-logging]",
      "# enabled = true",
      "# paths = [\"**/db/data/**\", \"**/db/data_migrations/**\"]"]

/-- The command `init`. -/
def runInit (env : Environment) (force : Bool) (d : Disk) : Outcome :=
  let path : Path := ⟨"./rb-lint.toml"⟩
  match d.resolve? env.workingDir with
  | none => .failed [] d (.cannotWrite path)
  | some dir =>
    let place := dir ++ ["rb-lint.toml"]
    if d.holds place && !force then .failed [] d (.configExists path)
    else if d.isDir place then .failed [] d (.cannotWrite path)
    else
      { stdout := Report.printed ["Created rb-lint.toml", "", "Next steps:",
          "  1. Edit rb-lint.toml to configure rules", "  2. Run: rb-lint check"]
        disk := d.write place (.text starterConfig) }

/-- How the program is used. -/
def usage : String :=
  Report.printed
    ["Linter for Ruby codebases with namespace-aware constant fixes", "",
      "Usage: rb-lint [OPTIONS] <COMMAND>", "",
      "Commands:",
      "  check       Run lint checks",
      "  list-rules  List available rules",
      "  init        Initialize configuration file"]

/-- The program: what it does for a list of arguments. -/
def runProgram (grammar : Grammar) (reader : ConfigReader) (env : Environment)
    (args : List String) (d : Disk) : Outcome :=
  match Request.read env.configFile args with
  | .misuse => { exitCode := 2, disk := d }
  | .help => { stdout := usage, disk := d }
  | .version => { stdout := "rb-lint 0.1.0\n", disk := d }
  | .invoke i =>
    match i.command with
    | .check options => runCheck grammar reader env i.config options d
    | .listRules => { stdout := ruleListing, disk := d }
    | .init force => runInit env force d

end RubyLint
