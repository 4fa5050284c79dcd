import RubyLint.Project.Discover
import RubyLint.Analyzer.Fix
import RubyLint.Report

/-!
# Runs over a project

* `Analyzer.analyze`: the report on all files of a project.
* `Analyzer.fix`: fixes all files. Files are written one by one, so those before a failure keep
  their new content.
-/

namespace RubyLint

/-- A run that only reads: what it told on the way, and its result. -/
structure Run (α : Type) where
  notices : List Notice
  result : Except RunError α

/-- What a fixing run did. -/
structure FixReport where
  filesFixed : List Path := []
  fixesApplied : Nat := 0
  deriving DecidableEq, Repr

/-- A run that writes: the state it left, what it told on the way, and its result. -/
structure FixRun where
  disk : Disk
  notices : List Notice
  result : Except RunError FixReport

/-- A run with something told before it. -/
def FixRun.after (notices : List Notice) (r : FixRun) : FixRun :=
  { r with notices := notices ++ r.notices }

/-- The notice on why fixing a file stopped, if it is worth one. -/
def Stop.notices (path : Path) : Stop → List Notice
  | .discarded e => [.passDiscarded path e]
  | .unreadable e => [.unreadable path e]
  | _ => []

/-- The text of the file that a path leads to. -/
def Disk.text? (d : Disk) (path : Path) : Option String :=
  match d.open? path with
  | some (.text content) => some content
  | _ => none

namespace Analyzer

/-- Analyzes files one by one and adds to a report. -/
def analyzeFiles (a : Analyzer) (grammar : Grammar) (d : Disk) :
    List Path → Report → Run Report
  | [], report => ⟨[], .ok report⟩
  | path :: paths, report =>
    match d.text? path with
    | none => ⟨[], .error .notText⟩
    | some content =>
      match a.analyzeSource grammar path content with
      | .ok violations => analyzeFiles a grammar d paths (report.append ⟨violations, 1⟩)
      | .error e =>
        if a.failOnParseError then ⟨[.unreadable path e], .error (.unreadable path e)⟩
        else
          let rest := analyzeFiles a grammar d paths report
          ⟨.unreadable path e :: rest.notices, rest.result⟩

/-- The report on a project. Files that cannot be read as Ruby are told of and not counted, unless
the analyzer is set to fail on them. -/
def analyze (a : Analyzer) (grammar : Grammar) (d : Disk) : Run Report :=
  match a.discover d with
  | .error e => ⟨[.starting a.root], .error e⟩
  | .ok paths =>
    let run := a.analyzeFiles grammar d paths {}
    let opening := [.starting a.root, .found paths.length]
    match run.result with
    | .error e => ⟨opening ++ run.notices, .error e⟩
    | .ok report =>
      let closing := .complete report.violations.length report.filesChecked
      ⟨opening ++ run.notices ++ [closing], .ok report.sort⟩

/-- Fixes files one by one and adds to a report. -/
def fixFiles (a : Analyzer) (grammar : Grammar) : List Path → Disk → FixReport → FixRun
  | [], d, report => ⟨d, [], .ok report⟩
  | path :: paths, d, report =>
    match d.resolve? path, d.text? path with
    | some place, some content =>
      match a.fixSource grammar path content with
      | .error e => ⟨d, [.unreadable path e], .error (.unreadable path e)⟩
      | .ok fixed =>
        let told := fixed.stop.notices path
        if fixed.content = content then (fixFiles a grammar paths d report).after told
        else
          (fixFiles a grammar paths (d.write place (.text fixed.content))
            { filesFixed := report.filesFixed ++ [path]
              fixesApplied := report.fixesApplied + fixed.applied }).after
            (told ++ [.fixedFile fixed.applied path])
    | _, _ => ⟨d, [], .error .notText⟩

/-- Fixes all files of a project. -/
def fix (a : Analyzer) (grammar : Grammar) (d : Disk) : FixRun :=
  match a.discover d with
  | .error e => ⟨d, [], .error e⟩
  | .ok paths => a.fixFiles grammar paths d {}

end Analyzer

end RubyLint
