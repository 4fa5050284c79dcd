import RubyLint.Syntax.Fault
import RubyLint.Glob
import RubyLint.Text.Quoted

/-!
# Notices and failures of a run

What a run tells its user on the way, and why it may fail. Both are values; their wording is in one
place each.

* `Notice`: something worth telling; `Notice.line` is its line in the log.
* `RunError`: why a run over a project failed.
-/

namespace RubyLint

/-- Something that a run tells its user. -/
inductive Notice where
  | usingGlobalConfig (path : Path)
  | malformedPath (pattern : String) (e : GlobError)
  | unknownRule (name : String)
  | analyzing (path : Path) (rules : Nat)
  | starting (root : Path)
  | found (files : Nat)
  | unreadable (path : Path) (e : SyntaxError)
  | complete (violations files : Nat)
  | passDiscarded (path : Path) (e : SyntaxError)
  | fixedFile (edits : Nat) (path : Path)
  | fixedAll (edits files : Nat)
  deriving DecidableEq, Repr

namespace Notice

/-- Whether a notice warns of something. -/
def isWarning : Notice → Bool
  | malformedPath .. | unknownRule .. | unreadable .. | passDiscarded .. => true
  | _ => false

/-- The words of a notice. -/
def message : Notice → String
  | usingGlobalConfig path => s!"Using global config: {path.text}"
  | malformedPath pattern e =>
    s!"Ignoring invalid path pattern pattern={Text.quoted pattern} error={e.message}"
  | unknownRule name => s!"Unknown rule: {name}"
  | analyzing path rules => s!"Analyzing {Text.quoted path.text} with {rules} rules"
  | starting root => s!"Starting analysis at {Text.quoted root.text}"
  | found files => s!"Found {files} files to analyze"
  | unreadable path e => s!"Failed to parse {path.text}: {e.message}"
  | complete violations files => s!"Analysis complete: {violations} violations in {files} files"
  | passDiscarded path e => s!"Discarding fix pass for {path.text}: {e.message}"
  | fixedFile edits path => s!"Fixed {edits} issue(s) in {path.text}"
  | fixedAll edits files => s!"Applied {edits} fix(es) to {files} file(s)"

/-- A notice in the log: its level and its words, which may not command a terminal. -/
def line (n : Notice) : String :=
  (if n.isWarning then "WARN " else "INFO ") ++ Text.inert n.message

end Notice

/-- Why a run over a project failed. -/
inductive RunError where
  /-- A file that had to be read is not text. -/
  | notText
  /-- A Ruby file could not be read. -/
  | unreadable (path : Path) (e : SyntaxError)
  /-- An exclude pattern is malformed. -/
  | glob (e : GlobError)
  /-- The place to analyze does not exist. -/
  | noSuchRoot (root : Path)
  /-- A file above the place to analyze, which says what to ignore, is malformed. -/
  | faultyIgnoreFile (file : Path)
  deriving DecidableEq, Repr

/-- The words of a failure. -/
def RunError.message : RunError → String
  | notText => "IO error: stream did not contain valid UTF-8"
  | unreadable path e => s!"Parse error in {path.text}: {e.message}"
  | glob e => s!"Invalid glob pattern: {e.message}"
  | noSuchRoot root => s!"Failed to walk directory: {root.text} does not exist"
  | faultyIgnoreFile file => s!"Failed to walk directory: {file.text} is malformed"

end RubyLint
