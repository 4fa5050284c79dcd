import RubyLint.Source

/-!
# Violations

What a rule reports: where, how severe, in which words, and how to mend it.

* `Edit`: a replacement of a range of bytes by a text.
* `Violation.summary`: the one-line form.
* `Violation.details`: the form over several lines.
* `Diagnostic`: the parts shown beside a source excerpt.
-/

namespace RubyLint

/-- How serious a violation is. Only errors fail a run. -/
inductive Severity where
  | info
  | warning
  | error
  deriving DecidableEq, Repr, Inhabited

namespace Severity

/-- All severities, least first. -/
def all : List Severity := [.info, .warning, .error]

/-- The word for a severity in configurations and reports. -/
def name : Severity → String
  | .info => "info"
  | .warning => "warning"
  | .error => "error"

/-- The severity with this name. -/
def ofName? (name : String) : Option Severity :=
  all.find? (·.name == name)

/-- The place of a severity in their order. -/
def rank : Severity → Nat
  | .info => 0
  | .warning => 1
  | .error => 2

/-- `s` reaches the threshold `t`. -/
def atLeast (s t : Severity) : Bool :=
  t.rank ≤ s.rank

end Severity

/-- Replaces the bytes of a location by a text. -/
structure Edit where
  location : Location
  newText : String
  deriving DecidableEq, Repr

/-- An edit that removes nothing. -/
def Edit.isInsertion (e : Edit) : Bool :=
  e.location.length == 0

/-- Advice on how to mend a violation, with the edit that does so if there is one. -/
structure Suggestion where
  message : String
  edit : Option Edit := none
  deriving DecidableEq, Repr

/-- A remark on a further location. -/
structure Label where
  location : Location
  message : String
  deriving DecidableEq, Repr

/-- A finding of a rule. -/
structure Violation where
  code : String
  rule : String
  severity : Severity
  location : Location
  message : String
  suggestion : Option Suggestion := none
  labels : List Label := []
  deriving DecidableEq, Repr

namespace Violation

/-- The edit that mends a violation, if it carries one. -/
def edit? (v : Violation) : Option Edit :=
  v.suggestion.bind (·.edit)

/-- Whether a violation can be mended automatically. -/
def isFixable (v : Violation) : Bool :=
  v.edit?.isSome

/-- The one-line form of a violation. -/
def summary (v : Violation) : String :=
  let l := v.location
  let marker := if v.isFixable then " (fixable)" else ""
  s!"{l.file.text}:{l.line}:{l.column}: {v.severity.name} [{v.code}] {v.message}" ++ marker

/-- The form of a violation over several lines. -/
def details (v : Violation) : String :=
  let l := v.location
  let help := match v.suggestion with
    | some s => s!"  = help: {s.message}\n"
    | none => ""
  s!"{v.code} {v.rule} at {l.file.text}:{l.line}:{l.column}\n" ++
    s!"  {v.severity.name}: {v.message}\n" ++ help

end Violation

/-- A violation as shown beside an excerpt of its file: a headline, advice, and the rule's name at
the range in question. -/
structure Diagnostic where
  message : String
  help : Option String
  label : String
  offset : Nat
  length : Nat
  deriving DecidableEq, Repr

/-- The diagnostic of a violation. -/
def Violation.diagnostic (v : Violation) : Diagnostic where
  message := s!"[{v.code}] {v.message}"
  help := v.suggestion.map (·.message)
  label := v.rule
  offset := v.location.offset
  length := v.location.length

end RubyLint
