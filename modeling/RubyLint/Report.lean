import RubyLint.Violation

/-!
# Reports

The violations of a run and the number of files checked.

* `Report.counts`, `Report.hasAtLeast`, `Report.fixable`: figures of a report.
* `Report.sort`: the order in which a report is shown, by file, line and column; violations at one
  position keep their order.
-/

namespace RubyLint

/-- The outcome of an analysis. -/
structure Report where
  violations : List Violation := []
  filesChecked : Nat := 0
  deriving DecidableEq, Repr

namespace Report

/-- The violations of one severity. -/
def ofSeverity (r : Report) (s : Severity) : List Violation :=
  r.violations.filter (·.severity = s)

/-- Whether some violation reaches a severity. -/
def hasAtLeast (r : Report) (s : Severity) : Bool :=
  r.violations.any (·.severity.atLeast s)

/-- Whether the run found errors. -/
def hasErrors (r : Report) : Bool :=
  r.violations.any (·.severity = .error)

/-- Whether the run found warnings or errors. -/
def hasWarnings (r : Report) : Bool :=
  r.hasAtLeast .warning

/-- Numbers of errors, warnings and infos. -/
def counts (r : Report) : Nat × Nat × Nat :=
  ((r.ofSeverity .error).length, (r.ofSeverity .warning).length, (r.ofSeverity .info).length)

/-- Number of violations that can be mended automatically. -/
def fixable (r : Report) : Nat :=
  (r.violations.filter (·.isFixable)).length

/-- The order of locations in a report: by file, then line, then column. -/
def order (a b : Location) : Ordering :=
  ((a.file.compare b.file).then (compare a.line b.line)).then (compare a.column b.column)

/-- A report in the order in which it is shown. -/
def sort (r : Report) : Report :=
  { r with violations := r.violations.mergeSort fun a b => (order a.location b.location).isLE }

/-- Two reports as one. -/
def append (r s : Report) : Report :=
  { violations := r.violations ++ s.violations, filesChecked := r.filesChecked + s.filesChecked }

end Report

end RubyLint
