import RubyLint.Rule.Basic
import RubyLint.Config.Basic

/-!
# Files stay short

A file with more lines than the limit is reported once, at its start.
-/

namespace RubyLint

/-- The greatest number of lines of a file. -/
structure LineLimit where
  maxLines : Nat := 1180
  deriving DecidableEq, Repr

namespace LineLimit

/-- The name of the rule. -/
def ruleName : String := "file-line-limit"

/-- The limit from a rule table; a negative one is not taken. -/
def ofConfig (c : Option RuleConfig) : LineLimit :=
  let base : LineLimit := {}
  match c.map fun table : RuleConfig => table.int "max_lines" base.maxLines with
  | some (Int.ofNat n) => ⟨n⟩
  | _ => base

/-- The rule as it presents itself. -/
def info : RuleInfo where
  code := "RBL010"
  name := ruleName
  description := "Limits the number of lines in a file"
  severity := .warning

/-- At most one violation. -/
def check (r : LineLimit) (ctx : FileContext) : List Violation :=
  if ctx.source.lineCount ≤ r.maxLines then []
  else
    [info.violation (ctx.location 0 0)
      s!"This file contains more than the limit of {r.maxLines} lines of code."]

/-- The rule. -/
def rule (r : LineLimit) : Rule :=
  { info with check := fun ctx _ => r.check ctx }

end LineLimit

end RubyLint
