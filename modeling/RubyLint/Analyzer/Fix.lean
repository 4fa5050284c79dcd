import RubyLint.Analyzer.Basic
import RubyLint.Batch

/-!
# Fixing one file

Edits that were refused in one pass may fit in the next, so a file is analyzed and edited in passes
until nothing more applies, up to a limit. A pass whose outcome can no longer be read is taken back.

* `Stop`: why fixing stopped.
* `Analyzer.fixPasses`: the passes.
* `Analyzer.fixSource`: the fixed text and the number of edits.
-/

namespace RubyLint

/-- Why fixing stopped. -/
inductive Stop where
  /-- A pass found nothing to apply. -/
  | settled
  /-- The limit on passes was reached. -/
  | capped
  /-- The outcome of the last pass could not be read, and was taken back. -/
  | discarded (e : SyntaxError)
  /-- The text could not be read in the first place. -/
  | unreadable (e : SyntaxError)
  deriving DecidableEq, Repr

/-- A text after fixing. -/
structure Fixed where
  content : String
  applied : Nat
  stop : Stop
  deriving DecidableEq, Repr

/-- The greatest number of passes over a file. -/
def maxFixPasses : Nat := 10

namespace Analyzer

/-- Makes up to `n` passes over `current`, which took `applied` edits; `previous` is the text before
the last pass with the edits until then. -/
def fixPasses (a : Analyzer) (grammar : Grammar) (path : Path) :
    Nat → String → Nat → Option (String × Nat) → Fixed
  | 0, current, applied, _ => ⟨current, applied, .capped⟩
  | n + 1, current, applied, previous =>
    match a.analyzeSource grammar path current with
    | .error e =>
      match previous with
      | some (content, count) => ⟨content, count, .discarded e⟩
      | none => ⟨current, applied, .unreadable e⟩
    | .ok violations =>
      let revision := Violation.applyFixes current violations
      if revision.changed then
        fixPasses a grammar path n revision.content (applied + revision.applied)
          (some (current, applied))
      else ⟨current, applied, .settled⟩

/-- The fixed text; fails only for a text that cannot be read, and only if the analyzer is set to
fail on such. -/
def fixSource (a : Analyzer) (grammar : Grammar) (path : Path) (content : String) :
    Except SyntaxError Fixed :=
  let fixed := a.fixPasses grammar path maxFixPasses content 0 none
  match fixed.stop with
  | .unreadable e => if a.failOnParseError then .error e else .ok fixed
  | _ => .ok fixed

end Analyzer

end RubyLint
