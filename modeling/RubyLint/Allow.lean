import RubyLint.Text.Blank
import RubyLint.Text.Lines

/-!
# Allow directives

A comment such as `# rb-lint: allow(no-reload, no-dir-chdir) reason="spec helper"` allows what the
named rules would report on its own line and on the line after it.

* `Directive.read?`: the directive of a line.
* `AllowIndex.ofText`: the directives of a text by line number.
* `AllowIndex.find?`: the directive that allows a rule on a line.
-/

namespace RubyLint

/-- What a directive allows: rule names, of which `all` stands for every rule, and perhaps the
reason for it. -/
structure Directive where
  rules : List String
  reason : Option String
  deriving DecidableEq, Repr

namespace Directive

/-- Whether a directive allows a rule. -/
def covers (d : Directive) (rule : String) : Bool :=
  d.rules.contains rule || d.rules.contains "all"

/-- The word that starts a directive. -/
def marker : List Char := "rb-lint:".toList

/-- What follows the marker after the first `#` that, blanks aside, is followed by it. -/
def body? : List Char → Option (List Char)
  | [] => none
  | c :: cs =>
    if c = '#' then
      match Text.after? marker (Text.trimStart cs) with
      | some body => some body
      | none => body? cs
    else body? cs

/-- The names between the parentheses: separated by commas, without outer blanks, no empty ones,
each once. -/
def names (list : List Char) : List String :=
  ((((Text.splitAll ',' list).map Text.trim).filter (!·.isEmpty)).map String.ofList).eraseDups

/-- The reason after the parentheses, if one is given in quotes. -/
def reason? (rest : List Char) : Option String := do
  let value ← Text.after? "reason=".toList (Text.trim rest)
  let quoted ← Text.after? ['"'] (Text.trim value)
  let (reason, _) ← Text.splitFirst? '"' quoted
  return String.ofList reason

/-- The directive in a line, whether the line is a comment or ends in one. -/
def read? (line : List Char) : Option Directive := do
  let body ← body? line
  let inside ← Text.after? "allow(".toList (Text.trim body)
  let (list, rest) ← Text.splitFirst? ')' (Text.trim inside)
  let rules := names list
  if rules.isEmpty then none else some { rules, reason := reason? rest }

end Directive

/-- The directives of a text with their line numbers, which count from 1. -/
structure AllowIndex where
  entries : List (Nat × Directive)
  deriving DecidableEq, Repr

namespace AllowIndex

/-- The directives of lines numbered from `number` on. -/
def collect : Nat → List (List Char) → List (Nat × Directive)
  | _, [] => []
  | number, line :: rest =>
    match Directive.read? line with
    | some d => (number, d) :: collect (number + 1) rest
    | none => collect (number + 1) rest

/-- The directives of a text. -/
def ofText (chars : List Char) : AllowIndex :=
  ⟨collect 1 (Text.lines chars)⟩

/-- Whether a text has no directive at all. -/
def isEmpty (index : AllowIndex) : Bool :=
  index.entries.isEmpty

/-- The directive on a line. -/
def at? (index : AllowIndex) (line : Nat) : Option Directive :=
  (index.entries.find? (·.1 == line)).map (·.2)

/-- The directive that allows a rule on a line: that of the line itself, else that of the line
before. -/
def find? (index : AllowIndex) (line : Nat) (rule : String) : Option Directive :=
  let covering (number : Nat) := (index.at? number).filter (·.covers rule)
  (covering line).or (covering (line - 1))

end AllowIndex

end RubyLint
