import RubyLint.Rule.Basic
import RubyLint.Syntax.Walk

/-!
# Files with string literals are frozen

A file with a string literal has to carry the comment `# frozen_string_literal: true` in its head,
among the comments before the first line of code.

* `FrozenLiteral.magicKey?`: the key of a comment that sets an interpreter option.
* `FrozenLiteral.head`: the comment lines before the code.
* `FrozenLiteral.hasComment`: whether the head sets the option.
* `FrozenLiteral.fix`: the insertion of the comment, after a leading run of option comments.
-/

namespace RubyLint.FrozenLiteral

/-- The rule as it presents itself. -/
def info : RuleInfo where
  code := "RBL002"
  name := "require-frozen-string-literal"
  description := "Requires the frozen_string_literal magic comment in files with string literals"
  severity := .warning

/-- The option this rule is about. -/
def option : String := "frozen_string_literal"

/-- The comment to insert. -/
def comment : String := "# frozen_string_literal: true"

/-- The options that a comment can set. -/
def magicKeys : List String :=
  [option, "encoding", "coding", "typed", "warn_indent", "shareable_constant_value"]

/-- The option that a comment such as `# typed: strict` sets: the word before the colon, in lower
case and with underscores, if it names an option. -/
def magicKey? (line : List Char) : Option String := do
  let body ← Text.after? ['#'] (Text.trim line)
  let (key, _) ← Text.splitFirst? ':' (Text.trim body)
  let key := String.ofList ((Text.trim key).map fun c => if c = '-' then '_' else c.toLower)
  if magicKeys.contains key then some key else none

/-- A comment line for the interpreter: a shebang, or one that sets an option. -/
def isSpecial (line : List Char) : Bool :=
  (Text.after? ['#', '!'] line).isSome || (magicKey? line).isSome

/-- Lines with their numbers from `number` on. -/
def numbered (number : Nat) : List (List Char) → List (Nat × List Char)
  | [] => []
  | line :: rest => (number, line) :: numbered (number + 1) rest

/-- A line without the carriage returns at its end. -/
def trimReturns (line : List Char) : List Char :=
  (line.reverse.dropWhile (· = '\r')).reverse

/-- The comment lines before the first line of code, with their numbers; blank lines are passed
over. -/
def head (s : Source) : List (Nat × List Char) :=
  let written := (numbered 1 (s.lines.map trimReturns)).filter fun (_, line) =>
    !(Text.trim line).isEmpty
  written.takeWhile fun (_, line) => (Text.trimStart line).head? = some '#'

/-- The head sets the option. -/
def hasComment (s : Source) : Bool :=
  (head s).any fun (_, line) => magicKey? line = some option

/-- The kinds of nodes that are string literals. -/
def isLiteral (t : Tree) : Bool :=
  t.kind = .string || t.kind = .stringArray || t.kind = .heredocBody || t.kind = .chainedString

/-- The number of the last line of the run of interpreter comments that the head starts with. -/
def lastSpecial? (s : Source) : Option Nat :=
  ((head s).takeWhile fun (_, line) => isSpecial line).getLast?.map (·.1)

/-- The insertion of the comment: after the run of interpreter comments, or else at the top. -/
def fix (ctx : FileContext) : Edit :=
  match lastSpecial? ctx.source with
  | some line =>
    let stop := ctx.source.lineEnd line
    ⟨ctx.location stop stop, "\n" ++ comment⟩
  | none => ⟨ctx.location 0 0, comment ++ "\n"⟩

/-- What is reported. -/
def message : String :=
  "Require \"# frozen_string_literal: true\" in any file that creates a string literal"

/-- At most one violation, at the start of the file. -/
def check (ctx : FileContext) (root : Tree) : List Violation :=
  if hasComment ctx.source || !(descendants root).any isLiteral then []
  else
    [info.violation (ctx.location 0 0) message
      (some { message := s!"Add `{comment}`", edit := some (fix ctx) })]

/-- The rule. -/
def rule : Rule :=
  { info with check := fun ctx file => check ctx file.root }

end RubyLint.FrozenLiteral
