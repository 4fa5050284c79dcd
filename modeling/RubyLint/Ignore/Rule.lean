import RubyLint.Ignore.Pattern
import RubyLint.Text.Blank
import RubyLint.Text.Lines

/-!
# Ignore files

Files such as `.gitignore` list, one pattern a line, what is not part of a project. A line that
starts with `!` takes a file in again, a trailing `/` restricts a line to directories, and a line
with a `/` elsewhere is anchored at the directory of its file. The last line that matches decides.

* `IgnoreLine.read`: what a line holds.
* `IgnoreLine.readAll`: what the lines of a file hold; `rulesOf` are the rules among them.
* `IgnoreRule.accepts`: whether a rule matches a path below the directory of its file.
* `Verdict`, `verdictOf?`: what the rules of one file say of a path.
-/

namespace RubyLint

/-- A rule of an ignore file. -/
structure IgnoreRule where
  pattern : IgnorePattern
  /-- The line takes in again what it matches. -/
  negated : Bool
  /-- The line matches directories only. -/
  onlyDirs : Bool
  deriving DecidableEq, Repr

namespace IgnoreRule

/-- A line without the blanks at its end, unless the last one is escaped. -/
def trimLine (line : List Char) : List Char :=
  if ['\\', ' '].isSuffixOf line then line else Text.trimEnd line

/-- A line without its leading `!`, and whether it had one; an escaped `!` or `#` loses its
backslash instead. -/
def readNegation : List Char → Bool × List Char
  | '\\' :: '!' :: cs => (false, '!' :: cs)
  | '\\' :: '#' :: cs => (false, '#' :: cs)
  | '!' :: cs => (true, cs)
  | cs => (false, cs)

/-- A line without its leading `/`, and whether it had one. -/
def readAnchor : List Char → Bool × List Char
  | '/' :: cs => (true, cs)
  | cs => (false, cs)

/-- A line without its trailing `/`, and whether it had one. An escaped one goes with its
backslash. -/
def readOnlyDirs (cs : List Char) : Bool × List Char :=
  match cs.reverse with
  | '/' :: '\\' :: rest => (true, rest.reverse)
  | '/' :: rest => (true, rest.reverse)
  | _ => (false, cs)

/-- The text of a line's pattern: one without a slash matches in every directory, and one that ends
in `/**` matches what is below and not the directory itself. -/
def patternText (anchored : Bool) (cs : List Char) : List Char :=
  let floating := !anchored && !cs.contains '/' && cs != ['*', '*']
  let cs := if floating then "**/".toList ++ cs else cs
  if "/**".toList.isSuffixOf cs then cs ++ "/*".toList else cs

/-- The rule of a trimmed line; none if its pattern is malformed. -/
def read? (line : List Char) : Option IgnoreRule := do
  let (negated, rest) := readNegation line
  let (anchored, rest) := readAnchor rest
  let (onlyDirs, rest) := readOnlyDirs rest
  let pattern ← IgnorePattern.read? (patternText anchored rest)
  return { pattern, negated, onlyDirs }

/-- A rule matches a path, given relative to the directory of the rule's file. -/
def accepts (r : IgnoreRule) (relative : List Char) (isDir : Bool) : Bool :=
  (!r.onlyDirs || isDir) && r.pattern.accepts relative

end IgnoreRule

/-- What a line of an ignore file holds. -/
inductive IgnoreLine where
  /-- A blank line or a comment. -/
  | idle
  | rule (r : IgnoreRule)
  /-- The line should hold a rule, but its pattern is malformed. -/
  | malformed
  deriving DecidableEq, Repr

namespace IgnoreLine

/-- What a line holds. A `#` in front makes it a comment. -/
def read (line : List Char) : IgnoreLine :=
  let trimmed := IgnoreRule.trimLine line
  if line.head? = some '#' || trimmed.isEmpty then .idle
  else match IgnoreRule.read? trimmed with
    | some r => .rule r
    | none => .malformed

/-- What the lines of an ignore file hold. A mark of byte order at the start is not part of the
first line. -/
def readAll (content : String) : List IgnoreLine :=
  (Text.lines (content.toList.dropWhile (·.toNat = 0xFEFF))).map read

/-- The rule that a line holds. -/
def rule? : IgnoreLine → Option IgnoreRule
  | rule r => some r
  | _ => none

/-- A line should hold a rule and does not. -/
def isMalformed : IgnoreLine → Bool
  | malformed => true
  | _ => false

end IgnoreLine

/-- The rules among the lines of an ignore file, in line order. -/
def rulesOf (lines : List IgnoreLine) : List IgnoreRule :=
  lines.filterMap IgnoreLine.rule?

/-- What ignore files say of a path. -/
inductive Verdict where
  | ignored
  /-- Taken in, though a rule before said otherwise. -/
  | takenIn
  deriving DecidableEq, Repr

/-- What the rules of one file say of a path, if anything: the last rule that matches decides. -/
def verdictOf? (rules : List IgnoreRule) (relative : List Char) (isDir : Bool) : Option Verdict :=
  (rules.reverse.find? (·.accepts relative isDir)).map fun r =>
    if r.negated then .takenIn else .ignored

end RubyLint
