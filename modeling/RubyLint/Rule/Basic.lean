import RubyLint.Parse
import RubyLint.Violation

/-!
# Rules

A rule is a value: what it is called and a function from a file to its violations.

* `Rule`: a rule over the syntax of Ruby files.
* `TextRule`: a rule over the text of other files, chosen by extension.
-/

namespace RubyLint

/-- How a rule presents itself. -/
structure RuleInfo where
  code : String
  name : String
  description : String
  severity : Severity
  deriving DecidableEq, Repr

namespace RuleInfo

/-- A violation of the rule. -/
def violation (i : RuleInfo) (location : Location) (message : String)
    (suggestion : Option Suggestion := none) : Violation :=
  { code := i.code, rule := i.name, severity := i.severity, location, message, suggestion }

/-- Whether a rule is meant by a name or a code. -/
def isCalled (i : RuleInfo) (word : String) : Bool :=
  word == i.name || word == i.code

end RuleInfo

/-- A rule over the syntax of a Ruby file. -/
structure Rule extends RuleInfo where
  /-- An allow directive has to give a reason; so it is for errors. -/
  requiresReason : Bool := severity == .error
  check : FileContext → ParsedFile → List Violation

/-- A rule over the raw text of files with one of these extensions. -/
structure TextRule extends RuleInfo where
  extensions : List String
  check : FileContext → List Violation

end RubyLint
