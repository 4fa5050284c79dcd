import RubyLint.Rule.Constants
import RubyLint.Rule.Frozen
import RubyLint.Rule.Calls
import RubyLint.Rule.Struct
import RubyLint.Rule.GraphQL
import RubyLint.Rule.Files
import RubyLint.Rule.Migration
import RubyLint.Rule.Liquid

/-!
# The catalogue of rules

All rules, set up from a configuration, and the ways to choose among them.

* `allRules`, `allTextRules`: the catalogue.
* `Preset`: named choices; a configuration can opt in to rules outside its preset.
* `Selection.byNames`: the rules with given names or codes.
-/

namespace RubyLint

/-- Every rule over Ruby files, in catalogue order. -/
def allRules (config : Config) : List Rule :=
  [(ConstantPrefix.ofConfig (config.rule? ConstantPrefix.ruleName)).rule,
    FrozenLiteral.rule,
    (BlockCall.ofConfig (config.rule? BlockCall.ruleName)).rule,
    noDirChdir,
    noReload,
    noResolveField,
    PreferStruct.rule,
    Camelize.rule,
    EnumValue.rule,
    (LineLimit.ofConfig (config.rule? LineLimit.ruleName)).rule,
    (MigrationLogging.ofConfig (config.rule? MigrationLogging.ruleName)).rule]

/-- Every rule over the text of other files. -/
def allTextRules (_ : Config) : List TextRule :=
  [LiquidWords.rule]

/-- The malformed path patterns that setting up the catalogue leaves out. -/
def malformedPaths (config : Config) : List (String × GlobError) :=
  MigrationLogging.malformed
    (MigrationLogging.configuredPaths (config.rule? MigrationLogging.ruleName))

/-- Rules chosen for a run. -/
structure Selection where
  rules : List Rule
  textRules : List TextRule

/-- Adds to chosen rules those of the catalogue that the configuration opts in to, unless a rule of
that name is there already. -/
def withOptedIn {α : Type} (config : Config) (name : α → String) : List α → List α → List α
  | selected, [] => selected
  | selected, rule :: available =>
    if config.isOptedIn (name rule) && !selected.any (fun r => name r == name rule) then
      withOptedIn config name (selected ++ [rule]) available
    else withOptedIn config name selected available

/-- A named choice of rules. -/
inductive Preset where
  /-- All rules but two that depend on a project's habits. -/
  | recommended
  /-- All rules. -/
  | strict
  /-- Only the prefix of constants. -/
  | minimal
  deriving DecidableEq, Repr

namespace Preset

/-- All presets in the order in which they are listed. -/
def all : List Preset := [.recommended, .strict, .minimal]

/-- The word for a preset in configurations. -/
def name : Preset → String
  | .recommended => "recommended"
  | .strict => "strict"
  | .minimal => "minimal"

/-- The preset with this name. -/
def ofName? (name : String) : Option Preset :=
  all.find? (·.name == name)

/-- A rule over Ruby files belongs to the preset. -/
def includes : Preset → String → Bool
  | .recommended, name => name != LineLimit.ruleName && name != MigrationLogging.ruleName
  | .strict, _ => true
  | .minimal, name => name == ConstantPrefix.ruleName

/-- The preset takes the rules over the text of other files. -/
def includesText : Preset → Bool
  | .minimal => false
  | _ => true

/-- The preset's rules and those that the configuration opts in to. -/
def select (p : Preset) (config : Config) : Selection where
  rules := withOptedIn config (·.name) ((allRules config).filter fun r => p.includes r.name)
    (allRules config)
  textRules := withOptedIn config (·.name) (if p.includesText then allTextRules config else [])
    (allTextRules config)

end Preset

namespace Selection

/-- The rules with one of these names or codes, in catalogue order. -/
def byNames (names : List String) (config : Config) : Selection where
  rules := (allRules config).filter fun r => names.any r.isCalled
  textRules := (allTextRules config).filter fun r => names.any r.isCalled

/-- The words that are neither the name nor the code of a chosen rule. -/
def unknown (s : Selection) (names : List String) : List String :=
  names.filter fun word => !s.rules.any (·.isCalled word) && !s.textRules.any (·.isCalled word)

/-- Number of chosen rules. -/
def size (s : Selection) : Nat :=
  s.rules.length + s.textRules.length

end Selection

end RubyLint
