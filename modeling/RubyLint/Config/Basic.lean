import RubyLint.Config.Value
import RubyLint.Violation

/-!
# Configuration

What a configuration says: a preset, how files are found, and a table for each rule.

* `Config.ofValue?`: the configuration that a value states; none where a value has the wrong type.
* `Config.isEnabled`, `Config.severity?`: what holds for a rule.
* `RuleConfig.bool`, `RuleConfig.int`, `RuleConfig.str`, `RuleConfig.strings?`: options of a rule.
-/

namespace RubyLint

/-- How files are found. -/
structure DiscoveryConfig where
  root : Path := ⟨"."⟩
  exclude : List String := []
  respectGitignore : Bool := true
  deriving DecidableEq, Repr

/-- Patterns in force when none are given. -/
def defaultExcludes : List String :=
  ["**/vendor/**", "**/node_modules/**", "**/tmp/**"]

/-- The table of a rule. -/
structure RuleConfig where
  enabled : Option Bool := none
  severity : Option Severity := none
  options : List (String × Value) := []

namespace RuleConfig

/-- The value of an option. -/
def option? (c : RuleConfig) (key : String) : Option Value :=
  c.options.lookup key

/-- An option that is a truth value. -/
def bool (c : RuleConfig) (key : String) (default : Bool) : Bool :=
  ((c.option? key).bind Value.boolean?).getD default

/-- An option that is an integer. -/
def int (c : RuleConfig) (key : String) (default : Int) : Int :=
  ((c.option? key).bind Value.integer?).getD default

/-- An option that is a text. -/
def str (c : RuleConfig) (key : String) (default : String) : String :=
  ((c.option? key).bind Value.string?).getD default

/-- The texts of an option that is an array; other items are left out. -/
def strings? (c : RuleConfig) (key : String) : Option (List String) :=
  ((c.option? key).bind Value.array?).map (·.filterMap Value.string?)

end RuleConfig

/-- A configuration. -/
structure Config where
  preset : Option String := none
  discovery : DiscoveryConfig := { exclude := defaultExcludes }
  rules : List (String × RuleConfig) := []

instance : Inhabited Config := ⟨{}⟩

namespace Config

/-- The table of a rule. -/
def rule? (c : Config) (name : String) : Option RuleConfig :=
  c.rules.lookup name

/-- A rule runs unless its table switches it off. -/
def isEnabled (c : Config) (name : String) : Bool :=
  ((c.rule? name).bind (·.enabled)).getD true

/-- The configuration switches a rule on in so many words. -/
def isOptedIn (c : Config) (name : String) : Bool :=
  (c.rule? name).bind (·.enabled) == some true

/-- The severity that replaces a rule's own. -/
def severity? (c : Config) (name : String) : Option Severity :=
  (c.rule? name).bind (·.severity)

end Config

/-- Reads an entry of a table: absent is fine, present but unreadable is not. -/
def Value.entry? {α : Type} (entries : List (String × Value)) (key : String)
    (read : Value → Option α) : Option (Option α) :=
  match entries.lookup key with
  | none => some none
  | some v => (read v).map some

/-- A severity is written as its name, or as a table with its name as the only key and nothing
below it. -/
def Severity.ofValue? : Value → Option Severity
  | .string name => ofName? name
  | .table [(name, .table [])] => ofName? name
  | .table [(name, .array [])] => ofName? name
  | _ => none

namespace DiscoveryConfig

/-- Reads the settings by name. Patterns that are not given are none, not the default ones. -/
def ofTable? (entries : List (String × Value)) : Option DiscoveryConfig := do
  let root ← Value.entry? entries "root" Value.string?
  let exclude ← Value.entry? entries "exclude" Value.strings?
  let respect ← Value.entry? entries "respect_gitignore" Value.boolean?
  return {
    root := ⟨root.getD "."⟩
    exclude := exclude.getD []
    respectGitignore := respect.getD true }

/-- Reads the settings by position from an array, or else by name. -/
def ofValue? : Value → Option DiscoveryConfig
  | .array items => ofTable? (["root", "exclude", "respect_gitignore"].zip items)
  | v => v.entries?.bind ofTable?

end DiscoveryConfig

/-- Reads the table of a rule. Keys without a meaning of their own are options. -/
def RuleConfig.ofValue? (v : Value) : Option RuleConfig := do
  let entries ← v.entries?
  let enabled ← Value.entry? entries "enabled" Value.boolean?
  let severity ← Value.entry? entries "severity" Severity.ofValue?
  return {
    enabled
    severity
    options := entries.filter fun (key, _) => key != "enabled" && key != "severity" }

namespace Config

/-- Reads the tables of rules. -/
def rulesOfValue? (v : Value) : Option (List (String × RuleConfig)) := do
  let entries ← v.entries?
  entries.mapM fun (name, table) => do return (name, ← RuleConfig.ofValue? table)

/-- Reads a configuration. Other keys are ignored. -/
def ofValue? (v : Value) : Option Config := do
  let entries ← v.table?
  let preset ← Value.entry? entries "preset" Value.string?
  let discovery ← Value.entry? entries "analyzer" DiscoveryConfig.ofValue?
  let rules ← Value.entry? entries "rules" rulesOfValue?
  let base : Config := {}
  return {
    preset
    discovery := discovery.getD base.discovery
    rules := rules.getD [] }

end Config

end RubyLint
