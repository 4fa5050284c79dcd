import RubyLint.Rule.Basic
import RubyLint.Syntax.Call
import RubyLint.Config.Basic
import RubyLint.Glob

/-!
# Data migrations log their progress

A loop over a large table runs for long. In files that are data migrations, each block of a loop has
to mention `logger`.

* `MigrationLogging`: the files the rule is about.
* `MigrationLogging.isSilent`: a loop whose block does not log.
-/

namespace RubyLint

/-- The files that are data migrations. -/
structure MigrationLogging where
  paths : List Glob
  deriving DecidableEq, Repr

namespace MigrationLogging

/-- The name of the rule. -/
def ruleName : String := "data-migration-logging"

/-- The patterns in force when none are given. -/
def defaultPaths : List String := ["**/db/data/**", "**/db/data_migrations/**"]

/-- The rule for files that match one of the patterns; malformed patterns are left out. -/
def ofPatterns (patterns : List String) : MigrationLogging :=
  ⟨patterns.filterMap fun p => (Glob.compile p).toOption⟩

/-- The malformed ones of patterns. -/
def malformed (patterns : List String) : List (String × GlobError) :=
  patterns.filterMap fun p =>
    match Glob.compile p with
    | .ok _ => none
    | .error e => some (p, e)

/-- The patterns from a rule table. -/
def configuredPaths (c : Option RuleConfig) : List String :=
  (c.bind (·.strings? "paths")).getD defaultPaths

/-- The rule from a rule table. -/
def ofConfig (c : Option RuleConfig) : MigrationLogging :=
  ofPatterns (configuredPaths c)

/-- The rule as it presents itself. -/
def info : RuleInfo where
  code := "RBL012"
  name := ruleName
  description := "Requires logging inside in_batches/each blocks of data migrations"
  severity := .warning

/-- A file is a data migration; backslashes in its path count as slashes. -/
def appliesTo (r : MigrationLogging) (ctx : FileContext) : Bool :=
  let path := ctx.relative.text.map fun c => if c = '\\' then '/' else c
  r.paths.any (·.accepts path)

/-- A node mentions the logger, as a bare word or as a call of that name. -/
def isLogger (source : Source) (t : Tree) : Bool :=
  match t.kind with
  | .identifier => source.text t.span == "logger"
  | .call => Call.method source ⟨t⟩ == "logger"
  | _ => false

/-- A loop over records with an attached or passed block. -/
def pattern : CallPattern :=
  { methods := ["in_batches", "each"], block := .present }

/-- A call has an attached block in which nothing mentions the logger. -/
def isSilent (source : Source) (call : Call) : Bool :=
  call.block?.any fun block => !(descendants block).any (isLogger source)

/-- The violations of a tree: the silent loops of a data migration. -/
def check (r : MigrationLogging) (ctx : FileContext) (root : Tree) : List Violation :=
  if r.appliesTo ctx then
    ((pattern.search ctx.source root).filter (isSilent ctx.source)).map fun call =>
      info.violation (ctx.locate call.node.span)
        "Long running data migrations blocks require logging"
  else []

/-- The rule. -/
def rule (r : MigrationLogging) : Rule :=
  { info with check := fun ctx file => r.check ctx file.root }

end MigrationLogging

end RubyLint
