import RubyLint.Rule.Basic
import RubyLint.Syntax.Call
import RubyLint.Config.Basic

/-!
# Rules about single calls

Each of these rules reports the calls of one shape.

* `Rule.ofCalls`: the rule that reports the calls of a shape.
* `BlockCall`: methods that leave something open unless they get a block.
* `noDirChdir`, `noReload`, `noResolveField`: calls to avoid.
-/

namespace RubyLint

/-- The violations of the calls of a shape, each with its own message. -/
def RuleInfo.checkCalls (i : RuleInfo) (pattern : CallPattern) (message : Source → Call → String)
    (ctx : FileContext) (root : Tree) : List Violation :=
  (pattern.search ctx.source root).map fun call =>
    i.violation (ctx.locate call.node.span) (message ctx.source call)

/-- The rule that reports the calls of a shape. -/
def Rule.ofCalls (i : RuleInfo) (pattern : CallPattern) (message : Source → Call → String) : Rule :=
  { i with check := fun ctx file => i.checkCalls pattern message ctx file.root }

/-- The methods that have to be called with a block. -/
structure BlockCall where
  methods : List String := ["open", "inline!"]
  deriving DecidableEq, Repr

namespace BlockCall

/-- The name of the rule. -/
def ruleName : String := "require-block-call"

/-- The methods from a rule table. -/
def ofConfig (c : Option RuleConfig) : BlockCall :=
  match c.bind (·.strings? "methods") with
  | some methods => { methods }
  | none => {}

/-- The rule as it presents itself. -/
def info : RuleInfo where
  code := "RBL003"
  name := ruleName
  description := "Requires File.open and Sidekiq::Testing.inline! to be called with a block"
  severity := .warning

/-- What is reported of a call of a method. -/
def message : String → String
  | "open" => "Use File.open with a block to ensure the file is closed after use."
  | "inline!" => "Use Sidekiq::Testing.inline! with a block to ensure setting does not leak"
  | method => s!"Call `{method}` with a block so its effect is scoped."

/-- A call of one of the methods on a receiver, without a block. -/
def pattern (r : BlockCall) : CallPattern :=
  { methods := r.methods, receiver := .present, block := .absent }

/-- The rule. -/
def rule (r : BlockCall) : Rule :=
  .ofCalls info r.pattern fun source call => message (call.method source)

end BlockCall

/-- Changing the working directory for the time of a block changes it for every thread. -/
def noDirChdir : Rule :=
  .ofCalls
    { code := "RBL004"
      name := "no-dir-chdir"
      description := "Forbids Dir.chdir with a block, which is not thread safe"
      severity := .error }
    { methods := ["chdir"], receiverConst := some "Dir", block := .present, argCount := some 1 }
    fun _ _ => "Avoid using Dir.chdir due to thread safety issues"

/-- Reloading a record costs a query for what the program already holds. -/
def noReload : Rule :=
  .ofCalls
    { code := "RBL005"
      name := "no-reload"
      description := "Forbids .reload; update the model in memory instead"
      severity := .warning }
    { methods := ["reload"], receiver := .present, argCount := some 0 }
    fun _ _ => "Update the model in memory instead of calling .reload"

/-- Calling a resolver directly leaves the query layer untested. -/
def noResolveField : Rule :=
  .ofCalls
    { code := "RBL006"
      name := "no-resolve-field"
      description := "Forbids resolve_field; use resolve_raw_query"
      severity := .warning }
    { methods := ["resolve_field"], receiver := .absent }
    fun _ _ => "`resolve_field` skips the GraphQL layer. " ++
      "Use `resolve_raw_query` instead to replicate real client behavior."

end RubyLint
