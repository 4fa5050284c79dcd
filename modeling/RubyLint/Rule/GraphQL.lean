import RubyLint.Rule.Basic
import RubyLint.Syntax.Call

/-!
# Rules about GraphQL schemas

* `Camelize`: names are camelized by the schema, so the option `camelize` of a field or an argument
  is removed, with the separator in front of it.
* `EnumValue`: the values of an enum are written out and not made in a loop.
-/

namespace RubyLint

namespace Camelize

/-- The rule as it presents itself. -/
def info : RuleInfo where
  code := "RBL008"
  name := "no-graph-camelize"
  description := "Forbids the camelize option on GraphQL fields and arguments"
  severity := .warning

/-- A key is written `camelize:`, `:camelize =>` or `"camelize" =>`. -/
def isKey (text : List Char) : Bool :=
  let quote (c : Char) : Bool := c = '"' || c = '\''
  let inner := (text.dropWhile (· = ':')).dropWhile quote
  (inner.reverse.dropWhile quote).reverse = "camelize".toList

/-- A node is an option with the key `camelize`. -/
def isCamelize (source : Source) (t : Tree) : Bool :=
  t.kind = .pair && (t.child? .key).any fun key => isKey (source.text key.span).toList

/-- Nodes that stand side by side, each with the end of the node before it. -/
def withPrevious (previous : Option Nat) : List Tree → List (Option Nat × Tree)
  | [] => []
  | t :: ts => (previous, t) :: withPrevious (some t.span.stop) ts

/-- The options of an argument list, bare or in braces, in source order. -/
def options (arguments : List Tree) : List (Option Nat × Tree) :=
  (withPrevious none arguments).flatMap fun (previous, t) =>
    match t.kind with
    | .pair => [(previous, t)]
    | .hash => (withPrevious none t.namedChildren).filter fun (_, inner) => inner.kind = .pair
    | _ => []

/-- The violation of an option; the fix removes it from the end of the node before it on. -/
def violation (ctx : FileContext) (previous : Option Nat) (t : Tree) : Violation :=
  let start := previous.getD t.span.start
  info.violation (ctx.locate t.span) "Do not use the camelize option."
    (some { message := "Remove the camelize option"
            edit := some ⟨ctx.location start t.span.stop, ""⟩ })

/-- The calls whose options the rule looks at. -/
def pattern : CallPattern :=
  { methods := ["field", "argument"] }

/-- The violations of a tree. -/
def check (ctx : FileContext) (root : Tree) : List Violation :=
  let found := (pattern.search ctx.source root).flatMap fun call => options call.argumentList
  (found.filter fun (_, t) => isCamelize ctx.source t).map fun (previous, t) =>
    violation ctx previous t

/-- The rule. -/
def rule : Rule :=
  { info with check := fun ctx file => check ctx file.root }

end Camelize

namespace EnumValue

/-- The rule as it presents itself. -/
def info : RuleInfo where
  code := "RBL009"
  name := "no-programmatic-enum-value"
  description := "Forbids defining GraphQL enum values inside an each_value loop"
  severity := .warning

/-- The only statement of a block, comments and parameters aside. -/
def onlyStatement? (block : Tree) : Option Tree :=
  let body := (block.child? .body).getD block
  match body.namedChildren.filter fun t => t.kind ≠ .comment && t.kind ≠ .blockParameters with
  | [statement] => some statement
  | _ => none

/-- A statement defines an enum value: a bare word or a call with one of these names. -/
def definesValue (source : Source) (t : Tree) : Bool :=
  let isName (text : String) : Bool := text == "enum_value" || text == "value"
  match t.kind with
  | .identifier => isName (source.text t.span)
  | .call => isName (Call.method source ⟨t⟩)
  | _ => false

/-- A loop over values with an attached or passed block. -/
def pattern : CallPattern :=
  { methods := ["each_value"], receiver := .present, block := .present, argCount := some 0 }

/-- The violations of a tree: loops whose attached block only defines a value. -/
def check (ctx : FileContext) (root : Tree) : List Violation :=
  let loops := (pattern.search ctx.source root).filter fun call =>
    (call.block?.bind onlyStatement?).any (definesValue ctx.source)
  loops.map fun call =>
    info.violation (ctx.locate call.node.span) "Do not assign graphql enums programmatically."

/-- The rule. -/
def rule : Rule :=
  { info with check := fun ctx file => check ctx file.root }

end EnumValue

end RubyLint
