import RubyLint.Rule.Basic

/-!
# Templates use words for boolean operators

Liquid has no `||` and `&&`; a template that uses them does not mean what it says. They are replaced
by `or` and `and`.

* `LiquidWords.operators`: the operators of a text, from left to right and without overlaps.
-/

namespace RubyLint.LiquidWords

/-- The rule as it presents itself. -/
def info : RuleInfo where
  code := "RBL011"
  name := "liquid-boolean-words"
  description := "Requires `or`/`and` instead of `||`/`&&` in Liquid templates"
  severity := .warning

/-- A boolean operator. -/
inductive Operator where
  | or
  | and
  deriving DecidableEq, Repr

/-- The operator as it should not be written. -/
def Operator.symbol : Operator → String
  | .or => "||"
  | .and => "&&"

/-- The operator as a word. -/
def Operator.word : Operator → String
  | .or => "or"
  | .and => "and"

/-- The operators of a text that starts at byte `offset`, with their offsets. -/
def operators (offset : Nat) : List Char → List (Nat × Operator)
  | '|' :: '|' :: cs => (offset, .or) :: operators (offset + 2) cs
  | '&' :: '&' :: cs => (offset, .and) :: operators (offset + 2) cs
  | c :: cs => operators (offset + c.utf8Size) cs
  | [] => []

/-- The violation of an operator. -/
def violation (ctx : FileContext) (offset : Nat) (op : Operator) : Violation :=
  let location := ctx.location offset (offset + 2)
  info.violation location s!"Use '{op.word}' instead of {op.symbol}"
    (some { message := s!"Replace with `{op.word}`", edit := some ⟨location, op.word⟩ })

/-- The violations of a text, from left to right. -/
def check (ctx : FileContext) : List Violation :=
  (operators 0 ctx.source.chars).map fun (offset, op) => violation ctx offset op

/-- The rule. -/
def rule : TextRule :=
  { info with extensions := ["liquid"], check }

end RubyLint.LiquidWords
