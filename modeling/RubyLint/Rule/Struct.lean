import RubyLint.Rule.Basic
import RubyLint.Syntax.Walk

/-!
# Mutable structs are preferred

`T::ImmutableStruct` is reported and replaced by `T::Struct`.
-/

namespace RubyLint.PreferStruct

/-- The rule as it presents itself. -/
def info : RuleInfo where
  code := "RBL007"
  name := "prefer-t-struct"
  description := "Prefers T::Struct over T::ImmutableStruct"
  severity := .warning

/-- A node is the chain `T::ImmutableStruct` with a bare `T`. -/
def isImmutable (source : Source) (t : Tree) : Bool :=
  t.kind = .scopeResolution &&
  (t.child? .scope).any (fun s => s.kind = .constant && source.text s.span == "T") &&
  (t.child? .name).any (fun n => source.text n.span == "ImmutableStruct")

/-- The violation of a node. -/
def violation (ctx : FileContext) (t : Tree) : Violation :=
  let location := ctx.locate t.span
  info.violation location "Prefer `T::Struct` over `T::ImmutableStruct`."
    (some { message := "Replace with `T::Struct`", edit := some ⟨location, "T::Struct"⟩ })

/-- The violations of a tree, in pre-order. -/
def check (ctx : FileContext) (root : Tree) : List Violation :=
  ((descendants root).filter (isImmutable ctx.source)).map (violation ctx)

/-- The rule. -/
def rule : Rule :=
  { info with check := fun ctx file => check ctx file.root }

end RubyLint.PreferStruct
