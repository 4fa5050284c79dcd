import RubyLint.Rule.Basic
import RubyLint.Outline.Resolve
import RubyLint.Config.Basic

/-!
# Constants are named from the root

Inside `module Billing` a bare `Client` silently means `Billing::Client` when that exists. This rule
asks for `::Billing::Client` or `::Client`, whichever is meant. When the file itself defines the
constant, the fix writes its full path; otherwise it only adds the leading separator.

* `ConstantPrefix`: the options of the rule.
* `ConstantPrefix.isExempt`: uses that need no prefix.
* `ConstantPrefix.suggestion`: the fix of a use.
-/

namespace RubyLint

/-- Constants of the language, of its standard library and of common tools, which need no prefix. -/
def defaultWellKnown : List String :=
  ["Array", "BasicObject", "Binding", "Class", "Complex", "Data", "Dir", "Encoding",
    "Enumerator", "Exception", "FalseClass", "File", "Float", "Hash", "Integer", "IO",
    "Kernel", "MatchData", "Method", "Module", "NilClass", "Numeric", "Object", "Proc",
    "Range", "Rational", "Regexp", "String", "Struct", "Symbol", "Thread", "Time",
    "TrueClass", "UnboundMethod", "Comparable", "Enumerable", "Math", "FileTest", "Marshal",
    "ObjectSpace", "Process", "GC", "Signal", "Fiber", "Random", "SecureRandom", "Set",
    "OpenStruct", "Pathname", "URI", "JSON", "CSV", "YAML", "Zlib", "Digest", "Base64",
    "Logger", "Benchmark", "Date", "DateTime", "BigDecimal", "StringIO", "Tempfile",
    "T", "STDOUT", "STDERR", "STDIN", "ARGV", "ENV", "RUBY_VERSION"]

/-- The options of the rule: what is written in front of a name, which names need no prefix, and how
severe a missing one is. -/
structure ConstantPrefix where
  separator : String := "::"
  wellKnown : List String := defaultWellKnown
  severity : Severity := .warning
  deriving DecidableEq, Repr

namespace ConstantPrefix

/-- The name of the rule. -/
def ruleName : String := "require-constant-prefix"

/-- The options from a rule table: `well_known` replaces the built-in names and `extra_well_known`
adds to them. -/
def ofConfig : Option RuleConfig → ConstantPrefix
  | none => {}
  | some c =>
    { separator := c.str "separator" "::"
      wellKnown :=
        (c.strings? "well_known").getD defaultWellKnown ++ (c.strings? "extra_well_known").getD [] }

/-- The rule as it presents itself. -/
def info (r : ConstantPrefix) : RuleInfo where
  code := "RBL001"
  name := ruleName
  description := "Requires constants to be referenced from the root namespace"
  severity := r.severity

/-- A node needs no prefix: it is no use of a constant, or it has a leading separator, is well
known, is not the first name of its chain, or belongs to the header of a declaration. -/
def isExempt (r : ConstantPrefix) (o : Outline) (id : Nat) : Bool :=
  match o.role id with
  | .reference name scope rooted =>
    rooted || r.wellKnown.contains name || scope.isSome || o.isHeader (o.chainTop id)
  | _ => true

/-- The path to write for the chain of a use, if the file defines it elsewhere than where a bare
prefix would look. -/
def fullPath? (o : Outline) (id : Nat) : Option NamePath :=
  let written := o.chainSegments (o.chainTop id)
  (o.locate? written (o.contextPath id)).filter (·.segments ≠ written)

/-- The fix of a use: the whole chain by its full path, or a separator in front of it. -/
def suggestion (r : ConstantPrefix) (ctx : FileContext) (o : Outline) (id : Nat) : Suggestion :=
  match fullPath? o id with
  | some path =>
    let text := path.render r.separator
    { message := s!"Replace with `{text}`"
      edit := some ⟨ctx.locate (o.span (o.chainTop id)), text⟩ }
  | none =>
    let start := (o.span id).start
    { message := s!"Prefix with `{r.separator}`"
      edit := some ⟨ctx.location start start, r.separator⟩ }

/-- What is reported of a use. -/
def message (r : ConstantPrefix) : String :=
  s!"Use `{r.separator}` prefix for constants to ensure resolution from root namespace."

/-- The violations of an outline, in pre-order. -/
def check (r : ConstantPrefix) (ctx : FileContext) (o : Outline) : List Violation :=
  (o.preorder.filter (!r.isExempt o ·)).map fun id =>
    r.info.violation (ctx.locate (o.span id)) r.message (r.suggestion ctx o id)

/-- The rule. -/
def rule (r : ConstantPrefix) : Rule :=
  { r.info with check := fun ctx file => r.check ctx file.outline }

end ConstantPrefix

end RubyLint
