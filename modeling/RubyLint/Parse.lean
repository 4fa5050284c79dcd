import RubyLint.Syntax.Fault
import RubyLint.Outline.Basic

/-!
# Parsed files

A grammar turns a text into a tree. This library takes the grammar as an argument: any function from
texts to trees will do.

* `Grammar`: a parser.
* `ParsedFile.parse`: the tree and the outline of a text, or why it is refused.
-/

namespace RubyLint

/-- A parser: the tree of a text, if there is one. A tree may report faults. -/
abbrev Grammar := String → Option Tree

/-- A text without faults, as a tree and as an outline of its constants. -/
structure ParsedFile where
  root : Tree
  outline : Outline

/-- Parses a text and refuses it when its tree reports a fault. -/
def ParsedFile.parse (grammar : Grammar) (source : Source) : Except SyntaxError ParsedFile :=
  match grammar source.content with
  | none => .error .noTree
  | some root =>
    match SyntaxError.ofTree? source root with
    | some e => .error e
    | none => .ok { root, outline := .ofTree source root }

end RubyLint
