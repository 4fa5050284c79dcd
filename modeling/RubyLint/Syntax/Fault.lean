import RubyLint.Syntax.Tree

/-!
# Faults in a tree

A parser marks text that fits no construct, and tokens that are missing. A tree with such a mark is
refused, at the position of the first one.

* `Tree.firstFault?`: the first marked node, looked for only below nodes that report one.
* `SyntaxError`: why a text is refused.
-/

namespace RubyLint

/-- Why a text could not be read. -/
inductive SyntaxError where
  /-- The parser gave no tree. -/
  | noTree
  /-- A fault at this line and column, both from 1; the column counts bytes. -/
  | fault (line column : Nat)
  deriving DecidableEq, Repr

/-- How a refused text is reported. -/
def SyntaxError.message : SyntaxError → String
  | .noTree => "Parser produced no syntax tree"
  | .fault line column => s!"Syntax error at line {line}, column {column}"

namespace Tree

/-- The top node marks a fault. -/
def isFault (t : Tree) : Bool :=
  t.info.isError || t.info.isMissing

mutual
/-- The first fault of a tree in pre-order, skipping children that report none below them. -/
def firstFault? : Tree → Option Tree
  | node info children =>
    if (node info children).isFault then some (node info children) else firstFaultAll? children
/-- The first fault of several trees. -/
def firstFaultAll? : List Tree → Option Tree
  | [] => none
  | t :: ts =>
    if t.info.hasError then t.firstFault?.or (firstFaultAll? ts) else firstFaultAll? ts
end

end Tree

namespace Source

/-- The line and column, both from 1, of an offset, the column in bytes. -/
def bytePosition (s : Source) (offset : Nat) : Nat × Nat :=
  let index := Text.lineIndex s.starts offset
  (index + 1, offset - s.starts.getD index 0 + 1)

end Source

/-- Why a text with this tree is refused, if it is: the tree reports an error, whose place is the
first fault, or the top when none is found. -/
def SyntaxError.ofTree? (source : Source) (root : Tree) : Option SyntaxError :=
  if root.info.hasError then
    let place := (root.firstFault?.getD root).span.start
    let (line, column) := source.bytePosition place
    some (.fault line column)
  else none

end RubyLint
