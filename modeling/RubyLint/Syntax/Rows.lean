import RubyLint.Syntax.Tree

/-!
# Trees as tables

A tree can be handed over as a table: one row a node in pre-order, each with the number of its
parent's row.

* `NodeRow`: a row.
* `Tree.ofRows?`: the tree of a table.
-/

namespace RubyLint

/-- A node of a tree and the row of its parent; the top has none. -/
structure NodeRow where
  parent : Option Nat
  info : NodeInfo
  deriving DecidableEq, Repr

namespace NodeRow

/-- The place of a row's node among the trees that wait for their parent: place `0` holds those
without one, and place `i + 1` the children of row `i`. -/
def slot (row : NodeRow) : Nat :=
  match row.parent with
  | none => 0
  | some i => i + 1

/-- Closes the node of a row, whose children are all known, and hands it to its parent. -/
def close (row : NodeRow) (number : Nat) (pending : Array (List Tree)) : Array (List Tree) :=
  let tree := Tree.node row.info (pending.getD (number + 1) [])
  pending.modify row.slot (tree :: ·)

end NodeRow

/-- The tree of a table. Rows are closed from the last to the first, so that the children of a node
are complete, and in source order, when its own row is reached. -/
def Tree.ofRows? (rows : List NodeRow) : Option Tree :=
  let closed := rows.zipIdx.foldr (fun (row, number) => row.close number)
    (Array.replicate (rows.length + 1) [])
  (closed.getD 0 []).head?

end RubyLint
