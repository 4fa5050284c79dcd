import RubyLint.Outline.Item

/-!
# Outlines

An outline is the table of a file's items, numbered in pre-order, with links from each to its parent
and its children. Rules walk it in both directions.

* `Outline.ofItem`, `Outline.ofTree`: the outline of an item and of a syntax tree.
* `Outline.preorder`: all numbers in the order of a traversal.
* `Outline.ancestors`: the numbers above a node, nearest first.
* `Outline.chainTop`: the whole chain that a name is part of.
* `Outline.chainSegments`: the names of a chain.
-/

namespace RubyLint

/-- What a node of an outline is; the numbers point to other nodes. -/
inductive Outline.Role where
  /-- A module or class with the names of its header. -/
  | declaration (segments : List String) (header : Option Nat)
  /-- An assignment to a constant. -/
  | assign (name : String)
  /-- A use of a constant. -/
  | reference (name : String) (scope : Option Nat) (rooted : Bool)
  /-- Any other construct. -/
  | other
  deriving DecidableEq, Repr

/-- A node of an outline. -/
structure Outline.Node where
  role : Outline.Role
  parent : Option Nat
  children : List Nat
  span : Span
  deriving DecidableEq, Repr

/-- The nodes of a file by number. Number 0 is the file itself. -/
structure Outline where
  nodes : Array Outline.Node
  deriving DecidableEq, Repr

namespace Item

mutual
/-- Number of items in an item, itself included. -/
def count : Item → Nat
  | mk _ _ children => 1 + countAll children
/-- Number of items in several. -/
def countAll : List Item → Nat
  | [] => 0
  | t :: ts => t.count + countAll ts
end

/-- The numbers of items that stand side by side, the first of them numbered `start`. -/
def numbers (start : Nat) : List Item → List Nat
  | [] => []
  | t :: ts => start :: numbers (start + t.count) ts

/-- The role of an item whose inner items have these numbers. -/
def Label.role (label : Label) (children : List Item) (numbers : List Nat) : Outline.Role :=
  match label with
  | .declaration header =>
    .declaration (((header.bind (children[·]?)).map segments).getD []) (header.bind (numbers[·]?))
  | .assign name => .assign name
  | .reference name rooted => .reference name numbers.head? rooted
  | .other => .other

mutual
/-- The nodes of an item and of all inside it, numbered from `start` on. -/
def flatten (parent : Option Nat) (start : Nat) : Item → List Outline.Node
  | mk label span children =>
    { role := label.role children (numbers (start + 1) children)
      parent
      children := numbers (start + 1) children
      span } :: flattenAll start (start + 1) children
/-- The nodes of items that stand side by side in the node numbered `parent`. -/
def flattenAll (parent start : Nat) : List Item → List Outline.Node
  | [] => []
  | t :: ts => t.flatten (some parent) start ++ flattenAll parent (start + t.count) ts
end

end Item

namespace Outline

/-- The outline of an item. -/
def ofItem (item : Item) : Outline :=
  ⟨(item.flatten none 0).toArray⟩

/-- The outline of a file. -/
def ofTree (source : Source) (root : Tree) : Outline :=
  ofItem (Item.ofRoot source root)

/-- Number of nodes. -/
def size (o : Outline) : Nat := o.nodes.size

/-- The role of a node; a number outside the outline has none of interest. -/
def role (o : Outline) (id : Nat) : Role :=
  (o.nodes[id]?.map Node.role).getD .other

/-- The parent of a node. -/
def parent? (o : Outline) (id : Nat) : Option Nat :=
  o.nodes[id]?.bind Node.parent

/-- The children of a node. -/
def children (o : Outline) (id : Nat) : List Nat :=
  (o.nodes[id]?.map Node.children).getD []

/-- The range of a node. -/
def span (o : Outline) (id : Nat) : Span :=
  (o.nodes[id]?.map Node.span).getD ⟨0, 0⟩

/-- A node is a use of a constant. -/
def isReference (o : Outline) (id : Nat) : Bool :=
  match o.role id with
  | .reference .. => true
  | _ => false

/-- What qualifies a use of a constant. -/
def scope? (o : Outline) (id : Nat) : Option Nat :=
  match o.role id with
  | .reference _ scope _ => scope
  | _ => none

/-- The header names of a declaration. -/
def declared? (o : Outline) (id : Nat) : Option (List String) :=
  match o.role id with
  | .declaration segments _ => some segments
  | _ => none

/-- The next `n` nodes of a traversal that still has to visit `stack`. -/
def visit (o : Outline) : Nat → List Nat → List Nat
  | 0, _ => []
  | _ + 1, [] => []
  | n + 1, id :: stack => id :: visit o n (o.children id ++ stack)

/-- All nodes, parents before children and children in source order. -/
def preorder (o : Outline) : List Nat :=
  if o.nodes.isEmpty then [] else o.visit o.size [0]

/-- At most `n` nodes above a node, nearest first. -/
def ancestorsWithin (o : Outline) : Nat → Nat → List Nat
  | 0, _ => []
  | n + 1, id =>
    match o.parent? id with
    | some p => p :: ancestorsWithin o n p
    | none => []

/-- The nodes above a node, nearest first. -/
def ancestors (o : Outline) (id : Nat) : List Nat :=
  o.ancestorsWithin o.size id

/-- Climbs at most `n` times from a qualifier to the use it qualifies. -/
def climbChain (o : Outline) : Nat → Nat → Nat
  | 0, id => id
  | n + 1, id =>
    match o.parent? id with
    | some p => if o.scope? p = some id then climbChain o n p else id
    | none => id

/-- The node of the whole chain that a node qualifies: for `A` in `A::B::C` that of `A::B::C`. -/
def chainTop (o : Outline) (id : Nat) : Nat :=
  o.climbChain o.size id

/-- The names of a chain from `id` down through at most `n` qualifiers, rightmost first. -/
def descendChain (o : Outline) : Nat → Nat → List String
  | 0, _ => []
  | n + 1, id =>
    match o.role id with
    | .reference name scope _ => name :: (scope.map (descendChain o n)).getD []
    | _ => []

/-- The names of a chain, leftmost first; a qualifier that is not a constant ends it. -/
def chainSegments (o : Outline) (id : Nat) : List String :=
  (o.descendChain o.size id).reverse

/-- A node is the header of the declaration it stands in. -/
def isHeader (o : Outline) (id : Nat) : Bool :=
  match o.parent? id with
  | some p =>
    match o.role p with
    | .declaration _ header => header = some id
    | _ => false
  | none => false

end Outline

end RubyLint
