import RubyLint.Source

/-!
# Concrete syntax trees

The tree that a Ruby grammar makes of a text. Its nodes carry the kinds and field names of the
grammar; only those that the rules speak of are told apart.

* `Kind`, `Field`: kinds of nodes, and roles of children.
* `Tree`: a node with its children in source order.
* `Tree.child?`: the child in a role.
* `Tree.named`: the named nodes of a tree in pre-order.
-/

namespace RubyLint

/-- The kind of a node. -/
inductive Kind where
  | moduleDecl
  | classDecl
  | assignment
  | operatorAssignment
  | leftAssignmentList
  | destructuredLeftAssignment
  | restAssignment
  | constant
  | scopeResolution
  | call
  | identifier
  | comment
  | blockArgument
  | blockParameters
  | pair
  | hash
  | string
  | stringArray
  | heredocBody
  | chainedString
  /-- Any other kind of node or token. -/
  | other (name : String)
  deriving DecidableEq, Repr, Inhabited

/-- The kind with this name in the grammar. -/
def Kind.ofName : String → Kind
  | "module" => .moduleDecl
  | "class" => .classDecl
  | "assignment" => .assignment
  | "operator_assignment" => .operatorAssignment
  | "left_assignment_list" => .leftAssignmentList
  | "destructured_left_assignment" => .destructuredLeftAssignment
  | "rest_assignment" => .restAssignment
  | "constant" => .constant
  | "scope_resolution" => .scopeResolution
  | "call" => .call
  | "identifier" => .identifier
  | "comment" => .comment
  | "block_argument" => .blockArgument
  | "block_parameters" => .blockParameters
  | "pair" => .pair
  | "hash" => .hash
  | "string" => .string
  | "string_array" => .stringArray
  | "heredoc_body" => .heredocBody
  | "chained_string" => .chainedString
  | name => .other name

/-- The role of a child in its parent. -/
inductive Field where
  | name
  | left
  | right
  | scope
  | method
  | receiver
  | block
  | arguments
  | key
  | body
  deriving DecidableEq, Repr, Inhabited

/-- The role with this name in the grammar. -/
def Field.ofName? : String → Option Field
  | "name" => some .name
  | "left" => some .left
  | "right" => some .right
  | "scope" => some .scope
  | "method" => some .method
  | "receiver" => some .receiver
  | "block" => some .block
  | "arguments" => some .arguments
  | "key" => some .key
  | "body" => some .body
  | _ => none

/-- What a node is, apart from its children. -/
structure NodeInfo where
  kind : Kind
  span : Span
  /-- Named nodes are the constructs of the grammar; the others are tokens such as `(`. -/
  named : Bool := true
  /-- The node stands for text that fits no construct. -/
  isError : Bool := false
  /-- The node stands for a token that is not there. -/
  isMissing : Bool := false
  /-- The node or some node below it is an error or missing, as the parser says. -/
  hasError : Bool := false
  /-- The role of the node in its parent. -/
  field : Option Field := none
  deriving DecidableEq, Repr, Inhabited

/-- A node with its children in source order. -/
inductive Tree where
  | node (info : NodeInfo) (children : List Tree)
  deriving Inhabited

namespace Tree

/-- What the top node is. -/
def info : Tree → NodeInfo
  | node info _ => info

/-- The children of the top node. -/
def children : Tree → List Tree
  | node _ children => children

/-- The kind of the top node. -/
def kind (t : Tree) : Kind := t.info.kind

/-- The range of the top node. -/
def span (t : Tree) : Span := t.info.span

/-- Whether the top node is a construct of the grammar. -/
def isNamed (t : Tree) : Bool := t.info.named

/-- Whether the top node has this role in its parent. -/
def hasField (f : Field) (t : Tree) : Bool := t.info.field = some f

/-- The children that are constructs of the grammar. -/
def namedChildren (t : Tree) : List Tree :=
  t.children.filter (·.isNamed)

/-- The child in a role. -/
def child? (t : Tree) (f : Field) : Option Tree :=
  t.children.find? (·.hasField f)

mutual
/-- Number of nodes of a tree. -/
def size : Tree → Nat
  | node _ children => 1 + sizeAll children
/-- Number of nodes of several trees. -/
def sizeAll : List Tree → Nat
  | [] => 0
  | t :: ts => t.size + sizeAll ts
end

mutual
/-- All nodes of a tree in pre-order. -/
def nodes : Tree → List Tree
  | node info children => node info children :: nodesAll children
/-- All nodes of several trees in pre-order. -/
def nodesAll : List Tree → List Tree
  | [] => []
  | t :: ts => t.nodes ++ nodesAll ts
end

/-- The named nodes of a tree in pre-order, the top included when it is named. -/
def named (t : Tree) : List Tree :=
  t.nodes.filter (·.isNamed)

end Tree

end RubyLint
