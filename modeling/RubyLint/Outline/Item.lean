import RubyLint.Syntax.Tree

/-!
# Constants of a tree

For constants only four things matter in a syntax tree: declarations of modules and classes,
assignments to constants, uses of constants, and the nesting of everything else around them. An
`Item` is a tree of these.

* `Item.ofTree`: reads a syntax tree. Each node gives exactly one item.
* `Item.segments`: the names of a chain such as `A::B::C`, leftmost first.
-/

namespace RubyLint

/-- What an item is. -/
inductive Item.Label where
  /-- A module or class; `header` is the place of the declared name among the items inside. -/
  | declaration (header : Option Nat)
  /-- An assignment to a constant. -/
  | assign (name : String)
  /-- A use of a constant: one name of a chain. The item inside, if any, is what qualifies it; it
  is rooted when it is written with a leading `::`. -/
  | reference (name : String) (rooted : Bool)
  /-- Any other construct. -/
  | other
  deriving DecidableEq, Repr

/-- A construct with the constructs inside it, in source order. -/
inductive Item where
  | mk (label : Item.Label) (span : Span) (children : List Item)

namespace Item

/-- The place of a declared name among the named children of a declaration. Only a constant or a
chain of constants counts as a name. -/
def headerPlace? (children : List Tree) : Option Nat :=
  (children.filter (·.isNamed)).findIdx? fun t =>
    t.hasField .name && (t.kind = .constant || t.kind = .scopeResolution)

/-- The text of the child in a role; empty without one. -/
def fieldText (source : Source) (f : Field) (children : List Tree) : String :=
  ((children.find? (·.hasField f)).map fun t => source.text t.span).getD ""

/-- The constant that an assignment assigns, if its left side is a bare constant. -/
def assigned? (source : Source) (children : List Tree) : Option String :=
  ((children.find? (·.hasField .left)).filter (·.kind = .constant)).map fun t => source.text t.span

mutual
/-- The item of a node. -/
def ofTree (source : Source) : Tree → Item
  | .node info children =>
    match info.kind with
    | .moduleDecl | .classDecl =>
      mk (.declaration (headerPlace? children)) info.span (ofChildren source children)
    | .assignment | .operatorAssignment =>
      match assigned? source children with
      | some name => mk (.assign name) info.span (ofField source .right children)
      | none => mk .other info.span (ofChildren source children)
    | .leftAssignmentList | .destructuredLeftAssignment =>
      mk .other info.span (ofTargets source children)
    | .constant => mk (.reference (source.text info.span) false) info.span []
    | .scopeResolution =>
      mk (.reference (fieldText source .name children) (!children.any (·.hasField .scope)))
        info.span (ofField source .scope children)
    | .call => mk .other info.span (ofCallParts source children)
    | _ => mk .other info.span (ofChildren source children)
/-- The items of the named children. -/
def ofChildren (source : Source) : List Tree → List Item
  | [] => []
  | t :: ts =>
    if t.isNamed then ofTree source t :: ofChildren source ts else ofChildren source ts
/-- The items of the children of a call. A method named like a constant, as in `Integer(1)`, is not
a use of that constant. -/
def ofCallParts (source : Source) : List Tree → List Item
  | [] => []
  | t :: ts =>
    if t.isNamed && !(t.hasField .method && t.kind = .constant) then
      ofTree source t :: ofCallParts source ts
    else ofCallParts source ts
/-- The items of the targets of a multiple assignment, where constants are assigned. -/
def ofTargets (source : Source) : List Tree → List Item
  | [] => []
  | t :: ts =>
    if t.isNamed then
      (if t.kind = .constant then mk (.assign (source.text t.span)) t.span [] else ofTree source t)
        :: ofTargets source ts
    else ofTargets source ts
/-- The item of the child in a role, as a list of at most one. -/
def ofField (source : Source) (f : Field) : List Tree → List Item
  | [] => []
  | t :: ts => if t.hasField f then [ofTree source t] else ofField source f ts
end

/-- The item of a whole file: the top only holds what is inside it. -/
def ofRoot (source : Source) (root : Tree) : Item :=
  mk .other root.span (ofChildren source root.children)

mutual
/-- The names of a chain, leftmost first; a qualifier that is not a constant ends the chain. -/
def segments : Item → List String
  | mk label _ children =>
    match label with
    | .reference name _ => qualifier children ++ [name]
    | _ => []
/-- The names of what qualifies a use. -/
def qualifier : List Item → List String
  | [] => []
  | t :: _ => t.segments
end

end Item

end RubyLint
