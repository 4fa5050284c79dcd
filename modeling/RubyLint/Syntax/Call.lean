import RubyLint.Syntax.Walk

/-!
# Method calls

Most rules look for calls of one shape, such as "a call of `chdir` on `Dir`, with one argument and a
block". A `CallPattern` states the shape.

* `Call`: the parts of a call.
* `CallPattern.find?`: the call at a node, if it has the shape.
* `CallPattern.search`: the calls of this shape in a tree.
-/

namespace RubyLint

/-- A node that is a call. -/
structure Call where
  node : Tree

namespace Call

/-- A node as a call, if it is one. -/
def ofTree? (t : Tree) : Option Call :=
  if t.kind = .call then some ⟨t⟩ else none

/-- The name of the called method; empty if the call has none, as in `f.()`. -/
def method (source : Source) (c : Call) : String :=
  ((c.node.child? .method).map fun m => source.text m.span).getD ""

/-- The written receiver. -/
def receiver? (c : Call) : Option Tree := c.node.child? .receiver

/-- The attached block. -/
def block? (c : Call) : Option Tree := c.node.child? .block

/-- All that is written between the parentheses of a call, comments and passed blocks included. -/
def argumentList (c : Call) : List Tree :=
  ((c.node.child? .arguments).map Tree.namedChildren).getD []

/-- The arguments of a call; a passed block such as `&block` is not one. -/
def arguments (c : Call) : List Tree :=
  c.argumentList.filter fun t => t.kind ≠ .comment && t.kind ≠ .blockArgument

/-- A block is attached, or passed with `&`. -/
def hasBlock (c : Call) : Bool :=
  c.block?.isSome || c.argumentList.any (·.kind = .blockArgument)

/-- A node is the constant with this name, bare or with a leading `::`. -/
def isConstant (source : Source) (name : String) (t : Tree) : Bool :=
  match t.kind with
  | .constant => source.text t.span == name
  | .scopeResolution =>
    (t.child? .scope).isNone && (t.child? .name).any fun n => source.text n.span == name
  | _ => false

end Call

/-- Whether an optional part of a call has to be there. -/
inductive Presence where
  | any
  | present
  | absent
  deriving DecidableEq, Repr

/-- Whether a part that is there or not meets the demand. -/
def Presence.accepts : Presence → Bool → Bool
  | .any, _ => true
  | .present, there => there
  | .absent, there => !there

/-- The shape of a call. -/
structure CallPattern where
  /-- The method is one of these. -/
  methods : List String
  receiver : Presence := .any
  /-- A receiver, if there is one, is this constant. -/
  receiverConst : Option String := none
  block : Presence := .any
  /-- The number of arguments. -/
  argCount : Option Nat := none
  deriving Repr

namespace CallPattern

/-- A call has the shape. -/
def accepts (p : CallPattern) (source : Source) (c : Call) : Bool :=
  p.methods.contains (c.method source) &&
  p.receiver.accepts c.receiver?.isSome &&
  p.receiverConst.all (fun name => c.receiver?.all (Call.isConstant source name)) &&
  p.block.accepts c.hasBlock &&
  p.argCount.all (fun count => c.arguments.length == count)

/-- The call at a node, if it has the shape. -/
def find? (p : CallPattern) (source : Source) (t : Tree) : Option Call :=
  (Call.ofTree? t).filter (p.accepts source)

/-- The calls of the shape among the nodes of a tree, in pre-order. -/
def search (p : CallPattern) (source : Source) (t : Tree) : List Call :=
  (descendants t).filterMap (p.find? source)

end CallPattern

end RubyLint
