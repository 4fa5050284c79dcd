import RubyLint.Outline.Basic

/-!
# Namespaces

A namespace is a path of names from the root. Every node of an outline stands in one: that of the
nearest declaration around it.

* `NamePath`: a path of names; the empty path is the root.
* `Outline.declarationPath`: the namespace that a declaration opens.
* `Outline.contextPath`: the namespace around a node.
-/

namespace RubyLint

/-- Names from the root inwards. -/
structure NamePath where
  segments : List String
  deriving DecidableEq, Repr, Inhabited

namespace NamePath

/-- The root namespace. -/
def root : NamePath := ⟨[]⟩

/-- Number of names. -/
def length (p : NamePath) : Nat := p.segments.length

/-- Whether a path is the root. -/
def isRoot (p : NamePath) : Bool := p.segments.isEmpty

/-- `outer` encloses `p`, or is `p` itself. -/
def startsWith (p outer : NamePath) : Bool :=
  outer.segments.isPrefixOf p.segments

/-- A path inside another. -/
def join (p : NamePath) (segments : List String) : NamePath :=
  ⟨p.segments ++ segments⟩

/-- A path written from the root, each name after a separator. -/
def render (p : NamePath) (separator : String) : String :=
  p.segments.foldl (fun text segment => text ++ separator ++ segment) ""

/-- A path as written in Ruby. -/
def display (p : NamePath) : String := p.render "::"

end NamePath

namespace Outline

/-- The namespace that a declaration opens: the headers of all declarations around it, outermost
first, and then its own. -/
def declarationPath (o : Outline) (id : Nat) : NamePath :=
  ⟨((id :: o.ancestors id).filterMap o.declared?).reverse.flatten⟩

/-- The namespace around a node: the one that the nearest declaration above it opens, or the
root. -/
def contextPath (o : Outline) (id : Nat) : NamePath :=
  match (o.ancestors id).find? fun a => (o.declared? a).isSome with
  | some d => o.declarationPath d
  | none => .root

end Outline

end RubyLint
