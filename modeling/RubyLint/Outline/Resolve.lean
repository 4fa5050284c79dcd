import RubyLint.Outline.Scope

/-!
# Resolving constants

Which constant of the same file a use refers to. Only the first name of a chain is looked up; the
others are kept.

* `Outline.candidates`: where a file defines a name.
* `Outline.fit?`: how near a definition is to a use.
* `Outline.locate?`: the full path of a use, from the nearest definition.
-/

namespace RubyLint

/-- A place that defines a name, and the namespace it stands in. -/
structure Candidate where
  node : Nat
  context : NamePath
  name : String
  deriving DecidableEq, Repr

namespace Outline

/-- A node defines a name: a declaration whose header starts with it, or an assignment to it. -/
def defines (o : Outline) (name : String) (id : Nat) : Bool :=
  match o.role id with
  | .declaration segments _ => segments.head? = some name
  | .assign assigned => assigned = name
  | _ => false

/-- The definitions of a name in pre-order. -/
def candidates (o : Outline) (name : String) : List Candidate :=
  (o.preorder.filter (o.defines name)).map fun id => ⟨id, o.contextPath id, name⟩

/-- How well a definition in namespace `d` fits a use in namespace `ctx`. -/
inductive Fit where
  /-- The definition is elsewhere, but the use is at the root, where anything is in reach. -/
  | elsewhere
  /-- The definition's namespace encloses the use, at this depth. -/
  | enclosing (depth : Nat)
  deriving DecidableEq, Repr

/-- A deeper enclosing namespace is nearer, and any enclosing one is nearer than elsewhere. -/
def Fit.nearer : Fit → Fit → Bool
  | .enclosing a, .enclosing b => b < a
  | .enclosing _, .elsewhere => true
  | .elsewhere, _ => false

/-- How a definition fits a use, if it is in reach of it. -/
def fit? (d ctx : NamePath) : Option Fit :=
  if ctx.startsWith d then some (.enclosing d.length)
  else if ctx.isRoot then some .elsewhere
  else none

/-- Keeps the nearer of the best candidate so far and the next one; the earlier wins a tie. -/
def better (ctx : NamePath) (best : Option (Fit × Candidate)) (c : Candidate) :
    Option (Fit × Candidate) :=
  match fit? c.context ctx, best with
  | none, _ => best
  | some fit, none => some (fit, c)
  | some fit, some (top, found) => if fit.nearer top then some (fit, c) else some (top, found)

/-- The full path of a use with these names in a namespace, if the file defines it. -/
def locate? (o : Outline) (names : List String) (ctx : NamePath) : Option NamePath :=
  match names with
  | [] => none
  | first :: _ =>
    ((o.candidates first).foldl (better ctx) none).map fun (_, found) => found.context.join names

end Outline

end RubyLint
