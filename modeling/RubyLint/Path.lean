import RubyLint.Text.Blank

/-!
# Paths

A path is kept as written, since reports show it that way, but compared by its components: `a/./b`,
`a//b` and `a/b` name the same place.

* `Path.components`: the components of a path; a leading `.` counts, other `.` and empty parts do
  not.
* `Path.compare`: the order of reports, component by component, so `a/b.rb` comes before `a-b.rb`.
* `Path.stripPrefix?`: the rest of a path below a directory, as written.
* `Path.join`, `Path.parent?`, `Path.ancestors`, `Path.fileName?`, `Path.extension?`.
-/

namespace RubyLint

/-- A path as written. -/
structure Path where
  text : String
  deriving DecidableEq, Repr, Inhabited

namespace Path

/-- One step of a path. -/
inductive Component where
  /-- The leading `/`. -/
  | root
  /-- A leading `.`. -/
  | current
  /-- A `..`, which is never folded away. -/
  | parent
  /-- A named entry. -/
  | name (text : String)
  deriving DecidableEq, Repr

/-- Where a path starts: at `/`, at a written `.`, or at nothing. -/
inductive Anchor where
  | root
  | current
  | none
  deriving DecidableEq, Repr

/-- The parts between the slashes of a path, empty ones included. -/
def parts (p : Path) : List String :=
  (Text.splitAll '/' p.text.toList).map String.ofList

/-- The start of a path and the parts after it. -/
def anchored (p : Path) : Anchor × List String :=
  match p.parts with
  | [""] => (.none, [])
  | "" :: rest => (.root, rest)
  | "." :: rest => (.current, rest)
  | parts => (.none, parts)

/-- A part that names nothing: empty, or a `.` that is not leading. -/
def isIdle (part : String) : Bool :=
  part == "" || part == "."

/-- The component of a part, if it is one. -/
def component? (part : String) : Option Component :=
  if isIdle part then none else if part == ".." then some .parent else some (.name part)

/-- The component of a path's start, if it has one. -/
def Anchor.components : Anchor → List Component
  | .root => [.root]
  | .current => [.current]
  | .none => []

/-- The components of a path. -/
def components (p : Path) : List Component :=
  p.anchored.1.components ++ p.anchored.2.filterMap component?

/-- Whether a path starts at `/`. -/
def isAbsolute (p : Path) : Bool :=
  p.anchored.1 = .root

/-- The order of the kinds of components. -/
def Component.rank : Component → Nat
  | .root => 0
  | .current => 1
  | .parent => 2
  | .name _ => 3

/-- Components compare by kind, named ones then by their characters. -/
def Component.compare : Component → Component → Ordering
  | .name a, .name b => Ord.compare a b
  | a, b => Ord.compare a.rank b.rank

/-- Lists of components compare at the first difference; a shorter list comes first. -/
def compareComponents : List Component → List Component → Ordering
  | [], [] => .eq
  | [], _ :: _ => .lt
  | _ :: _, [] => .gt
  | a :: as, b :: bs => (a.compare b).then (compareComponents as bs)

/-- The order of paths. -/
def compare (p q : Path) : Ordering :=
  compareComponents p.components q.components

/-- Two paths name the same place: they have the same components. -/
def same (p q : Path) : Bool :=
  p.components == q.components

/-- Parts without the idle ones at the end. -/
def trimIdleEnd (parts : List String) : List String :=
  (parts.reverse.dropWhile isIdle).reverse

/-- Parts without the idle ones at either end. -/
def trimIdle (parts : List String) : List String :=
  trimIdleEnd (parts.dropWhile isIdle)

/-- The path with this start and these parts. -/
def render : Anchor → List String → Path
  | .root, parts => ⟨"/" ++ "/".intercalate parts⟩
  | .current, parts => ⟨"/".intercalate ("." :: parts)⟩
  | .none, parts => ⟨"/".intercalate parts⟩

/-- The parts left after the given components, if the parts start with them. -/
def dropComponents? : List Component → List String → Option (List String)
  | [], parts => some parts
  | _ :: _, [] => none
  | c :: cs, part :: parts =>
    match component? part with
    | none => dropComponents? (c :: cs) parts
    | some d => if c = d then dropComponents? cs parts else none

/-- What is left of `p` below `dir`, as written but for slashes at its ends; none if `p` is not
below `dir`. A path stripped of itself is empty. -/
def stripPrefix? (p dir : Path) : Option Path :=
  let (anchor, parts) := p.anchored
  match dir.anchored.1, dir.components with
  | .none, [] => some (render anchor (trimIdleEnd parts))
  | .none, cs => if anchor = .none then below cs parts else none
  | start, cs => if anchor = start then below cs.tail parts else none
where
  below (cs : List Component) (parts : List String) : Option Path :=
    (dropComponents? cs parts).map fun rest => render .none (trimIdle rest)

/-- `p` as seen from `dir`; an absolute `p` stays itself. -/
def join (dir p : Path) : Path :=
  if p.isAbsolute then p
  else if dir.text.isEmpty || dir.text.endsWith "/" then ⟨dir.text ++ p.text⟩
  else ⟨dir.text ++ "/" ++ p.text⟩

/-- The last component, if it is a name. -/
def fileName? (p : Path) : Option String :=
  match p.components.getLast? with
  | some (.name text) => some text
  | _ => none

/-- The part of a file name after its last dot. A name that only starts with a dot has none, and
one that ends with a dot has an empty one. -/
def extension? (p : Path) : Option String := do
  let name ← p.fileName?
  match Text.splitFirst? '.' name.toList.reverse with
  | some (_, []) => none
  | some (ext, _) => some (String.ofList ext.reverse)
  | none => none

/-- The directory that holds a path; `/` and the empty path have none. -/
def parent? (p : Path) : Option Path :=
  let (anchor, parts) := p.anchored
  match trimIdleEnd parts, anchor with
  | [], .current => some ⟨""⟩
  | [], _ => none
  | body, _ => some (render anchor (trimIdleEnd body.dropLast))

/-- At most `n` directories upwards from a path, the path itself first. -/
def ancestorsWithin : Nat → Path → List Path
  | 0, p => [p]
  | n + 1, p => p :: (p.parent?.map (ancestorsWithin n)).getD []

/-- A path and the directories above it, nearest first. -/
def ancestors (p : Path) : List Path :=
  ancestorsWithin (p.parts.length + 1) p

end Path

end RubyLint
