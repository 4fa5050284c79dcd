import RubyLint.Ignore.Rule
import RubyLint.Project.Disk
import RubyLint.Surroundings

/-!
# Repositories

A directory is the top of a repository when it holds an entry `.git` or `.jj`. A repository has a
list of its own of what is not part of it. That list is in the directory `.git`, or, where `.git` is
a file, in the repository that the file leads to.

* `Disk.isRepository`: a directory is the top of a repository.
* `Disk.repositoryPart`: the directories around a place that belong to its repository.
* `Disk.ignoreRules`: the rules of an ignore file; `Disk.isMalformedList` if a line is no rule.
* `Disk.ownList`: where a repository's own list is.
-/

namespace RubyLint

namespace Disk

/-- A directory is the top of a repository. -/
def isRepository (d : Disk) (dir : Place) : Bool :=
  d.holds (dir ++ [".git"]) || d.holds (dir ++ [".jj"])

/-- The directories around a place, nearest first, each with the way from there to the place. -/
def holders : Place → List (Place × Place)
  | [] => []
  | name :: rest =>
    (holders rest).map (fun (dir, way) => (name :: dir, way)) ++ [([], name :: rest)]

/-- The directories up to the first one that is the top of a repository; none if there is none. -/
def repositoryPart (d : Disk) : List (Place × Place) → List (Place × Place)
  | [] => []
  | (dir, way) :: around =>
    if d.isRepository dir then [(dir, way)]
    else match d.repositoryPart around with
      | [] => []
      | part => (dir, way) :: part

/-- The lines of the ignore file that a path leads to; none without such a file. -/
def ignoreLines (d : Disk) (path : Path) : List IgnoreLine :=
  match d.open? path with
  | some data => IgnoreLine.readAll data.readable
  | none => []

/-- The rules of the ignore file that a path leads to. -/
def ignoreRules (d : Disk) (path : Path) : List IgnoreRule :=
  rulesOf (d.ignoreLines path)

/-- A path leads to an ignore file with a malformed line. -/
def isMalformedList (d : Disk) (path : Path) : Bool :=
  (d.ignoreLines path).any IgnoreLine.isMalformed

/-- The first line of the file that a path leads to, if there is a file and it is not empty. Fails
with the path if that line is no text, or if the path leads to a directory. -/
def firstLine (d : Disk) (path : Path) : Except Path (Option (List Char)) :=
  match d.resolve? path with
  | none => .ok none
  | some place =>
    match d.read? place with
    | none => .error path
    | some data =>
      match byteLines data.bytes with
      | [] => .ok none
      | line :: _ =>
        match String.fromUTF8? ⟨line.toArray⟩ with
        | some text => .ok (Text.lines text.toList).head?
        | none => .error path

/-- The repository that a file `.git` leads to: the file names a directory, whose file `commondir`
names the repository, from there if it starts with a dot. Fails with the path of a file whose line
cannot be read. -/
def linkedRepository (d : Disk) (s : Surroundings) (dir : Place) : Except Path (Option Path) := do
  let some line ← d.firstLine (pathOf (dir ++ [".git"])) | return none
  let some link := Text.after? "gitdir: ".toList line | return none
  let start : Path := ⟨String.ofList link⟩
  let some target ← d.firstLine (s.locate (start.join ⟨"commondir"⟩)) | return none
  let path : Path := ⟨String.ofList target⟩
  return some (if target.head? = some '.' then start.join path else path)

/-- Where the own list of the repository with this top is. Fails with the path of a file on the way
there that cannot be read. -/
def ownList (d : Disk) (s : Surroundings) (dir : Place) : Except Path (Option Path) := do
  let entry := dir ++ [".git"]
  let repository ← if d.isFile entry then d.linkedRepository s dir else pure (some (pathOf entry))
  return repository.map fun path => s.locate (path.join ⟨"info/exclude"⟩)

/-- Where the own list of the repository with this top is, if that can be found out. -/
def ownList? (d : Disk) (s : Surroundings) (dir : Place) : Option Path :=
  match d.ownList s dir with
  | .ok list => list
  | .error _ => none

end Disk

end RubyLint
