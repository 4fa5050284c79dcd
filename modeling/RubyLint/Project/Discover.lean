import RubyLint.Analyzer.Basic
import RubyLint.Notice
import RubyLint.Project.UserList

/-!
# Finding the files of a project

The files below a root, except hidden ones, those that ignore files leave out, and those that the
analyzer excludes or has no rule for.

* `Survey.verdict?`: what the ignore files around a file or directory say of it.
* `Survey.isSkipped`: a file or directory is passed over.
* `Survey.fault?`: the file that keeps a survey from starting.
* `Survey.visible`: the files that a survey reaches.
* `Analyzer.discover`: the files to analyze, in path order.
-/

namespace RubyLint

/-- A survey of the files below a directory. -/
structure Survey where
  disk : Disk
  surroundings : Surroundings
  respectGitignore : Bool
  /-- The directory where it starts, as written. -/
  root : Path
  /-- The place that `root` leads to. -/
  base : Place

namespace Survey

/-- The path of what a way from the root leads to. -/
def path (s : Survey) (way : Place) : Path :=
  way.foldl (fun path name => path.join ⟨name⟩) s.root

/-- What the ignore files of several directories say: the first directory with an opinion
decides. -/
def opinion? (s : Survey) (file? : Place → Option Path) (isDir : Bool)
    (around : List (Place × Place)) : Option Verdict :=
  around.findSome? fun (dir, way) =>
    (file? dir).bind fun file =>
      verdictOf? (s.disk.ignoreRules file) ("/".intercalate way).toList isDir

/-- What the ignore files around a file or directory say of it. Those named `.ignore` come first;
then, inside a repository and if asked for, `.gitignore` files, the repository's own list and the
user's own. -/
def verdict? (s : Survey) (way : Place) (isDir : Bool) : Option Verdict :=
  let around := Disk.holders (s.base ++ way)
  let inRepository := if s.respectGitignore then s.disk.repositoryPart around else []
  let named (name : String) (dir : Place) : Option Path := some (Disk.pathOf (dir ++ [name]))
  -- the user's own list has no directory: it sees the path from the working directory
  let byUser :=
    if inRepository.isEmpty then none
    else verdictOf? (s.disk.userRules s.surroundings) (s.surroundings.relative (s.path way)) isDir
  (((s.opinion? (named ".ignore") isDir around).or
      (s.opinion? (named ".gitignore") isDir inRepository)).or
      (s.opinion? (s.disk.ownList? s.surroundings) isDir inRepository)).or
    byUser

/-- A file or directory is passed over: it is ignored, or its name starts with a dot and no rule
takes it in. -/
def isSkipped (s : Survey) (way : Place) (isDir : Bool) : Bool :=
  match s.verdict? way isDir with
  | some .ignored => true
  | some .takenIn => false
  | none => way.getLast?.any (·.startsWith ".")

/-- Following `way` after `sofar`, no directory on it is passed over, nor the file at its end. -/
def reaches (s : Survey) : Place → Place → Bool
  | _, [] => true
  | sofar, name :: way =>
    !s.isSkipped (sofar ++ [name]) (!way.isEmpty) && s.reaches (sofar ++ [name]) way

/-- The ways to the files that a survey reaches. -/
def visible (s : Survey) : List Place :=
  s.disk.files.filterMap fun (place, _) =>
    if s.base.isPrefixOf place then
      let way := place.drop s.base.length
      if !way.isEmpty && s.reaches [] way then some way else none
    else none

/-- The file at fault among the ignore files of a directory: one with a malformed line, or one that
should lead to a repository's own list and cannot be read. -/
def faultIn? (s : Survey) (dir : Place) : Option Path :=
  let malformed (path : Path) : Bool := s.disk.isMalformedList path
  let named := if s.respectGitignore then [".ignore", ".gitignore"] else [".ignore"]
  let byName := (named.map fun name => Disk.pathOf (dir ++ [name])).find? malformed
  let byRepository :=
    if s.respectGitignore then
      match s.disk.ownList s.surroundings dir with
      | .ok list => list.filter malformed
      | .error path => some path
    else none
  byName.or byRepository

/-- The file that keeps a survey from starting: one at fault in a directory above the root. In the
root and below it such files do no harm. -/
def fault? (s : Survey) : Option Path :=
  (Disk.holders s.base).reverse.findSome? fun (dir, _) => s.faultIn? dir

end Survey

namespace Analyzer

/-- A file is of interest: it is Ruby, or a text rule runs on it. -/
def wants (a : Analyzer) (path : Path) : Bool :=
  isRuby path || !(a.textRulesFor path).isEmpty

/-- A pattern leaves a file out. Patterns see the path below the root. -/
def excludes (a : Analyzer) (path : Path) : Bool :=
  a.exclude.any (·.accepts ((path.stripPrefix? a.root).getD path).text)

/-- The paths that a walk from the root reaches; a root that is a file is the only one. -/
def walk (a : Analyzer) (d : Disk) : Except RunError (List Path) :=
  match d.resolve? a.root with
  | none => .error (.noSuchRoot a.root)
  | some base =>
    if d.isFile base then .ok [a.root]
    else
      let s : Survey :=
        { disk := d
          surroundings := a.surroundings
          respectGitignore := a.config.discovery.respectGitignore
          root := a.root
          base }
      match s.fault? with
      | some file => .error (.faultyIgnoreFile file)
      | none => .ok (s.visible.map s.path)

/-- The files to analyze, in path order. -/
def discover (a : Analyzer) (d : Disk) : Except RunError (List Path) :=
  (a.walk d).map fun paths =>
    (paths.filter fun p => a.wants p && !a.excludes p).mergeSort fun p q => (p.compare q).isLE

end Analyzer

end RubyLint
