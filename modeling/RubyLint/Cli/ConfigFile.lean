import RubyLint.Config.Basic
import RubyLint.Notice
import RubyLint.Project.Disk
import RubyLint.Surroundings

/-!
# The configuration file of a run

A run uses the file it is told to use, or else the nearest one at or above what it checks, or else
the user's own, or else none.

* `ConfigSource.find`: which file a run uses.
* `ConfigSource.load`: the configuration in it.
-/

namespace RubyLint

/-- The surroundings of a run, with what they say of its configuration. -/
structure Environment extends Surroundings where
  /-- The configuration file that the environment names. -/
  configFile : Option String := none
  /-- The directory of the user's configuration that the environment names. -/
  configDir : Option String := none

/-- Reads the value of a configuration text. -/
abbrev ConfigReader := String → Option Value

/-- Where the configuration comes from. -/
inductive ConfigSource where
  /-- Named by the user. -/
  | explicit (path : Path)
  /-- Found at or above what is checked. -/
  | project (path : Path)
  /-- The user's own. -/
  | global (path : Path)
  /-- No file: the built-in defaults. -/
  | builtin
  deriving DecidableEq, Repr

namespace ConfigSource

/-- The names of a project's configuration file, the preferred one first. -/
def projectNames : List String := ["rb-lint.toml", ".rb-lint.toml"]

/-- The name of the user's own configuration file. -/
def globalName : String := "config.toml"

/-- A path, seen from the working directory, leads to a file. -/
def isFile (env : Environment) (d : Disk) (path : Path) : Bool :=
  (d.resolve? (env.locate path)).any d.isFile

/-- The directory where the search for a project's file starts: what is checked, or the directory it
is in. What does not exist is taken as written. -/
def searchStart? (env : Environment) (d : Disk) (target : Path) : Option Path :=
  match d.resolve? (env.locate target) with
  | some place => if d.isFile place then (Disk.pathOf place).parent? else some (Disk.pathOf place)
  | none => some target

/-- The project's file in a directory or the nearest one above. -/
def findProject? (env : Environment) (d : Disk) (target : Path) : Option Path := do
  let start ← searchStart? env d target
  (start.ancestors.flatMap fun dir => projectNames.map fun name => dir.join ⟨name⟩).find?
    (isFile env d)

/-- The directory of the user's own configuration. -/
def globalDir? (env : Environment) : Option Path :=
  (env.configDir.map Path.mk).or (env.homeDir?.map (·.join ⟨".rb-lint"⟩))

/-- Which file a run uses. -/
def find (env : Environment) (d : Disk) (named : Option Path) (target : Path) : ConfigSource :=
  match named with
  | some path => .explicit path
  | none =>
    match findProject? env d target with
    | some path => .project path
    | none =>
      match ((globalDir? env).map (·.join ⟨globalName⟩)).filter (isFile env d) with
      | some path => .global path
      | none => .builtin

/-- The file that a source stands for. -/
def path? : ConfigSource → Option Path
  | explicit path | project path | global path => some path
  | builtin => none

/-- What is told when a source is used. -/
def notices : ConfigSource → List Notice
  | global path => [.usingGlobalConfig path]
  | _ => []

/-- The configuration of a source; fails with the path of a file that cannot be read. -/
def load (reader : ConfigReader) (env : Environment) (d : Disk) (s : ConfigSource) :
    Except Path Config :=
  match s.path? with
  | none => .ok {}
  | some path =>
    match d.open? (env.locate path) with
    | some (.text content) =>
      match (reader content).bind Config.ofValue? with
      | some config => .ok config
      | none => .error path
    | _ => .error path

end ConfigSource

end RubyLint
