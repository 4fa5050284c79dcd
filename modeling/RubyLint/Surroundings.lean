import RubyLint.Path

/-!
# Surroundings

Where a run takes place, and where its user keeps files of their own. Paths that are not absolute
are seen from the working directory, also those that the user's settings hold.

* `Surroundings.locate`: a path as seen from the working directory.
* `Surroundings.homeDir?`, `Surroundings.configHome?`: the user's directories, as written.
-/

namespace RubyLint

/-- Where a run takes place. -/
structure Surroundings where
  workingDir : Path
  /-- The user's home directory; an empty text names none. -/
  home : Option String := none
  /-- The directory for the settings of the user's programs; an empty text names none. -/
  settings : Option String := none
  /-- The configuration file to ask before those of the user; an empty text names none. -/
  firstConfig : Option String := none
  /-- The configuration file to ask after those of the user; an empty text names none. -/
  lastConfig : Option String := none
  deriving DecidableEq, Repr

namespace Surroundings

/-- A path as seen from the working directory. -/
def locate (s : Surroundings) (path : Path) : Path :=
  s.workingDir.join path

/-- The path that a setting names. -/
def named? (setting : Option String) : Option Path :=
  (setting.filter (!·.isEmpty)).map Path.mk

/-- The user's home directory. -/
def homeDir? (s : Surroundings) : Option Path :=
  named? s.home

/-- The directory for the settings of the user's programs, which by default is in the home
directory. -/
def configHome? (s : Surroundings) : Option Path :=
  (named? s.settings).or (s.homeDir?.map (·.join ⟨".config"⟩))

/-- The text of a path without the working directory that it starts with. -/
def relative (s : Surroundings) (path : Path) : List Char :=
  let text := path.text.toList
  let rest := (Text.after? s.workingDir.text.toList text).getD text
  (Text.after? ['/'] rest).getD rest

end Surroundings

end RubyLint
