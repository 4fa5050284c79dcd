import RubyLint.Project.Repository

/-!
# The user's own ignore list

A user can keep a list of what is not part of any of their repositories. Its place is a setting
`excludesfile = PATH` in one of several configuration files, or else a default one.

* `ExcludesSetting.find?`: the value of the setting in a configuration file.
* `Surroundings.configFiles`: the configuration files, in the order they are asked.
* `Disk.userList?`: where the list is.
* `Disk.userRules`: the rules in it.
-/

namespace RubyLint

namespace ExcludesSetting

/-- A byte that separates: a blank of one byte or a line end. -/
def isSpace (b : UInt8) : Bool :=
  b == 0x20 || (0x09 ≤ b && b ≤ 0x0D)

/-- The byte of a double quote. -/
def quote : UInt8 := 0x22

/-- The letters of the name in lower case. -/
def name : List UInt8 := Text.bytes "excludesfile".toList

/-- A letter in lower case, any other byte as it is. -/
def lower (b : UInt8) : UInt8 :=
  if 0x41 ≤ b && b ≤ 0x5A then b + 0x20 else b

/-- Nothing but separators stands before the next line end. -/
def endsLine (bs : List UInt8) : Bool :=
  (bs.takeWhile isSpace).contains 0x0A || (bs.dropWhile isSpace).isEmpty

/-- A value ends here: its line does, with or without a quote. -/
def endsValue (bs : List UInt8) : Bool :=
  endsLine bs ||
    match bs.dropWhile isSpace with
    | b :: rest => b == quote && endsLine rest
    | [] => false

/-- The shortest value at the start of a text, which is at least one byte and has no separator. -/
def value? : List UInt8 → Option (List UInt8)
  | [] => none
  | b :: bs =>
    if isSpace b then none
    else if endsValue bs then some [b]
    else (value? bs).map (b :: ·)

/-- The value after a `=`. A quote in front is not part of it, if there is a value without it. -/
def valueAfter? (bs : List UInt8) : Option (List UInt8) :=
  match bs.dropWhile isSpace with
  | b :: rest =>
    if b == quote then (value? (rest.dropWhile isSpace)).or (value? (b :: rest))
    else value? (b :: rest)
  | [] => none

/-- The value of a setting at the start of a line, with letters of either case in its name. -/
def ofLine? (bs : List UInt8) : Option (List UInt8) :=
  let bs := bs.dropWhile isSpace
  if (bs.take name.length).map lower = name then
    match (bs.drop name.length).dropWhile isSpace with
    | b :: rest => if b = 0x3D then valueAfter? rest else none
    | [] => none
  else none

/-- The value of the first line that is such a setting, a line starting here if `fresh`. -/
def search? (fresh : Bool) : List UInt8 → Option (List UInt8)
  | [] => none
  | b :: bs =>
    -- a line that only looks like a setting does not end the search
    match if fresh then ofLine? (b :: bs) else none with
    | some value => some value
    | none => search? (b = 0x0A) bs

/-- The value of the setting in a configuration file, if it is text. -/
def find? (content : List UInt8) : Option String :=
  (search? true content).bind fun value => String.fromUTF8? ⟨value.toArray⟩

end ExcludesSetting

namespace Surroundings

/-- A path with the home directory in place of each `~`. -/
def expandHome (s : Surroundings) (path : String) : Path :=
  match s.homeDir? with
  | none => ⟨path⟩
  | some home =>
    ⟨String.ofList (path.toList.flatMap fun c => if c = '~' then home.text.toList else [c])⟩

/-- The configuration files that may name the user's own list, in the order they are asked: between
the first and the last, the one in the home directory and the one among the settings. -/
def configFiles (s : Surroundings) : List Path :=
  [named? s.firstConfig, s.homeDir?.map (·.join ⟨".gitconfig"⟩),
    s.configHome?.map (·.join ⟨"git/config"⟩), named? s.lastConfig].filterMap id

end Surroundings

namespace Disk

/-- The list that a configuration file names. -/
def namedList? (d : Disk) (s : Surroundings) (file : Path) : Option Path := do
  let data ← d.open? (s.locate file)
  return s.expandHome (← ExcludesSetting.find? data.bytes)

/-- Where the user's own list is: where the first configuration file with the setting says, or else
among the settings. -/
def userList? (d : Disk) (s : Surroundings) : Option Path :=
  (s.configFiles.findSome? (d.namedList? s)).or (s.configHome?.map (·.join ⟨"git/ignore"⟩))

/-- The rules of the user's own list. -/
def userRules (d : Disk) (s : Surroundings) : List IgnoreRule :=
  match d.userList? s with
  | some path => d.ignoreRules (s.locate path)
  | none => []

end Disk

end RubyLint
