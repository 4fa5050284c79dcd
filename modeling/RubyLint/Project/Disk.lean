import RubyLint.Path
import RubyLint.Text.Bytes

/-!
# Files of a project

The files and directories that a run sees, as a value. A place is named by the entries that lead to
it from the top directory.

* `FileData.bytes`, `FileData.readable`: a content as bytes, and the part of it that is text.
* `Disk.resolve?`: the place that a path leads to.
* `Disk.read?`, `Disk.write`, `Disk.create`, `Disk.remove`: contents of files.
* `Disk.changes`: the files that differ between two states.
* `Disk.read?_write`: what is read after writing.
-/

namespace RubyLint

/-- The entries that lead to a file or directory from the top directory. -/
abbrev Place := List String

/-- The content of a file. -/
inductive FileData where
  | text (content : String)
  /-- Bytes that are no text. -/
  | binary (bytes : List UInt8)
  deriving DecidableEq, Repr

/-- The content with these bytes. -/
def FileData.ofBytes (bytes : ByteArray) : FileData :=
  match String.fromUTF8? bytes with
  | some content => .text content
  | none => .binary bytes.toList

/-- The bytes of a content. -/
def FileData.bytes : FileData → List UInt8
  | text content => Text.bytes content.toList
  | binary bytes => bytes

/-- Bytes, cut after each line feed. -/
def byteLines : List UInt8 → List (List UInt8)
  | [] => []
  | b :: bs =>
    if b = 0x0A then [b] :: byteLines bs
    else match byteLines bs with
      | [] => [[b]]
      | line :: lines => (b :: line) :: lines

/-- The text of the lines in front of the first one that is no text. -/
def leadingText : List (List UInt8) → String
  | [] => ""
  | line :: lines =>
    match String.fromUTF8? ⟨line.toArray⟩ with
    | some text => text ++ leadingText lines
    | none => ""

/-- The text of a content, which ends before the first line that is no text. -/
def FileData.readable : FileData → String
  | text content => content
  | binary bytes => leadingText (byteLines bytes)

/-- Files with their contents, and directories. -/
structure Disk where
  files : List (Place × FileData) := []
  dirs : List Place := []

namespace Disk

/-- A place is a directory. The top is one. -/
def isDir (d : Disk) (place : Place) : Bool :=
  place.isEmpty || d.dirs.contains place

/-- The content of the file at a place. -/
def read? (d : Disk) (place : Place) : Option FileData :=
  d.files.lookup place

/-- A place is a file. -/
def isFile (d : Disk) (place : Place) : Bool :=
  (d.read? place).isSome

/-- There is something at a place. -/
def holds (d : Disk) (place : Place) : Bool :=
  d.isFile place || d.isDir place

/-- Follows the parts of a path from a place. Each part, even an idle one, needs a directory to
start from. -/
def follow? (d : Disk) : Place → List String → Option Place
  | place, [] => some place
  | place, part :: rest =>
    if !d.isDir place then none
    else if Path.isIdle part then d.follow? place rest
    else if part == ".." then d.follow? place.dropLast rest
    else if d.holds (place ++ [part]) then d.follow? (place ++ [part]) rest
    else none

/-- The place that an absolute path leads to, if there is something. -/
def resolve? (d : Disk) (path : Path) : Option Place :=
  match path.anchored with
  | (.root, parts) => d.follow? [] parts
  | _ => none

/-- The path of a place. -/
def pathOf (place : Place) : Path :=
  Path.render .root place

/-- The file that a path leads to. -/
def open? (d : Disk) (path : Path) : Option FileData :=
  (d.resolve? path).bind d.read?

/-- Sets the content of the file at a place, which may be new. -/
def write (d : Disk) (place : Place) (data : FileData) : Disk :=
  if d.isFile place then
    { d with files := d.files.map fun (p, old) => if p = place then (p, data) else (p, old) }
  else { d with files := d.files ++ [(place, data)] }

/-- The directories above a place and the place itself, outermost first. -/
def trail : Place → List Place
  | [] => [[]]
  | name :: rest => [] :: (trail rest).map (name :: ·)

/-- Adds a directory with those above it. -/
def createDir (d : Disk) (place : Place) : Disk :=
  { d with dirs := d.dirs ++ (trail place).filter fun p => !d.isDir p }

/-- Sets the content of the file at a place, with the directories it needs. -/
def create (d : Disk) (place : Place) (data : FileData) : Disk :=
  (d.createDir place.dropLast).write place data

/-- Removes the file at a place. -/
def remove (d : Disk) (place : Place) : Disk :=
  { d with files := d.files.filter (·.1 ≠ place) }

/-- The files whose content differs from, or which did not exist, before. -/
def changes (before after : Disk) : List (Place × FileData) :=
  after.files.filter fun (place, data) => before.read? place ≠ some data

/-- Replacing the content of one place changes what is found there and nowhere else. -/
theorem lookup_replace (files : List (Place × FileData)) (place q : Place) (data : FileData) :
    (files.map fun (p, old) => if p = place then (p, data) else (p, old)).lookup q =
      if q = place then (files.lookup q).map fun _ => data else files.lookup q := by
  induction files with
  | nil => simp
  | cons entry files ih =>
    obtain ⟨p, old⟩ := entry
    by_cases hq : q = p
    · by_cases hp : p = place <;> simp [hq, hp]
    · have hb : (q == p) = false := by simp [hq]
      by_cases hp : p = place
      · subst hp
        simpa [List.lookup_cons, hb, hq] using ih
      · simpa [List.lookup_cons, hb, hp] using ih

/-- Writing sets the content of its own place and of no other. -/
theorem read?_write (d : Disk) (place q : Place) (data : FileData) :
    (d.write place data).read? q = if q = place then some data else d.read? q := by
  unfold write
  split
  case isTrue h =>
    simp only [isFile, read?, lookup_replace] at h ⊢
    split
    case isTrue hq =>
      obtain ⟨old, hold⟩ := Option.isSome_iff_exists.1 h
      simp [hq, hold]
    case isFalse => rfl
  case isFalse h =>
    have hnone : d.files.lookup place = none :=
      Option.not_isSome_iff_eq_none.1 h
    simp only [read?, List.lookup_append]
    by_cases hq : q = place
    · simp [hq, hnone]
    · have hb : (q == place) = false := by simp [hq]
      simp [hq, hb, List.lookup_cons]

end Disk

end RubyLint
