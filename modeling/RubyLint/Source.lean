import RubyLint.Text.Lines
import RubyLint.Path

/-!
# Source texts

A file's text together with the table of its line starts, and the conversion between byte offsets
and the line and column that a report shows.

* `Source.position`: the line and column of an offset.
* `Source.offsetAt`: the offset of a line and column.
* `Source.lineEnd`: the offset at which a line's text ends.
* `Location`: a range of bytes of a file with its line and column; `FileContext.location` makes one.
-/

namespace RubyLint

/-- Half-open range of byte offsets. -/
structure Span where
  start : Nat
  stop : Nat
  deriving DecidableEq, Repr, Inhabited

/-- A text with its line table. The characters and the table are derived from the text once and
kept. -/
structure Source where
  content : String
  chars : List Char := content.toList
  starts : Array Nat := (Text.lineStarts chars).toArray
  chars_eq : chars = content.toList := by rfl
  starts_eq : starts = (Text.lineStarts chars).toArray := by rfl

namespace Source

/-- The source with this text. -/
def ofString (content : String) : Source :=
  { content }

/-- Number of bytes. -/
def size (s : Source) : Nat :=
  Text.width s.chars

/-- The text of a range; empty if the range is not one of whole characters inside the text. -/
def text (s : Source) (span : Span) : String :=
  String.ofList ((Text.slice? span.start span.stop s.chars).getD [])

/-- The lines of the text. -/
def lines (s : Source) : List (List Char) :=
  Text.lines s.chars

/-- Number of lines. -/
def lineCount (s : Source) : Nat :=
  s.lines.length

/-- The line and column, both from 1, of an offset; an offset past the end counts as the end. The
column counts characters from the start of the line, or bytes when the offset is inside a
character. -/
def position (s : Source) (offset : Nat) : Nat × Nat :=
  let offset := min offset s.size
  let index := Text.lineIndex s.starts offset
  let start := s.starts.getD index 0
  let column := ((Text.slice? start offset s.chars).map List.length).getD (offset - start)
  (index + 1, column + 1)

/-- The offset of a column, in characters from 1, counted from the start of a line and across line
ends. Line 0 is the start of the text; a line or column that does not exist is its end. -/
def offsetAt (s : Source) (line column : Nat) : Nat :=
  if line = 0 then 0 else
  match s.starts[line - 1]? with
  | none => s.size
  | some start =>
    let rest := (Text.from? start s.chars).getD []
    if column - 1 < rest.length then start + Text.width (rest.take (column - 1)) else s.size

/-- The offset right before the ending of a line, a carriage return in front of it included; for a
line that does not exist, the end of the text. -/
def lineEnd (s : Source) (line : Nat) : Nat :=
  let next := s.starts.getD line (s.size + 1)
  let stop := min (next - 1) s.size
  match (Text.upTo? stop s.chars).bind List.getLast? with
  | some '\r' => stop - 1
  | _ => stop

end Source

/-- A range of bytes of a file, and the line and column of its start. -/
structure Location where
  file : Path
  line : Nat
  column : Nat
  offset : Nat := 0
  length : Nat := 0
  deriving DecidableEq, Repr

/-- A file under analysis: its path, the path that reports show, and its text. -/
structure FileContext where
  path : Path
  relative : Path
  source : Source

namespace FileContext

/-- A file of a project, reported relative to the project's root when it is below it. -/
def inProject (path : Path) (content : String) (root : Path) : FileContext :=
  { path, relative := (path.stripPrefix? root).getD path, source := .ofString content }

/-- A text that belongs to no project, reported under its own path. -/
def standalone (path : Path) (content : String) : FileContext :=
  { path, relative := path, source := .ofString content }

/-- The location of a range of bytes. A range that ends before it starts has length 0. -/
def location (ctx : FileContext) (start stop : Nat) : Location :=
  let (line, column) := ctx.source.position start
  { file := ctx.relative, line, column, offset := start, length := stop - start }

/-- The location of a span. -/
def locate (ctx : FileContext) (span : Span) : Location :=
  ctx.location span.start span.stop

end FileContext

end RubyLint
