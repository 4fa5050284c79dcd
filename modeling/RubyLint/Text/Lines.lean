import RubyLint.Text.Bytes

/-!
# Lines of a text

A line ends at a line feed. Two views of the lines stand side by side: the list of their texts, and
the table of the byte offsets at which they start.

* `lines`: the line texts, each without its ending (a line feed, with one carriage return before
  it); a text that ends in a line feed has no further, empty line.
* `lineStarts`: byte 0 and the byte after each line feed.
* `lineIndex`: the line that holds an offset, by bisection of the table.
-/

namespace RubyLint.Text

/-- A line whose characters were collected in reverse, without the carriage return that belonged to
its ending. -/
def finishLine : List Char → List Char
  | '\r' :: rest => rest.reverse
  | reversed => reversed.reverse

/-- Collects the characters of the current line in reverse until its line feed. -/
def linesFrom (reversed : List Char) : List Char → List (List Char)
  | [] => if reversed.isEmpty then [] else [reversed.reverse]
  | '\n' :: cs => finishLine reversed :: linesFrom [] cs
  | c :: cs => linesFrom (c :: reversed) cs

/-- The lines of a text. A carriage return is part of an ending only in front of a line feed. -/
def lines (cs : List Char) : List (List Char) :=
  linesFrom [] cs

/-- The offsets right after each line feed, the text itself starting at `offset`. -/
def startsAfter (offset : Nat) : List Char → List Nat
  | [] => []
  | c :: cs =>
    let next := offset + c.utf8Size
    if c = '\n' then next :: startsAfter next cs else startsAfter next cs

/-- The byte offset of the start of each line; a text that ends in a line feed has one more, empty
line in this table. -/
def lineStarts (cs : List Char) : List Nat :=
  0 :: startsAfter 0 cs

/-- Bisects `lo ≤ i < hi` for the last index whose entry is at most `offset`. -/
def bisect (starts : Array Nat) (offset : Nat) : Nat → Nat → Nat → Nat
  | 0, lo, _ => lo
  | fuel + 1, lo, hi =>
    if lo + 1 < hi then
      let mid := (lo + hi) / 2
      if starts.getD mid 0 ≤ offset then bisect starts offset fuel mid hi
      else bisect starts offset fuel lo mid
    else lo

/-- The index of the last line that starts at or before `offset`. -/
def lineIndex (starts : Array Nat) (offset : Nat) : Nat :=
  bisect starts offset starts.size 0 starts.size

end RubyLint.Text
