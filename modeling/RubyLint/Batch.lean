import RubyLint.Violation

/-!
# Batches of edits

The edits of one pass are applied together to one text. They are taken in the order of their
ranges, and an edit that overlaps one already taken, or whose range is not in the text, is left for a
later pass.

* `Edit.stopIn`: where the range of an edit ends, in 64-bit arithmetic.
* `Edit.ordered`: the order in which edits are considered; insertions come before replacements at
  the same offset, and edits of equal ranges keep their order.
* `Edit.select`: which edits are accepted and which are refused.
* `Edit.weave`: the text with the accepted edits in place.
* `Edit.applyAll`: the three together.
-/

namespace RubyLint

/-- A text after a batch of edits, with the numbers of accepted and refused edits. -/
structure Revision where
  content : String
  applied : Nat
  conflicts : Nat
  deriving DecidableEq, Repr

/-- Whether any edit was accepted. -/
def Revision.changed (r : Revision) : Bool :=
  0 < r.applied

namespace Edit

/-- The offset at which an edit starts. -/
def start (e : Edit) : Nat :=
  e.location.offset

/-- The offset right after the range that an edit names. -/
def stop (e : Edit) : Nat :=
  e.location.offset + e.location.length

/-- Where a batch takes the range of an edit to end. Offset and length are 64-bit numbers, and their
sum wraps around when it does not fit in 64 bits. One that is in the text does fit: no text has
`UInt64.size` bytes. -/
def stopIn (chars : List Char) (e : Edit) : Nat :=
  if e.stop ≤ Text.width chars then e.stop else e.stop % UInt64.size

/-- The check on an edit: where its range ends is in the text, and both ends are between characters. -/
def inBounds (chars : List Char) (e : Edit) : Bool :=
  e.stopIn chars ≤ Text.width chars && Text.isBoundary e.start chars &&
    Text.isBoundary (e.stopIn chars) chars

/-- `a` is considered no later than `b`: by offset, then by length. -/
def precedes (a b : Edit) : Bool :=
  a.start < b.start || (a.start == b.start && a.location.length ≤ b.location.length)

/-- Edits in the order in which they are considered. -/
def ordered (edits : List Edit) : List Edit :=
  edits.mergeSort precedes

/-- The accepted and the refused ones of ordered edits, when the text before `cursor` is already
taken: an edit is accepted if it is in bounds and starts at or after the cursor. -/
def select (chars : List Char) : Nat → List Edit → List Edit × List Edit
  | _, [] => ([], [])
  | cursor, e :: es =>
    if cursor ≤ e.start && e.inBounds chars then
      let (accepted, refused) := select chars (e.stopIn chars) es
      (e :: accepted, refused)
    else
      let (accepted, refused) := select chars cursor es
      (accepted, e :: refused)

/-- The text from `cursor` on with accepted edits in place. -/
def weave (chars : List Char) : Nat → List Edit → List Char
  | cursor, [] => (Text.from? cursor chars).getD []
  | cursor, e :: es =>
    (Text.slice? cursor e.start chars).getD [] ++
      (e.newText.toList ++ weave chars (e.stopIn chars) es)

/-- Applies a batch of edits to a text. -/
def applyAll (content : String) (edits : List Edit) : Revision :=
  let chars := content.toList
  let (accepted, refused) := select chars 0 (ordered edits)
  { content := String.ofList (weave chars 0 accepted)
    applied := accepted.length
    conflicts := refused.length }

end Edit

/-- Applies the edits that violations carry to the text they were found in. -/
def Violation.applyFixes (content : String) (violations : List Violation) : Revision :=
  Edit.applyAll content (violations.filterMap (·.edit?))

end RubyLint
