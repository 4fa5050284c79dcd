import RubyLint.Text.Blank
import RubyLint.Text.Bytes

/-!
# Patterns of ignore files

A pattern is matched against the bytes of a whole path. `?` stands for a byte and `*` for a run of
bytes, both within one component; `[...]` is a set of bytes; `**` as a component of its own stands
for any components; braces hold alternatives.

* `IgnorePattern`: what a pattern says.
* `IgnorePattern.attempt`: matching, with what has to match after it.
* `IgnorePattern.read?`: the pattern of a text; none if the text is malformed.
-/

namespace RubyLint

/-- Bytes from the first to the last, both included. -/
structure ByteRange where
  first : UInt8
  last : UInt8
  deriving DecidableEq, Repr

/-- A range holds a byte. -/
def ByteRange.covers (r : ByteRange) (b : UInt8) : Bool :=
  r.first ≤ b && b ≤ r.last

/-- What a pattern says. -/
inductive IgnorePattern where
  /-- Nothing: the empty text. -/
  | empty
  | exact (c : Char)
  /-- `?`: a byte within a component. -/
  | any
  | within (ranges : List ByteRange)
  | except (ranges : List ByteRange)
  /-- `*`: a run within a component. -/
  | run
  /-- A `**` in front: any leading components, or none. -/
  | leading
  /-- A `**` between slashes: any components, or none. -/
  | inner
  /-- A `**` at the end: anything below. -/
  | trailing
  | seq (p q : IgnorePattern)
  | either (p q : IgnorePattern)
  deriving DecidableEq, Repr

namespace IgnorePattern

/-! ### Matching -/

/-- The byte of a slash. -/
def slash : UInt8 := 0x2F

/-- Tries `rest` after each run of bytes within a component. -/
def afterRun (rest : List UInt8 → Bool) : List UInt8 → Bool
  | [] => rest []
  | b :: bs => rest (b :: bs) || (b != slash && afterRun rest bs)

/-- Tries `rest` after each slash. -/
def afterSlash (rest : List UInt8 → Bool) : List UInt8 → Bool
  | [] => false
  | b :: bs => (b == slash && rest bs) || afterSlash rest bs

/-- Tries `rest` after each run of any bytes. -/
def afterAll (rest : List UInt8 → Bool) : List UInt8 → Bool
  | [] => rest []
  | b :: bs => rest (b :: bs) || afterAll rest bs

/-- Tries `rest` after a byte that meets a condition. -/
def afterByte (accepts : UInt8 → Bool) (rest : List UInt8 → Bool) : List UInt8 → Bool
  | [] => false
  | b :: bs => accepts b && rest bs

/-- Matches a pattern at the start of a path and `rest` on what follows. -/
def attempt : IgnorePattern → (List UInt8 → Bool) → List UInt8 → Bool
  | empty, rest, bs => rest bs
  | exact c, rest, bs => (Text.after? (String.utf8EncodeChar c) bs).any rest
  | any, rest, bs => afterByte (· != slash) rest bs
  | within ranges, rest, bs => afterByte (fun b => ranges.any (·.covers b)) rest bs
  | except ranges, rest, bs => afterByte (fun b => !ranges.any (·.covers b)) rest bs
  | run, rest, bs => afterRun rest bs
  | leading, rest, bs => rest bs || afterSlash rest bs
  | inner, rest, bs => afterByte (· == slash) (fun bs => rest bs || afterSlash rest bs) bs
  | trailing, rest, bs => afterByte (· == slash) (afterAll rest) bs
  | seq p q, rest, bs => p.attempt (q.attempt rest) bs
  | either p q, rest, bs => p.attempt rest bs || q.attempt rest bs

/-- A pattern matches a whole path. -/
def accepts (p : IgnorePattern) (path : List Char) : Bool :=
  p.attempt List.isEmpty (Text.bytes path)

/-! ### Putting patterns together -/

/-- One pattern after the other; an empty one leaves no trace. -/
def followedBy : IgnorePattern → IgnorePattern → IgnorePattern
  | empty, q => q
  | p, empty => p
  | p, q => seq p q

/-- The pattern of pieces in order, given latest first. -/
def ofPieces (reversed : List IgnorePattern) : IgnorePattern :=
  reversed.foldl (fun rest piece => piece.followedBy rest) empty

/-- One of several patterns. Empty ones do not count, unless there are no others. -/
def oneOf : List IgnorePattern → IgnorePattern
  | [] => empty
  | empty :: ps => oneOf ps
  | p :: ps =>
    match oneOf ps with
    | empty => p
    | q => either p q

/-! ### Sets -/

/-- The ranges of bytes that a range of characters adds to a set. A set holds bytes, and a character
counts as its bytes; a range reaches from the last byte of its first character to the first byte of
its last. -/
def byteRanges (first last : Char) : List ByteRange :=
  let single (b : UInt8) : ByteRange := ⟨b, b⟩
  let front := String.utf8EncodeChar first
  if first = last then front.map single
  else
    match front.getLast?, String.utf8EncodeChar last with
    | some lo, hi :: back => front.dropLast.map single ++ ⟨lo, hi⟩ :: back.map single
    | _, _ => []

/-- A set as far as it could be read. -/
inductive SetOutcome where
  /-- The members, and the pattern after the set. -/
  | closed (ranges : List ByteRange) (rest : List Char)
  /-- There is no `]`, so the `[` stands for itself. -/
  | unclosed
  /-- A range ends before it starts. -/
  | malformed

/-- Reads the members of a set up to its `]`, `reversed` being those so far, latest first. A `]` or
`-` in front is a member; a `-` after a member starts a range (`inRange`), unless the set ends. -/
def readSet (first inRange : Bool) (reversed : List (Char × Char)) : List Char → SetOutcome
  | [] => .unclosed
  | c :: cs =>
    if c = ']' && !first then
      let members := if inRange then ('-', '-') :: reversed else reversed
      .closed (members.reverse.flatMap fun (lo, hi) => byteRanges lo hi) cs
    else if c = '-' && !first && !inRange then readSet false true reversed cs
    else match inRange, reversed with
      -- a second range from the same member replaces the first
      | true, (lo, _) :: rest =>
        if c < lo then .malformed else readSet false false ((lo, c) :: rest) cs
      | _, _ => readSet false false ((c, c) :: reversed) cs

/-! ### Reading -/

/-- A group of alternatives such as `{a,b}` under way: those that are complete, and the pieces of
the present one, both latest first. The whole pattern is the outermost group. -/
structure Group where
  complete : List IgnorePattern := []
  pieces : List IgnorePattern := []

/-- A pattern under way. -/
structure Reading where
  /-- The latest character of the text. -/
  previous : Option Char := none
  /-- A `[` was met that no `]` closes. From then on each stands for itself. -/
  unclosed : Bool := false
  inner : Group := {}
  /-- The groups around the present one, innermost first. -/
  outer : List Group := []

namespace Reading

/-- Adds a piece, `c` being its last character. -/
def push (r : Reading) (c : Char) (piece : IgnorePattern) : Reading :=
  { r with previous := some c, inner := { r.inner with pieces := piece :: r.inner.pieces } }

/-- Adds the piece of a `**` in place of the slash before it; after another `**` the two are
one. -/
def deepen (r : Reading) (c : Char) (piece : IgnorePattern) : Reading :=
  let pieces := match r.inner.pieces with
    | .leading :: rest => .leading :: rest
    | .trailing :: rest => .trailing :: rest
    | _ :: rest => piece :: rest
    | [] => [piece]
  { r with previous := some c, inner := { r.inner with pieces } }

/-- Starts a group. -/
def openGroup (r : Reading) : Reading :=
  { r with previous := some '\x7b', inner := {}, outer := r.inner :: r.outer }

/-- Starts the next alternative of a group. -/
def nextAlternative (r : Reading) : Reading :=
  let complete := ofPieces r.inner.pieces :: r.inner.complete
  { r with previous := some ',', inner := { complete } }

/-- Ends a group, which is a piece of the one around it; none if there is no group. -/
def closeGroup? (r : Reading) : Option Reading :=
  match r.outer with
  | [] => none
  | parent :: outer =>
    let group := oneOf (ofPieces r.inner.pieces :: r.inner.complete).reverse
    some ({ r with inner := parent, outer }.push '\x7d' group)

/-- A `**` may stand for components: it follows a slash, or in a group a comma or a brace. -/
def atComponent (r : Reading) : Bool :=
  match r.previous with
  | some '/' => true
  | some ',' | some '\x7b' => !r.outer.isEmpty
  | _ => false

/-- Reads what follows a `**`: the pattern so far, and what is left of the text. A `**` that is no
component of its own is like `*`. -/
def readStars (r : Reading) (cs : List Char) : Reading × List Char :=
  if r.inner.pieces.isEmpty then
    -- first in its alternative: there is no slash to take the place of
    match cs with
    | [] => (r.push '*' .leading, [])
    | '/' :: cs => (r.push '/' .leading, cs)
    | cs => (r.push '*' .run, cs)
  else if r.atComponent then
    match cs with
    | [] => (r.deepen '*' .trailing, [])
    | '/' :: cs => (r.deepen '/' .inner, cs)
    | c :: cs =>
      -- the end of an alternative is left for the next step
      if !r.outer.isEmpty && (c = ',' || c = '\x7d') then (r.deepen '*' .trailing, c :: cs)
      else (r.push '*' .run, c :: cs)
  else (r.push '*' .run, cs)

/-- Reads what follows a `[`; none if the set is malformed. -/
def readBracket? (r : Reading) (cs : List Char) : Option (Reading × List Char) :=
  let negated := cs.head? = some '!' || cs.head? = some '^'
  match readSet true false [] (if negated then cs.tail else cs) with
  | .closed ranges rest =>
    some (r.push ']' (if negated then .except ranges else .within ranges), rest)
  | .unclosed => some ({ r with unclosed := true }.push '[' (.exact '['), cs)
  | .malformed => none

/-- Reads a character with what belongs to it; none if the text is malformed. -/
def step? (r : Reading) (c : Char) (cs : List Char) : Option (Reading × List Char) :=
  match c, cs with
  | '\\', [] => none
  | '\\', c :: cs => some (r.push c (.exact c), cs)
  | '?', cs => some (r.push '?' .any, cs)
  | '*', '*' :: cs => some (r.readStars cs)
  | '*', cs => some (r.push '*' .run, cs)
  | '[', cs => if r.unclosed then some (r.push '[' (.exact '['), cs) else r.readBracket? cs
  | '\x7b', cs => some (r.openGroup, cs)
  | '\x7d', cs => r.closeGroup?.map (·, cs)
  | ',', cs => some (if r.outer.isEmpty then r.push ',' (.exact ',') else r.nextAlternative, cs)
  | c, cs => some (r.push c (.exact c), cs)

/-- The whole pattern; none if a group is not closed. A `**` alone matches every path. -/
def finish? (r : Reading) : Option IgnorePattern :=
  match r.outer, r.inner.pieces with
  | _ :: _, _ => none
  | [], [.leading] => some (.seq .leading .run)
  | [], pieces => some (ofPieces pieces)

/-- Reads a text to its end. Each step uses up a character, so a budget of the text's length
suffices. -/
def readAll? : Nat → Reading → List Char → Option IgnorePattern
  | _, r, [] => r.finish?
  | 0, _, _ :: _ => none
  | fuel + 1, r, c :: cs =>
    match r.step? c cs with
    | none => none
    | some (next, rest) => readAll? fuel next rest

end Reading

/-- The pattern of a text. -/
def read? (text : List Char) : Option IgnorePattern :=
  Reading.readAll? text.length {} text

end IgnorePattern

end RubyLint
