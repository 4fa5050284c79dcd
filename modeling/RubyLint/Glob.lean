/-!
# Glob patterns

The patterns that exclude files and that pick the files of a rule. `?` stands for one character, `*`
for any run of characters, `[a-z]` and `[!a-z]` for one character in or outside a set, and `**` for
whole path components. Unlike in a shell, every wildcard also matches `/` and leading dots.

* `Glob.compile`: reads a pattern, or says where and why it is malformed.
* `Glob.accepts`: whether a pattern matches a whole text.
-/

namespace RubyLint

/-- A malformed pattern: the position of the fault, in characters, and its reason. -/
structure GlobError where
  position : Nat
  reason : String
  deriving DecidableEq, Repr

/-- How a malformed pattern is reported. -/
def GlobError.message (e : GlobError) : String :=
  s!"Pattern syntax error near position {e.position}: {e.reason}"

namespace Glob

/-- A member of a character set. -/
inductive Range where
  | one (c : Char)
  | between (lo hi : Char)
  deriving DecidableEq, Repr

/-- Whether a member of a set covers a character. -/
def Range.covers : Range → Char → Bool
  | .one a, c => a = c
  | .between lo hi, c => lo ≤ c && c ≤ hi

/-- A piece of a pattern. -/
inductive Token where
  /-- The character itself. -/
  | exact (c : Char)
  /-- Any one character. -/
  | any
  /-- One character of a set. -/
  | within (ranges : List Range)
  /-- One character outside a set. -/
  | except (ranges : List Range)
  /-- Any run of characters. -/
  | run
  /-- Any run of whole components. -/
  | deep
  deriving DecidableEq, Repr

/-- The members written between the brackets of a set. -/
def ranges : List Char → List Range
  | a :: '-' :: b :: rest => .between a b :: ranges rest
  | a :: rest => .one a :: ranges rest
  | [] => []

/-- Reads the set whose first member is `first`: its members up to the first `]` after that, and
the pattern that follows. -/
def set? (first : Char) : List Char → Option (List Range × List Char)
  | rest => (split [first] rest).map fun (members, rest) => (ranges members, rest)
where
  split (reversed : List Char) : List Char → Option (List Char × List Char)
    | [] => none
    | c :: cs => if c = ']' then some (reversed.reverse, cs) else split (c :: reversed) cs

/-- Why a run of three or more `*` is refused. -/
def tooManyStars : String := "wildcards are either regular `*` or recursive `**`"

/-- Why a `**` next to other characters is refused. -/
def notAComponent : String := "recursive wildcards must form a single path component"

/-- Why a `[` without a usable set is refused. -/
def badSet : String := "invalid range pattern"

/-- Adds `**` to the tokens read so far (latest first). A `**` right after another is dropped, but
not where the pattern starts with the two. -/
def pushDeep (reversed : List Token) : List Token :=
  match reversed with
  | .deep :: _ :: _ => reversed
  | _ => .deep :: reversed

/-- Reads a pattern from character number `pos` on, `previous` being the character before it and
`reversed` the tokens so far, latest first. Each step uses up at least one character, so a budget of
the pattern's length suffices. -/
def read : Nat → Nat → Option Char → List Token → List Char → Except GlobError (List Token)
  | _, _, _, reversed, [] => .ok reversed.reverse
  | 0, _, _, reversed, _ :: _ => .ok reversed.reverse
  | fuel + 1, pos, previous, reversed, c :: cs =>
    match c, cs with
    | '?', cs => read fuel (pos + 1) (some '?') (.any :: reversed) cs
    | '*', '*' :: '*' :: _ => .error ⟨pos + 2, tooManyStars⟩
    | '*', '*' :: cs =>
      if previous.all (· = '/') then
        match cs with
        | [] => .ok (pushDeep reversed).reverse
        | '/' :: cs => read fuel (pos + 3) (some '/') (pushDeep reversed) cs
        | _ => .error ⟨pos + 2, notAComponent⟩
      else .error ⟨pos - 1, notAComponent⟩
    | '*', cs => read fuel (pos + 1) (some '*') (.run :: reversed) cs
    | '[', '!' :: a :: b :: cs =>
      match set? a (b :: cs) with
      | some (members, rest) =>
        read fuel (pos + (cs.length + 4 - rest.length)) (some ']') (.except members :: reversed)
          rest
      | none => .error ⟨pos, badSet⟩
    | '[', a :: b :: cs =>
      if a = '!' then .error ⟨pos, badSet⟩ else
      match set? a (b :: cs) with
      | some (members, rest) =>
        read fuel (pos + (cs.length + 3 - rest.length)) (some ']') (.within members :: reversed)
          rest
      | none => .error ⟨pos, badSet⟩
    | '[', _ => .error ⟨pos, badSet⟩
    | c, cs => read fuel (pos + 1) (some c) (.exact c :: reversed) cs

/-- How an attempt to match ends. -/
inductive Attempt where
  | matched
  /-- This way of matching fails; a longer run may still succeed. -/
  | mismatch
  /-- The text ended where one more character was needed: no longer run can succeed. -/
  | exhausted
  deriving DecidableEq, Repr

/-- Whether a token that stands for one character accepts this one. -/
def Token.accepts : Token → Char → Bool
  | .exact a, c => a = c
  | .any, _ => true
  | .within rs, c => rs.any (·.covers c)
  | .except rs, c => !rs.any (·.covers c)
  | .run, _ => false
  | .deep, _ => false

/-- Tries `rest` after each longer run, and last at the end of the text; with `whole` a run ends
only after a `/`. -/
def tryLonger (whole : Bool) (rest : List Char → Attempt) : List Char → Attempt
  | [] => rest []
  | c :: cs =>
    if whole && c != '/' then tryLonger whole rest cs
    else match rest cs with
      | .mismatch => tryLonger whole rest cs
      | result => result

/-- Tries `rest` after the empty run and then after longer ones. -/
def tryRuns (whole : Bool) (rest : List Char → Attempt) (cs : List Char) : Attempt :=
  match rest cs with
  | .mismatch => tryLonger whole rest cs
  | result => result

/-- Matches a whole text against tokens. -/
def attempt : List Token → List Char → Attempt
  | [], [] => .matched
  | [], _ :: _ => .mismatch
  | .run :: ts, cs => tryRuns false (attempt ts) cs
  | .deep :: ts, cs => tryRuns true (attempt ts) cs
  | _ :: _, [] => .exhausted
  | t :: ts, c :: cs => if t.accepts c then attempt ts cs else .mismatch

end Glob

/-- A compiled pattern. -/
structure Glob where
  tokens : List Glob.Token
  deriving DecidableEq, Repr

namespace Glob

/-- Reads a pattern. -/
def compile (pattern : String) : Except GlobError Glob :=
  (read pattern.toList.length 0 none [] pattern.toList).map Glob.mk

/-- Whether the pattern matches the whole text. -/
def accepts (g : Glob) (text : String) : Bool :=
  attempt g.tokens text.toList = .matched

end Glob

end RubyLint
