/-!
# Byte offsets in a text

Offsets and lengths count the bytes of a text's UTF-8 form, while the text itself is a list of
characters. An offset is usable only where it falls between two characters.

* `bytes`, `width`: the bytes of a text, and their number.
* `from?`, `upTo?`: the text on either side of an offset, when the offset is between characters.
* `slice?`: the text between two offsets.
* `from?_append`, `upTo?_append`: cutting after a part gives that part and the rest.
-/

namespace RubyLint.Text

/-- The bytes of a text. -/
def bytes (cs : List Char) : List UInt8 :=
  cs.flatMap String.utf8EncodeChar

/-- Number of bytes of a text. -/
def width : List Char → Nat
  | [] => 0
  | c :: cs => c.utf8Size + width cs

/-- The text from byte `n` on; none if `n` is inside a character or past the end. -/
def from? : Nat → List Char → Option (List Char)
  | 0, cs => some cs
  | _ + 1, [] => none
  | n + 1, c :: cs => if c.utf8Size ≤ n + 1 then from? (n + 1 - c.utf8Size) cs else none

/-- The text before byte `n`; none if `n` is inside a character or past the end. -/
def upTo? : Nat → List Char → Option (List Char)
  | 0, _ => some []
  | _ + 1, [] => none
  | n + 1, c :: cs =>
    if c.utf8Size ≤ n + 1 then (upTo? (n + 1 - c.utf8Size) cs).map (c :: ·) else none

/-- Byte `n` falls between two characters, or at either end. -/
def isBoundary (n : Nat) (cs : List Char) : Bool :=
  (from? n cs).isSome

/-- The text of the bytes `start` to `stop`, if both are boundaries in this order. -/
def slice? (start stop : Nat) (cs : List Char) : Option (List Char) :=
  if start ≤ stop then (from? start cs).bind (upTo? (stop - start)) else none

/-- `width` counts the bytes. -/
theorem length_bytes (cs : List Char) : (bytes cs).length = width cs := by
  induction cs with
  | nil => rfl
  | cons c cs ih => simpa [bytes, width] using ih

@[simp]
theorem width_append (l r : List Char) : width (l ++ r) = width l + width r := by
  induction l with
  | nil => simp [width]
  | cons c l ih => simp [width, ih, Nat.add_assoc]

@[simp]
theorem from?_zero (cs : List Char) : from? 0 cs = some cs := by
  cases cs <;> rfl

@[simp]
theorem upTo?_zero (cs : List Char) : upTo? 0 cs = some [] := by
  cases cs <;> rfl

theorem from?_cons (n : Nat) (c : Char) (cs : List Char) :
    from? (c.utf8Size + n) (c :: cs) = from? n cs := by
  obtain ⟨m, hm⟩ : ∃ m, c.utf8Size + n = m + 1 :=
    ⟨c.utf8Size + n - 1, by have := c.utf8Size_pos; omega⟩
  rw [hm, from?, if_pos (by omega)]
  congr 1
  omega

theorem upTo?_cons (n : Nat) (c : Char) (cs : List Char) :
    upTo? (c.utf8Size + n) (c :: cs) = (upTo? n cs).map (c :: ·) := by
  obtain ⟨m, hm⟩ : ∃ m, c.utf8Size + n = m + 1 :=
    ⟨c.utf8Size + n - 1, by have := c.utf8Size_pos; omega⟩
  rw [hm, upTo?, if_pos (by omega)]
  congr 2
  omega

/-- Cutting right after `l` leaves what follows it. -/
theorem from?_append (l r : List Char) : from? (width l) (l ++ r) = some r := by
  induction l with
  | nil => simp [width]
  | cons c l ih => rw [List.cons_append, width, from?_cons, ih]

/-- Cutting right after `l` gives `l`. -/
theorem upTo?_append (l r : List Char) : upTo? (width l) (l ++ r) = some l := by
  induction l with
  | nil => simp [width]
  | cons c l ih => rw [List.cons_append, width, upTo?_cons, ih]; rfl

end RubyLint.Text
