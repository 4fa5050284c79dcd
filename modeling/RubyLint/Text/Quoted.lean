import RubyLint.Text.Invisible

/-!
# Texts in messages

Texts as they are shown in messages. Those in double quotes have quotes, backslashes and invisible
characters escaped; in all others only the characters that command a terminal are.

* `quoted`: a text in quotes.
* `inert`: a text that commands no terminal.
-/

namespace RubyLint.Text

/-- The hexadecimal digits of a number. -/
def hex (n : Nat) : List Char :=
  Nat.toDigits 16 n

/-- A character by its number. -/
def numbered (c : Char) : List Char :=
  "\\u\x7b".toList ++ hex c.toNat ++ "\x7d".toList

/-- A character as it stands between quotes. -/
def escape (c : Char) : List Char :=
  if c = '"' then ['\\', '"']
  else if c = '\\' then ['\\', '\\']
  else if c = '\n' then ['\\', 'n']
  else if c = '\r' then ['\\', 'r']
  else if c = '\t' then ['\\', 't']
  else if c.toNat = 0 then ['\\', '0']
  else if isInvisible c then numbered c
  else [c]

/-- A text in quotes. -/
def quoted (text : String) : String :=
  String.ofList ('"' :: text.toList.flatMap escape ++ ['"'])

/-- The one-byte characters that command a terminal: bell, backspace, form feed, escape and
delete. -/
def terminalCommands : List Char :=
  ['\x07', '\x08', '\x0C', '\x1B', '\x7F']

/-- A character that commands a terminal is shown by its number, any other as itself. -/
def disarm (c : Char) : List Char :=
  if terminalCommands.contains c then
    ['\\', 'x', Nat.digitChar (c.toNat / 16), Nat.digitChar (c.toNat % 16)]
  else if 0x80 ≤ c.toNat && c.toNat ≤ 0x9F then numbered c
  else [c]

/-- A text that commands no terminal. -/
def inert (text : String) : String :=
  String.ofList (text.toList.flatMap disarm)

end RubyLint.Text
