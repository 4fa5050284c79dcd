import RubyLint.Report

/-!
# Reports as JSON

* `Json.pretty`: a value over several lines, indented by two blanks a level.
* `Report.json`: a report as a value.
-/

namespace RubyLint

/-- The values that reports need. -/
inductive Json where
  | null
  | number (n : Nat)
  | string (text : String)
  | array (items : List Json)
  | object (entries : List (String × Json))

namespace Json

/-- A character as it stands in a JSON string. -/
def escape (c : Char) : List Char :=
  if c = '"' then ['\\', '"']
  else if c = '\\' then ['\\', '\\']
  else if c = '\n' then ['\\', 'n']
  else if c = '\r' then ['\\', 'r']
  else if c = '\t' then ['\\', 't']
  else if c.toNat = 0x08 then ['\\', 'b']
  else if c.toNat = 0x0C then ['\\', 'f']
  else if c.toNat < 0x20 then
    ['\\', 'u', '0', '0', Nat.digitChar (c.toNat / 16), Nat.digitChar (c.toNat % 16)]
  else [c]

/-- A JSON string. -/
def quote (text : String) : String :=
  String.ofList ('"' :: text.toList.flatMap escape ++ ['"'])

/-- The start of a line at a depth. -/
def newline (depth : Nat) : String :=
  "\n" ++ String.ofList (List.replicate (2 * depth) ' ')

mutual
/-- A value that stands at a depth. Empty arrays and objects take one line. -/
def prettyAt (depth : Nat) : Json → String
  | null => "null"
  | number n => toString n
  | string text => quote text
  | array [] => "[]"
  | array (item :: items) =>
    "[" ++ newline (depth + 1) ++ prettyAt (depth + 1) item ++ prettyItems (depth + 1) items ++
      newline depth ++ "]"
  | object [] => "\x7b\x7d"
  | object ((key, value) :: entries) =>
    "\x7b" ++ newline (depth + 1) ++ quote key ++ ": " ++ prettyAt (depth + 1) value ++
      prettyEntries (depth + 1) entries ++ newline depth ++ "\x7d"
/-- Further items of an array, each on a line. -/
def prettyItems (depth : Nat) : List Json → String
  | [] => ""
  | item :: items => "," ++ newline depth ++ prettyAt depth item ++ prettyItems depth items
/-- Further entries of an object, each on a line. -/
def prettyEntries (depth : Nat) : List (String × Json) → String
  | [] => ""
  | (key, value) :: entries =>
    "," ++ newline depth ++ quote key ++ ": " ++ prettyAt depth value ++ prettyEntries depth entries
end

/-- A value over several lines. -/
def pretty (j : Json) : String := prettyAt 0 j

/-- A value that may be missing. -/
def optional {α : Type} (write : α → Json) : Option α → Json
  | none => null
  | some a => write a

end Json

/-- A location as JSON. -/
def Location.json (l : Location) : Json :=
  .object [("file", .string l.file.text), ("line", .number l.line), ("column", .number l.column),
    ("offset", .number l.offset), ("length", .number l.length)]

/-- An edit as JSON. -/
def Edit.json (e : Edit) : Json :=
  .object [("location", e.location.json), ("new_text", .string e.newText)]

/-- A suggestion as JSON. -/
def Suggestion.json (s : Suggestion) : Json :=
  .object [("message", .string s.message), ("replacement", .optional Edit.json s.edit)]

/-- A label as JSON. -/
def Label.json (l : Label) : Json :=
  .object [("location", l.location.json), ("message", .string l.message)]

/-- A violation as JSON. -/
def Violation.json (v : Violation) : Json :=
  .object [("code", .string v.code), ("rule", .string v.rule),
    ("severity", .string v.severity.name), ("location", v.location.json),
    ("message", .string v.message), ("suggestion", .optional Suggestion.json v.suggestion),
    ("labels", .array (v.labels.map Label.json))]

/-- A report as JSON. -/
def Report.json (r : Report) : Json :=
  .object [("violations", .array (r.violations.map Violation.json)),
    ("files_checked", .number r.filesChecked)]

end RubyLint
