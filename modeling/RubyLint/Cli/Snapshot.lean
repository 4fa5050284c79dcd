import RubyLint.Cli.ConfigFile
import RubyLint.Syntax.Rows
import RubyLint.Parse

/-!
# Snapshots

All that a run depends on apart from its arguments, as one text: the files, the trees of their
texts, the values of their configurations and the surroundings. A snapshot has one record a line.
The fields of a record are separated by tabs; inside a field a backslash, a tab and the two line
ends are written `\\`, `\t`, `\n` and `\r`.

* `dir PATH`, `file PATH CONTENT`, `bytes PATH HEX`: what is on the disk.
* `cwd PATH`, `env NAME VALUE`: the surroundings.
* `source TEXT`, then `node PARENT KIND FLAGS START STOP [FIELD]` for each row: the tree of a text.
* `config TEXT VALUE...`: the value of a configuration, in postfix order.

Main definitions:

* `Snapshot.fields?`: the fields of a line.
* `Snapshot.value?`: a value from its postfix form.
* `Snapshot.read`: a whole snapshot, or the number of the first line that is no record.
-/

namespace RubyLint

/-- What a run depends on apart from its arguments. -/
structure Snapshot where
  disk : Disk := {}
  env : Environment := { workingDir := ⟨"/"⟩ }
  /-- Texts with the rows of their trees, the latest text and the latest row first. -/
  tables : List (String × List NodeRow) := []
  /-- Texts with the values they stand for. -/
  values : List (String × Value) := []

namespace Snapshot

/-- A field without its escapes. -/
def unescape? : List Char → Option (List Char)
  | [] => some []
  | '\\' :: 't' :: cs => (unescape? cs).map ('\t' :: ·)
  | '\\' :: 'n' :: cs => (unescape? cs).map ('\n' :: ·)
  | '\\' :: 'r' :: cs => (unescape? cs).map ('\r' :: ·)
  | '\\' :: '\\' :: cs => (unescape? cs).map ('\\' :: ·)
  | '\\' :: _ => none
  | c :: cs => (unescape? cs).map (c :: ·)

/-- The fields of a line. -/
def fields? (line : List Char) : Option (List String) :=
  ((Text.splitAll '\t' line).mapM unescape?).map (·.map String.ofList)

/-- Keys and values, which alternate, as entries. -/
def entries? : List Value → Option (List (String × Value))
  | [] => some []
  | .string key :: value :: rest => (entries? rest).map ((key, value) :: ·)
  | _ => none

/-- Takes the last `n` values of a stack, whose top is its head, in the order they came. -/
def pop? (n : Nat) (stack : List Value) : Option (List Value × List Value) :=
  if n ≤ stack.length then some ((stack.take n).reverse, stack.drop n) else none

/-- What a field of a postfix form does to the stack of values; its first character says what it
is. -/
def push? (stack : List Value) (field : String) : Option (List Value) :=
  match field.toList with
  | 's' :: text => some (.string (String.ofList text) :: stack)
  | 'i' :: digits => (String.ofList digits).toInt?.map (.integer · :: stack)
  | 'f' :: text => some (.float (String.ofList text) :: stack)
  | 'd' :: text => some (.datetime (String.ofList text) :: stack)
  | ['y'] => some (.boolean true :: stack)
  | ['n'] => some (.boolean false :: stack)
  | 'a' :: digits => do
    let (items, rest) ← pop? (← (String.ofList digits).toNat?) stack
    some (.array items :: rest)
  | 't' :: digits => do
    let (items, rest) ← pop? (2 * (← (String.ofList digits).toNat?)) stack
    some (.table (← entries? items) :: rest)
  | _ => none

/-- A value from its postfix form. -/
def value? (fields : List String) : Option Value :=
  match fields.foldlM push? [] with
  | some [value] => some value
  | _ => none

/-- The value of a hexadecimal digit. -/
def hexDigit? (c : Char) : Option Nat :=
  if c.isDigit then some (c.toNat - '0'.toNat)
  else if 'a' ≤ c && c ≤ 'f' then some (c.toNat - 'a'.toNat + 10)
  else none

/-- Bytes from pairs of hexadecimal digits. -/
def bytes? : List Char → Option (List UInt8)
  | [] => some []
  | high :: low :: rest => do
    let byte := UInt8.ofNat (16 * (← hexDigit? high) + (← hexDigit? low))
    some (byte :: (← bytes? rest))
  | _ => none

/-- The place of an absolute path, as written. -/
def placeOf (path : String) : Place :=
  ((Text.splitAll '/' path.toList).map String.ofList).filter fun part => !Path.isIdle part

/-- A row of a tree. -/
def row? : List String → Option NodeRow
  | parent :: kind :: flags :: start :: stop :: rest => do
    let above ← if parent = "-" then some none else parent.toNat?.map some
    let flags := flags.toList
    some { parent := above
           info := { kind := .ofName kind
                     span := ⟨← start.toNat?, ← stop.toNat?⟩
                     named := flags.contains 'n'
                     isError := flags.contains 'e'
                     isMissing := flags.contains 'm'
                     hasError := flags.contains 'E'
                     field := rest.head?.bind Field.ofName? } }
  | _ => none

/-- A setting of the surroundings; settings of no meaning to a run are passed over. -/
def setting (env : Environment) (name value : String) : Environment :=
  match name with
  | "RB_LINT_CONFIG" => { env with configFile := some value }
  | "RB_LINT_CONFIG_DIR" => { env with configDir := some value }
  | "HOME" => { env with home := some value }
  | "XDG_CONFIG_HOME" => { env with settings := some value }
  | "GIT_CONFIG_GLOBAL" => { env with firstConfig := some value }
  | "GIT_CONFIG_SYSTEM" => { env with lastConfig := some value }
  | _ => env

/-- Adds a record to a snapshot. -/
def add? (s : Snapshot) : List String → Option Snapshot
  | ["dir", path] => some { s with disk := s.disk.createDir (placeOf path) }
  | ["file", path, content] => some { s with disk := s.disk.create (placeOf path) (.text content) }
  | ["bytes", path, hex] => do
    let bytes ← bytes? hex.toList
    some { s with disk := s.disk.create (placeOf path) (.ofBytes ⟨bytes.toArray⟩) }
  | ["cwd", path] => some { s with env := { s.env with workingDir := ⟨path⟩ } }
  | ["env", name, value] => some { s with env := setting s.env name value }
  | ["source", text] => some { s with tables := (text, []) :: s.tables }
  | "node" :: fields =>
    match s.tables with
    | (text, rows) :: others => do
      some { s with tables := (text, (← row? fields) :: rows) :: others }
    | [] => none
  | "config" :: text :: fields => do
    some { s with values := (text, ← value? fields) :: s.values }
  | _ => none

/-- Reads the lines of a snapshot, numbered from `number` on. -/
def readLines (s : Snapshot) (number : Nat) : List (List Char) → Except Nat Snapshot
  | [] => .ok s
  | line :: rest =>
    if line.isEmpty then s.readLines (number + 1) rest
    else
      match (fields? line).bind s.add? with
      | some next => next.readLines (number + 1) rest
      | none => .error number

/-- Reads a snapshot; fails with the number of the first line that is no record. -/
def read (text : String) : Except Nat Snapshot :=
  readLines {} 1 (Text.splitAll '\n' text.toList)

/-- The parser that knows the trees of a snapshot. -/
def grammar (s : Snapshot) : Grammar := fun text =>
  (s.tables.lookup text).bind fun rows => Tree.ofRows? rows.reverse

/-- The reader that knows the values of a snapshot. -/
def configReader (s : Snapshot) : ConfigReader := fun text => s.values.lookup text

end Snapshot

end RubyLint
