import RubyLint.Path

/-!
# The command line

What the arguments of the program ask for.

* `Command`, `Invocation`: what to do.
* `scanLevel`: the arguments of one level, as flags, options and bare words.
* `Request.read`: what a list of arguments asks for.
-/

namespace RubyLint

/-- How a report is written. -/
inductive Format where
  | text
  | json
  | compact
  | pretty
  deriving DecidableEq, Repr

/-- The format with this name. -/
def Format.ofName? : String → Option Format
  | "text" => some .text
  | "json" => some .json
  | "compact" => some .compact
  | "pretty" => some .pretty
  | _ => none

/-- What to check and how. -/
structure CheckOptions where
  path : Path := ⟨"."⟩
  format : Format := .text
  /-- Names or codes of the only rules to run, separated by commas. -/
  rules : Option String := none
  preset : Option String := none
  exclude : List String := []
  fix : Bool := false
  deriving DecidableEq, Repr

/-- What the program does. -/
inductive Command where
  | check (options : CheckOptions)
  | listRules
  | init (force : Bool)
  deriving DecidableEq, Repr

/-- A command with the options that all commands share. -/
structure Invocation where
  command : Command
  config : Option Path := none
  verbose : Bool := false
  deriving DecidableEq, Repr

/-- What a list of arguments asks for. -/
inductive Request where
  | invoke (i : Invocation)
  | version
  | help
  /-- The arguments are not understood. -/
  | misuse
  deriving DecidableEq, Repr

namespace Request

/-- An option that a level understands. -/
structure Spec where
  long : String
  short : Option Char := none
  takesValue : Bool := false

/-- An argument as it is understood. -/
inductive Word where
  | flag (long : String)
  | option (long value : String)
  | bare (text : String)
  /-- Not understood; nothing after it counts. -/
  | bad
  deriving DecidableEq, Repr

/-- Options of all commands. -/
def shared : List Spec :=
  [{ long := "verbose", short := some 'v' },
    { long := "config", short := some 'c', takesValue := true },
    { long := "help", short := some 'h' }]

/-- Options in front of the command. -/
def topSpecs : List Spec :=
  shared ++ [{ long := "version", short := some 'V' }]

/-- Options of `check`. -/
def checkSpecs : List Spec :=
  shared ++ [{ long := "format", short := some 'f', takesValue := true },
    { long := "rules", takesValue := true }, { long := "preset", takesValue := true },
    { long := "exclude", short := some 'e', takesValue := true }, { long := "fix" }]

/-- Options of `init`. -/
def initSpecs : List Spec :=
  shared ++ [{ long := "force" }]

/-- An argument that stands for an option and not for a value. -/
def isDashed (arg : List Char) : Bool :=
  arg.head? = some '-' && 1 < arg.length

/-- An argument of one level: the words it gives, and the option that still waits for its value. -/
structure Reading where
  words : List Word
  pending : Option String := none

/-- Reads the letters of short options; the rest after an option with a value is its value. -/
def readShort (specs : List Spec) : List Char → Reading
  | [] => ⟨[], none⟩
  | c :: cs =>
    match specs.find? (·.short = some c) with
    | none => ⟨[.bad], none⟩
    | some spec =>
      if spec.takesValue then
        match cs with
        | [] => ⟨[], some spec.long⟩
        | '=' :: value => ⟨[.option spec.long (String.ofList value)], none⟩
        | value => ⟨[.option spec.long (String.ofList value)], none⟩
      else
        let rest := readShort specs cs
        ⟨.flag spec.long :: rest.words, rest.pending⟩

/-- The name of a long option and the value after its `=`. -/
def splitLong : List Char → List Char × Option (List Char)
  | [] => ([], none)
  | '=' :: cs => ([], some cs)
  | c :: cs =>
    let (name, value) := splitLong cs
    (c :: name, value)

/-- Reads a long option, given without its dashes. -/
def readLong (specs : List Spec) (arg : List Char) : Reading :=
  let (name, value) := splitLong arg
  match specs.find? (·.long.toList = name), value with
  | none, _ => ⟨[.bad], none⟩
  | some spec, none => if spec.takesValue then ⟨[], some spec.long⟩ else ⟨[.flag spec.long], none⟩
  | some spec, some value =>
    if spec.takesValue then ⟨[.option spec.long (String.ofList value)], none⟩ else ⟨[.bad], none⟩

/-- Reads the arguments of a level, `pending` being an option that waits for its value. After `--`
all arguments are bare words. -/
def scanLevel (specs : List Spec) : Option String → List String → List Word
  | none, [] => []
  | some _, [] => [.bad]
  | some long, arg :: args =>
    if isDashed arg.toList then [.bad] else .option long arg :: scanLevel specs none args
  | none, arg :: args =>
    match arg.toList with
    | ['-', '-'] => args.map .bare
    | '-' :: '-' :: cs =>
      let r := readLong specs cs
      r.words ++ scanLevel specs r.pending args
    | '-' :: c :: cs =>
      let r := readShort specs (c :: cs)
      r.words ++ scanLevel specs r.pending args
    | _ => .bare arg :: scanLevel specs none args

/-- Reads the arguments in front of the command: their words, the command, and its arguments. -/
def scanTop : Option String → List String → List Word × Option (String × List String)
  | none, [] => ([], none)
  | some _, [] => ([.bad], none)
  | some long, arg :: args =>
    if isDashed arg.toList then ([.bad], none)
    else
      let (words, command) := scanTop none args
      (.option long arg :: words, command)
  | none, arg :: args =>
    match arg.toList with
    | ['-', '-'] => ([.bad], none)
    | '-' :: '-' :: cs =>
      let r := readLong topSpecs cs
      let (words, command) := scanTop r.pending args
      (r.words ++ words, command)
    | '-' :: c :: cs =>
      let r := readShort topSpecs (c :: cs)
      let (words, command) := scanTop r.pending args
      (r.words ++ words, command)
    | _ => ([], some (arg, args))

/-- What has been read of the arguments so far. -/
structure Draft where
  check : CheckOptions := {}
  force : Bool := false
  config : Option Path := none
  /-- The options given at this level. -/
  given : List String := []

/-- Takes an option, which may be given once unless it can be repeated. -/
def Draft.give (d : Draft) (long : String) (set : Draft → Draft) : Option Draft :=
  if d.given.contains long then none else some (set { d with given := long :: d.given })

/-- A path given on the command line is not empty. -/
def path? (text : String) : Option Path :=
  if text.isEmpty then none else some ⟨text⟩

/-- Takes a flag. -/
def Draft.flag (d : Draft) (long : String) : Option Draft :=
  d.give long fun d =>
    match long with
    | "fix" => { d with check.fix := true }
    | "force" => { d with force := true }
    | _ => d

/-- Takes an option with its value. -/
def Draft.option (d : Draft) (long value : String) : Option Draft :=
  match long with
  | "exclude" => some { d with check.exclude := d.check.exclude ++ [value] }
  | "config" => (path? value).bind fun path => d.give long ({ · with config := some path })
  | "format" =>
    (Format.ofName? value).bind fun format => d.give long ({ · with check.format := format })
  | "rules" => d.give long ({ · with check.rules := some value })
  | "preset" => d.give long ({ · with check.preset := some value })
  | _ => none

/-- Takes one word. A request for help or for the version is answered as soon as it is met; bare
words are taken by `bare`. -/
def takeWord (bare : Draft → String → Option Draft) (d : Draft) : Word → Except Request Draft
  | .bad => .error .misuse
  | .flag "help" => .error .help
  | .flag "version" => .error .version
  | .flag long => (d.flag long).elim (.error .misuse) .ok
  | .option long value => (d.option long value).elim (.error .misuse) .ok
  | .bare text => (bare d text).elim (.error .misuse) .ok

/-- Takes words one by one. -/
def takeWords (bare : Draft → String → Option Draft) (d : Draft) (words : List Word) :
    Except Request Draft :=
  words.foldlM (takeWord bare) d

/-- A level without bare words. -/
def noBare (_ : Draft) (_ : String) : Option Draft := none

/-- The bare word of `check` is the path. -/
def barePath (d : Draft) (text : String) : Option Draft :=
  (path? text).bind fun path => d.give "path" ({ · with check.path := path })

/-- What can be asked of `help`, one at a time. -/
def helpTopics : List String := ["check", "list-rules", "init", "help"]

/-- The configuration file of a run: the one named after the command, or else in front of it, or
else by the environment. The environment counts for each of the two that names none, so it may name
an empty path only if both name one. -/
def chooseConfig? (setting : Option String) (top command : Option Path) :
    Option (Option Path) :=
  match setting with
  | none => some (command.or top)
  | some text =>
    if top.isSome && command.isSome then some command
    else (path? text).map fun path => (command.or top).or (some path)

/-- A command that has been read, with the options that all commands share. -/
def complete (setting : Option String) (top d : Draft) (command : Command) :
    Except Request Invocation :=
  match chooseConfig? setting top.config d.config with
  | none => .error .misuse
  | some config =>
    .ok { command, config
          verbose := d.given.contains "verbose" || top.given.contains "verbose" }

/-- Reads the arguments of a command, after those in front of it. -/
def readCommand (setting : Option String) (top : Draft) (name : String) (args : List String) :
    Except Request Invocation := do
  match name with
  | "check" =>
    let d ← takeWords barePath {} (scanLevel checkSpecs none args)
    complete setting top d (.check d.check)
  | "list-rules" =>
    let d ← takeWords noBare {} (scanLevel shared none args)
    complete setting top d .listRules
  | "init" =>
    let d ← takeWords noBare {} (scanLevel initSpecs none args)
    complete setting top d (.init d.force)
  | "help" =>
    match args with
    | [] => throw .help
    | [topic] => throw (if helpTopics.contains topic then .help else .misuse)
    | _ => throw .misuse
  | _ => throw .misuse

/-- What a list of arguments asks for. `setting` is the configuration file that the environment
names. -/
def read (setting : Option String) (args : List String) : Request :=
  let (words, command) := scanTop none args
  let result : Except Request Invocation := do
    let top ← takeWords noBare {} words
    match command with
    | none => throw .misuse
    | some (name, rest) => readCommand setting top name rest
  match result with
  | .error request => request
  | .ok i => .invoke i

end Request

end RubyLint
