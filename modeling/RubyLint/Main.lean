import RubyLint.Cli.Run
import RubyLint.Cli.Snapshot

/-!
# The program

Reads a snapshot from standard input, runs the command that the arguments ask for on it, prints what
the command prints and writes the files that it changed.
-/

namespace RubyLint

/-- The rest of a stream. -/
partial def readAll (stream : IO.FS.Stream) (sofar : String) : IO String := do
  let line ← stream.getLine
  if line.isEmpty then return sofar else readAll stream (sofar ++ line)

/-- Prints what a command left behind. -/
def Outcome.print (o : Outcome) : IO Unit := do
  for notice in o.notices do IO.eprintln notice.line
  for violation in o.excerpts do IO.eprintln violation.details
  IO.print o.stdout
  match o.error with
  | none => pure ()
  | some e =>
    IO.eprintln s!"Error: {e.message}"
    match e.cause? with
    | none => pure ()
    | some cause => IO.eprintln s!"Caused by: {cause}"

/-- Writes the files that a command changed. -/
def Outcome.save (before : Disk) (o : Outcome) : IO Unit := do
  for (place, data) in before.changes o.disk do
    match data with
    | .text content => IO.FS.writeFile (Disk.pathOf place).text content
    | .binary _ => pure ()

end RubyLint

open RubyLint in
/-- The program on the snapshot in standard input. -/
def main (args : List String) : IO UInt32 := do
  match Snapshot.read (← readAll (← IO.getStdin) "") with
  | .error number =>
    IO.eprintln s!"No snapshot: line {number} is no record"
    return 2
  | .ok s =>
    let o := runProgram s.grammar s.configReader s.env args s.disk
    o.print
    o.save s.disk
    return o.exitCode.toUInt32
