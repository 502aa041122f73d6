import Arbor.Command.Run

/-!
# The command line tool

Runs a command line on the disk of the machine. What is decided is decided in
`Arbor.Command.run`; here files are read and texts are written.
-/

namespace Arbor

namespace Machine

/-- The cause of a failure as the machine reports it. -/
def causeOf : IO.Error → FileCause
  | .noFileOrDirectory .. => .notFound
  | .inappropriateType .. => .notDirectory
  | e => .other (utf8 (toString e))

/-- Runs an action on the file of a name, seen from the current directory. -/
def attempt {α : Type} (doing : FileAction) (name : Text) (act : String → IO α) :
    IO (Except FileError α) := do
  match name.toString? with
  | none => return .error ⟨doing, name, .notFound⟩
  | some s =>
    if s.isEmpty then return .error ⟨doing, name, .notFound⟩
    try return .ok (← act s)
    catch e => return .error ⟨doing, name, causeOf e⟩

/-- The disk of the machine. -/
def disk : IO (Disk IO) := do
  let found ← IO.currentDir.toBaseIO
  let here := found.toOption.getD "."
  return {
    current := (found.map fun directory => utf8 directory.toString).mapError causeOf
    lookup := fun name => attempt .lookup name fun s => do
      let _ ← (here / s).metadata
    read := fun name => do
      match ← attempt .opening name fun s => do
        if ← (here / s).isDir then return none
        else return some (← IO.FS.readBinFile (here / s)) with
      | .error e => return .error e
      | .ok none => return .error ⟨.reading, name, .isDirectory⟩
      | .ok (some bytes) => return .ok bytes.toList }

/-- Writes a text. -/
def write (stream : IO.FS.Stream) (t : Text) : IO Unit := do
  stream.write (ByteArray.mk t.toArray)
  stream.flush

end Machine

end Arbor

open Arbor in
/-- Runs the tool; a failure is told on the error output, and by the exit
code. -/
def main (args : List String) : IO UInt32 := do
  match ← Command.run (← Machine.disk) (args.map utf8) with
  | .error _ => return 2
  | .ok o =>
    Machine.write (← IO.getStdout) o.output
    Machine.write (← IO.getStderr) o.errors
    match o.failure with
    | none => return 0
    | some f =>
      Machine.write (← IO.getStderr) (f.message ++ [Text.newline])
      return 1
