/-
The program: the command on the files of the machine.

The command itself runs on a snapshot. Whenever it asks for a file that
was not looked at yet, the file is read and the command runs again; in
the end what it wants to write is written.
-/
import Inlay.Cli.Run
import Inlay.FileSystem.Snapshot

namespace Inlay

/-- Looks at a file. -/
def lookAt (path : String) : IO Sight := do
  try
    let data ← IO.FS.readFile path
    let real ← IO.FS.realPath path
    return ⟨.ok data, some real.toString⟩
  catch e => return ⟨.error e.toString, none⟩

/-- Runs the command, looking at the files it asks for. -/
partial def runOn (colored : Bool) (args : List String) (files : Snapshot) :
    IO (Cli.Outcome Snapshot) := do
  let outcome := Cli.command colored args files
  match outcome.error with
  | some (.read path _) =>
      if Entries.contains path files.seen then return outcome
      else runOn colored args (files.look path (← lookAt path))
  | _ => return outcome

/-- The files whose absence is no error: they are looked at first. -/
def optionalFiles (args : List String) : List String :=
  Config.candidates ++
    match Cli.request args with
    | .run d =>
        let args := d.arguments
        [.code, .ast].map fun f => args.output.getD (Cli.defaultOutput args.input f)
    | _ => []

end Inlay

open Inlay

def main (args : List String) : IO UInt32 := do
  let colored := (← IO.getEnv "NO_COLOR").isNone
  let mut files : Snapshot := ⟨(← IO.currentDir).toString, [], []⟩
  for path in optionalFiles args do
    files := files.look path (← lookAt path)
  let outcome ← runOn colored args files
  try
    for (path, data) in outcome.files.written do
      IO.FS.writeFile path data
    IO.print outcome.standardOutput
    IO.eprint outcome.standardError
    return outcome.exitCode.toUInt32
  catch e =>
    IO.eprintln (toString e)
    return 2
