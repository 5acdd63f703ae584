import Bytecode.Command

/-!
# The command line
-/

namespace Bytecode

def usage : String :=
  "usage: [--no-color] (opt FILE | asm FILE | demo) [-O LEVEL]"

def readContents (file : String) : IO (Except ReadError String) := do
  try
    return .ok (← IO.FS.readFile file)
  catch e =>
    match e with
    | .noFileOrDirectory .. => return .error .missing
    | e => return .error (.other e.toString)

end Bytecode

open Bytecode in
def main (args : List String) : IO UInt32 := do
  match Invocation.parse args with
  | none =>
    IO.eprintln usage
    return 2
  | some i =>
    let contents ← match i.command.file? with
      | some file => readContents file
      | none => pure (.ok "")
    let outcome := i.run contents
    IO.print outcome.output
    IO.eprint outcome.errors
    return outcome.status.toUInt32
