import Bytecode.Code.Disassembly
import Bytecode.Compile
import Bytecode.Listing.Parser
import Bytecode.Listing.Printer
import Bytecode.Sample

/-!
# Commands

What the command line does, as a function of its arguments and of the file that it names:

* `opt FILE` optimizes a listing and prints it;
* `asm FILE` optimizes and assembles a listing and prints its disassembly;
* `demo` compiles the sample module and prints the disassembly of all its code objects.

`-O N` sets the level of optimization, and without `--no-color` titles and errors are coloured.
-/

namespace Bytecode

/-! ### Text for terminals -/

inductive Colour where
  | red
  | yellow
  | cyan
deriving DecidableEq, Repr

def Colour.code : Colour → String
  | red => "31"
  | yellow => "33"
  | cyan => "36"

def emphasize (c : Colour) (text : String) : String :=
  "\x1b[1m\x1b[" ++ c.code ++ "m" ++ text ++ "\x1b[39m\x1b[0m"

/-- Emphasis on a terminal with colours, and the text itself without them. -/
def emphasizeIf (coloured : Bool) (c : Colour) (text : String) : String :=
  if coloured then emphasize c text else text

/-! ### Invocations -/

inductive Command where
  | optimize (file : String)
  | assemble (file : String)
  | demo
deriving DecidableEq, Repr

def Command.file? : Command → Option String
  | optimize file => some file
  | assemble file => some file
  | demo => none

structure Invocation where
  command : Command
  level : OptimizeLevel := .basic
  coloured : Bool := true
deriving DecidableEq, Repr

structure Arguments where
  words : List String := []
  level : OptimizeLevel := .basic
  coloured : Bool := true
deriving DecidableEq, Repr

namespace Arguments

def level? (cs : List Char) : Option OptimizeLevel :=
  (Numeral.word? cs).bind OptimizeLevel.ofNat?

def read (a : Arguments) : List String → Option Arguments
  | [] => some a
  | "-O" :: value :: rest => do read { a with level := ← level? value.toList } rest
  | arg :: rest =>
    if arg = "--no-color" then read { a with coloured := false } rest
    else if arg = "--verbose" then read a rest
    else match arg.toList with
      | '-' :: 'O' :: '=' :: value => do read { a with level := ← level? value } rest
      | '-' :: 'O' :: value => do read { a with level := ← level? value } rest
      | '-' :: _ => none
      | _ => read { a with words := a.words ++ [arg] } rest

end Arguments

def Invocation.parse (args : List String) : Option Invocation := do
  let a ← Arguments.read {} args
  let command ← match a.words with
    | ["opt", file] => some (.optimize file)
    | ["asm", file] => some (.assemble file)
    | ["demo"] => some .demo
    | _ => none
  return ⟨command, a.level, a.coloured⟩

/-! ### Results -/

inductive ReadError where
  | missing
  | other (message : String)
deriving DecidableEq, Repr

def ReadError.message : ReadError → String
  | missing => "No such file or directory (os error 2)"
  | other message => message

inductive CommandError where
  | unreadable (file : String) (error : ReadError)
  | listing (file : String) (error : ListingError)
  | compile (error : CompileError)
deriving DecidableEq, Repr

namespace CommandError

instance : Coe CompileError CommandError := ⟨compile⟩

def message : CommandError → String
  | unreadable file e => s!"failed to read {file}: {e.message}"
  | listing file e => s!"in {file}: {e.message}"
  | compile e => e.message

end CommandError

structure Outcome where
  status : Nat := 0
  output : String := ""
  errors : String := ""
deriving DecidableEq, Repr

/-! ### Commands -/

def titled (coloured : Bool) (text : String) : String :=
  let title := text.toList.takeWhile (· ≠ '\n')
  let body := (text.toList.dropWhile (· ≠ '\n')).drop 1
  emphasizeIf coloured .cyan (String.ofList title) ++ "\n" ++ String.ofList body

def disassembleAll (coloured : Bool) (codes : List CodeObject) : Result String := do
  let texts ← codes.mapM (·.disassemble)
  return "\n".intercalate (texts.map (titled coloured))

def readListing (file : String) (contents : Except ReadError String) :
    Except CommandError Listing := do
  match contents with
  | .error e => throw (.unreadable file e)
  | .ok text =>
    match Listing.parse text with
    | .error e => throw (.listing file e)
    | .ok l => return l

namespace Invocation

variable (i : Invocation)

def options : CompileOptions :=
  { optimize := i.level }

def runOptimize (l : Listing) : Except CommandError Outcome := do
  let l ← (l.optimize i.options.passConfig l.locals.length).mapError .compile
  return { output := l.text }

def runAssemble (l : Listing) : Except CommandError Outcome := do
  let code ← (l.assemble i.options.passConfig).mapError .compile
  let text ← (disassembleAll i.coloured [code]).mapError .compile
  return { output := text }

def runDemo : Except CommandError Outcome := do
  let m ← (Bytecode.compile { i.options with file := "<demo>" } sampleModule).mapError .compile
  let text ← (disassembleAll i.coloured m.codes).mapError .compile
  let warning := emphasizeIf i.coloured .yellow "Warning"
  return {
    output := text
    errors := String.join (m.warnings.map fun w => warning ++ ": " ++ w.message ++ "\n") }

def failure (e : CommandError) : Outcome where
  status := 1
  errors := emphasizeIf i.coloured .red "Error" ++ ": " ++ e.message ++ "\n"

def run (contents : Except ReadError String) : Outcome :=
  let result : Except CommandError Outcome :=
    match i.command with
    | .optimize file => do i.runOptimize (← readListing file contents)
    | .assemble file => do i.runAssemble (← readListing file contents)
    | .demo => i.runDemo
  match result with
  | .ok outcome => outcome
  | .error e => i.failure e

end Invocation

end Bytecode
