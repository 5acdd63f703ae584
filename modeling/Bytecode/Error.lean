import Bytecode.Location
import Bytecode.Error.Fault
import Bytecode.Error.Limit
import Bytecode.Error.SourceFault
import Bytecode.Error.Caution

/-!
# Compile errors and warnings

A compilation stops at a fault of the program, at a caution that is treated as an error, at an
inconsistency, or at a limit. The first two point at the source text.
-/

namespace Bytecode

inductive CompileError where
  | source (fault : SourceFault) (file : String) (location : Location)
  | caution (risk : Caution) (file : String) (location : Location)
  | internal (fault : Fault)
  | limit (bound : Limit)
deriving DecidableEq, Repr

namespace CompileError

instance : Coe Fault CompileError := ⟨internal⟩

instance : Coe Limit CompileError := ⟨limit⟩

def location? : CompileError → Option Location
  | .source _ _ location => some location
  | .caution _ _ location => some location
  | .internal _ => none
  | .limit _ => none

def isSourceError : CompileError → Bool
  | .source .. => true
  | .caution .. => true
  | .internal _ => false
  | .limit _ => false

def place (file : String) (loc : Location) : String :=
  let column := if 0 ≤ loc.col then s!", column {loc.col + 1}" else ""
  s!"{file}, line {loc.line}{column}"

def message : CompileError → String
  | .source fault file loc => s!"SyntaxError: {fault.message} ({place file loc})"
  | .caution risk file loc => s!"SyntaxWarning: {risk.message} ({place file loc})"
  | .internal fault => s!"internal compiler error: {fault.message}"
  | .limit bound => s!"OverflowError: {bound.message}"

end CompileError

structure Warning where
  caution : Caution
  file : String
  location : Location
deriving DecidableEq, Repr

namespace Warning

def toError (w : Warning) : CompileError :=
  .caution w.caution w.file w.location

def message (w : Warning) : String :=
  s!"{w.file}:{w.location.line}: SyntaxWarning: {w.caution.message}"

end Warning

abbrev Result (α : Type) := Except CompileError α

namespace Result

def fault {α : Type} (f : Fault) : Result α :=
  .error (.internal f)

def exceed {α : Type} (l : Limit) : Result α :=
  .error (.limit l)

def require {α : Type} (f : Fault) : Option α → Result α
  | some a => .ok a
  | none => fault f

end Result

end Bytecode
