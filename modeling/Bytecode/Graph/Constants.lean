import Bytecode.Graph
import Bytecode.Constant

/-!
# Unused constants

Constants that no instruction refers to are dropped, and the others numbered anew. The first one is
always kept: it may be a documentation string.
-/

namespace Bytecode

namespace Instr

def constantIndex? (i : Instr) : Option Nat :=
  match i.op with
  | .real op => if op.hasConstant then some i.arg else none
  | .pseudo _ => none

def renumber (kept : List Nat) (i : Instr) : Instr :=
  match i.constantIndex? with
  | some index => { i with arg := (kept.idxOf? index).getD index }
  | none => i

def markConstant (count : Nat) (used : Array Bool) (i : Instr) : Result (Array Bool) :=
  match i.constantIndex? with
  | some index =>
    if index < count then .ok (used.setIfInBounds index true)
    else .fault (.missingConstant i.op index)
  | none => .ok used

end Instr

namespace Graph

variable (g : Graph)

def usedConstants (count : Nat) : Result (Array Bool) :=
  g.body.flatten.foldlM (Instr.markConstant count)
    ((Array.replicate count false).setIfInBounds 0 true)

def dropUnusedConstants (constants : List Constant) : Result (Graph × List Constant) :=
  if constants.isEmpty then .ok (g, constants)
  else do
    let used ← g.usedConstants constants.length
    let kept := (List.range constants.length).filter fun k => used.getD k false
    return (g.mapInstrs (·.map (·.renumber kept)), kept.filterMap fun k => constants[k]?)

end Graph

end Bytecode
