import Bytecode.Graph.Nops

/-!
# From pseudo operations to opcodes

In the final layout every jump has a direction: forward to a block that comes later, and backward
to its own block or an earlier one. Operations on cells get slots for operands, and the marks that
open and close handlers go.
-/

namespace Bytecode

def directed? (op : Operation) (direction : Direction) : Option Opcode :=
  let pick (forward backward : Opcode) : Option Opcode :=
    some (match direction with
      | .forward => forward
      | .backward => backward)
  match op with
  | .pseudo .jump | .real .jumpForward | .real .jumpBackward => pick .jumpForward .jumpBackward
  | .pseudo .jumpNoInterrupt | .real .jumpBackwardNoInterrupt =>
    pick .jumpForward .jumpBackwardNoInterrupt
  | .pseudo .popJumpIfFalse | .real .popJumpForwardIfFalse | .real .popJumpBackwardIfFalse =>
    pick .popJumpForwardIfFalse .popJumpBackwardIfFalse
  | .pseudo .popJumpIfTrue | .real .popJumpForwardIfTrue | .real .popJumpBackwardIfTrue =>
    pick .popJumpForwardIfTrue .popJumpBackwardIfTrue
  | .pseudo .popJumpIfNone | .real .popJumpForwardIfNone | .real .popJumpBackwardIfNone =>
    pick .popJumpForwardIfNone .popJumpBackwardIfNone
  | .pseudo .popJumpIfNotNone | .real .popJumpForwardIfNotNone
  | .real .popJumpBackwardIfNotNone => pick .popJumpForwardIfNotNone .popJumpBackwardIfNotNone
  | _ => none

/-- A backward jump that keeps the top of the stack: the machine has it only forward, so that the
top is copied, tested, and popped where control goes on. -/
def backwardOrPop (i : Instr) (target : BlockId) (op : Opcode) : List Instr :=
  [{ i with op := .real .copy, arg := 1, target := none },
    { i with op := .real op, arg := 0, target := some target },
    { i with op := .real .popTop, arg := 0, target := none }]

/-- A jump with its direction, given the blocks up to its own. -/
def directInstr (seen : List BlockId) (i : Instr) : Result (List Instr) :=
  match i.target with
  | none => .ok [i]
  | some target =>
    if !i.op.isJump then .ok [i]
    else
      let direction := if seen.contains target then Direction.backward else .forward
      match directed? i.op direction, direction, i.op with
      | some op, _, _ => .ok [{ i with op := .real op }]
      | none, .forward, .real _ => .ok [i]
      | none, .backward, .real .jumpIfFalseOrPop =>
        .ok (backwardOrPop i target .popJumpBackwardIfFalse)
      | none, .backward, .real .jumpIfTrueOrPop =>
        .ok (backwardOrPop i target .popJumpBackwardIfTrue)
      | none, _, _ => .fault (.cannotJumpBackward i.op)

def Operation.hasCell : Operation → Bool
  | .real .makeCell | .real .loadDeref | .real .storeDeref | .real .deleteDeref
  | .real .loadClassderef | .pseudo .loadClosure => true
  | _ => false

def relocateCell (slots : Array Nat) (i : Instr) : Result Instr :=
  if i.op.hasCell then
    match slots[i.arg]? with
    | some slot => .ok { i with arg := slot }
    | none => .fault (.noSuchCell i.op i.arg)
  else .ok i

def lowerPseudo (i : Instr) : Result Instr :=
  match i.op with
  | .real _ => .ok i
  | .pseudo .setupFinally | .pseudo .setupCleanup | .pseudo .setupWith | .pseudo .popBlock =>
    .ok i.toNop
  | .pseudo .loadClosure => .ok { i with op := .real .loadFast }
  | .pseudo op => .fault (.undirectedJump op)

namespace Graph

/-- Gives the jumps of the listed blocks, before which `seen` stand, their direction. -/
def directFrom (seen : List BlockId) : List BlockId → Graph → Result Graph
  | [], g => .ok g
  | id :: rest, g => do
    let seen := id :: seen
    let instrs ← (g.block id).instrs.mapM (directInstr seen)
    directFrom seen rest (g.setInstrs id instrs.flatten)

def directJumps (g : Graph) : Result Graph :=
  g.directFrom [] g.order

/-- Removes the pseudo operations, and then what became idle, block by block. -/
def lowerPseudos (g : Graph) : Result Graph :=
  g.order.foldlM (fun h id => do
    let instrs ← (h.block id).instrs.mapM lowerPseudo
    return (h.setInstrs id instrs).dropNopsAt id) g

end Graph

end Bytecode
