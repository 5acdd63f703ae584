import Bytecode.Code.Units
import Bytecode.Graph

/-!
# Offsets

The operand of a jump is the distance from its end to its target in code units. A longer operand
takes more units and so moves what comes after it: offsets are computed until they settle.
-/

namespace Bytecode

abbrev Layout := List (BlockId × List Instr)

namespace Layout

def instrs (l : Layout) : List Instr :=
  l.flatMap (·.2)

def unitsOf : List Instr → Nat
  | [] => 0
  | i :: rest => unitCount i.arg + unitsOf rest

def units (l : Layout) : Nat :=
  unitsOf l.instrs

def offsetsFrom (start : Nat) : Layout → List (BlockId × Nat)
  | [] => []
  | (id, instrs) :: rest => (id, start) :: offsetsFrom (start + unitsOf instrs) rest

/-- The offset of a block; one outside of the layout counts as the start. -/
def offsetOf (offsets : List (BlockId × Nat)) (id : BlockId) : Nat :=
  (offsets.lookup id).getD 0

def distance (op : Opcode) (direction : Direction) (stop target : Nat) : Result Nat :=
  match direction with
  | .forward => if stop ≤ target then .ok (target - stop) else .fault (.wrongDirection op)
  | .backward => if target ≤ stop then .ok (stop - target) else .fault (.wrongDirection op)

/-- The instruction with its distance for the operand, if it is a jump that ends at `stop`. -/
def aim (offsets : List (BlockId × Nat)) (stop : Nat) (i : Instr) : Result Instr :=
  match i.target, i.op with
  | some target, .real op =>
    match op.direction? with
    | some direction => do
      return { i with arg := ← distance op direction stop (offsetOf offsets target) }
    | none => .ok i
  | _, _ => .ok i

def aimAll (offsets : List (BlockId × Nat)) (start : Nat) : List Instr → Result (List Instr)
  | [] => .ok []
  | i :: rest => do
    let stop := start + unitCount i.arg
    let j ← aim offsets stop i
    return j :: (← aimAll offsets stop rest)

def aimOnce (l : Layout) : Result Layout :=
  let offsets := l.offsetsFrom 0
  l.mapM fun (id, instrs) => return (id, ← aimAll offsets (offsetOf offsets id) instrs)

/-- Aims all jumps until no instruction changes its size. -/
def settle : (fuel : Nat) → Layout → Result Layout
  | 0, _ => .fault .unsettledLayout
  | fuel + 1, l => do
    let aimed ← l.aimOnce
    if aimed.instrs.map (unitCount ·.arg) = l.instrs.map (unitCount ·.arg) then return aimed
    else settle fuel aimed

/-- Aims all jumps. Sizes only grow after the first round, by three units at most each. -/
def resolve (l : Layout) : Result Layout :=
  settle (3 * l.instrs.length + 2) l

end Layout

end Bytecode
