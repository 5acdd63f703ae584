import Bytecode.Graph
import Bytecode.Code

/-!
# Stack depth

The depth of the stack at the start of every block, and the greatest depth anywhere. All edges into
a block have to agree on its depth, and no instruction may take more from the stack than is there.
-/

namespace Bytecode

def maxStackDepth : Int := 0x100000

/-- Whether a scope can be suspended, so that it starts with a value on the stack. -/
def CodeFlags.suspends (f : CodeFlags) : Bool :=
  f.generator || f.coroutine || f.asyncGenerator

structure DepthSearch where
  depths : Array (Option Int)
  waiting : List BlockId := []
  deepest : Int := 0

namespace DepthSearch

def enter (s : DepthSearch) (id : BlockId) (depth : Int) : Result DepthSearch :=
  if depth < 0 then .fault (.underflowEntering id)
  else
    match s.depths[id]? with
    | none => .fault (.unknownBlock id)
    | some (some known) => if known = depth then .ok s else .fault (.depthConflict id known depth)
    | some none =>
      .ok { s with
        depths := s.depths.setIfInBounds id (some depth)
        waiting := id :: s.waiting }

def branch (s : DepthSearch) (depth : Int) (i : Instr) : Result DepthSearch :=
  match i.target with
  | some target => do
    let there := depth + (← i.op.stackEffect i.arg true)
    { s with deepest := max s.deepest there }.enter target there
  | none => .ok s

/-- Follows the instructions of a block from a given depth; the depth at its end, if control gets
there. -/
def follow (id : BlockId) (s : DepthSearch) (depth : Int) :
    List Instr → Result (DepthSearch × Option Int)
  | [] => .ok (s, some depth)
  | i :: rest => do
    let after := depth + (← i.op.stackEffect i.arg false)
    if after < 0 then .fault (.underflowAt i.op id)
    else
      let s ← { s with deepest := max s.deepest after }.branch depth i
      if maxStackDepth < s.deepest then .exceed .stackDepth
      else if i.op.fallsThrough then follow id s after rest
      else .ok (s, none)

def leave (s : DepthSearch) (atEnd : Option Int) (next : Option BlockId) : Result DepthSearch :=
  match atEnd, next with
  | some depth, some next => s.enter next depth
  | _, _ => .ok s

end DepthSearch

namespace Graph

/-- Follows the blocks that wait. A block waits once at most, so that the number of blocks is
`fuel` enough. -/
def followBlocks (g : Graph) : (fuel : Nat) → DepthSearch → Result DepthSearch
  | 0, s => .ok s
  | fuel + 1, s =>
    match s.waiting with
    | [] => .ok s
    | id :: waiting => do
      let b := g.block id
      let depth := ((s.depths[id]?).join).getD 0
      let (s, atEnd) ← { s with waiting := waiting }.follow id depth b.instrs
      followBlocks g fuel (← s.leave atEnd b.next)

def stackDepths (g : Graph) (flags : CodeFlags) : Result DepthSearch := do
  let start := if flags.suspends then 1 else 0
  let s : DepthSearch := { depths := Array.replicate g.blocks.size none, deepest := start }
  g.followBlocks g.blocks.size (← s.enter g.entry start)

end Graph

end Bytecode
