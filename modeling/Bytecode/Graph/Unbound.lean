import Bytecode.Graph.Reach

/-!
# Loads of unbound locals

A load of a local that may be unbound is replaced by a load that checks it. The first 64 locals are
followed along all edges of the graph, one bit each; further ones only within a block, at whose
start they count as unbound.
-/

namespace Bytecode

def trackedLocals : Nat := 64

abbrev UnboundSet := BitVec 64

namespace Instr

def unboundAfter (i : Instr) (s : UnboundSet) : UnboundSet :=
  if i.arg < trackedLocals then
    let bit := BitVec.twoPow 64 i.arg
    match i.op with
    | .real .deleteFast => s ||| bit
    | .real .storeFast | .real .loadFastCheck | .real .loadFast => s &&& ~~~bit
    | _ => s
  else s

def withCheck (i : Instr) (s : UnboundSet) : Instr :=
  if i.op = .real .loadFast ∧ i.arg < trackedLocals ∧ s.getLsbD i.arg then
    { i with op := .real .loadFastCheck }
  else i

end Instr

/-- The sets that instructions send to their handlers, and the set after all of them. -/
def flowThrough (s : UnboundSet) : List Instr → List (BlockId × UnboundSet) × UnboundSet
  | [] => ([], s)
  | i :: rest =>
    let (sent, last) := flowThrough (i.unboundAfter s) rest
    (i.handler.toList.map (·, s) ++ sent, last)

def checkLoads (s : UnboundSet) : List Instr → List Instr
  | [] => []
  | i :: rest => i.withCheck s :: checkLoads (i.unboundAfter s) rest

/-- Adds checks to the loads of locals that are not followed through the graph, unless the block
bound them before. -/
def checkFarLoads (localCount : Nat) (bound : List Nat) : List Instr → List Instr
  | [] => []
  | i :: rest =>
    if i.arg < trackedLocals ∨ localCount ≤ i.arg then i :: checkFarLoads localCount bound rest
    else
      match i.op with
      | .real .deleteFast => i :: checkFarLoads localCount (bound.filter (· ≠ i.arg)) rest
      | .real .storeFast => i :: checkFarLoads localCount (i.arg :: bound) rest
      | .real .loadFast =>
        let i' := if bound.contains i.arg then i else { i with op := .real .loadFastCheck }
        i' :: checkFarLoads localCount (i.arg :: bound) rest
      | _ => i :: checkFarLoads localCount bound rest

namespace Graph

variable (g : Graph)

def sendUnbound (id : BlockId) (s : UnboundSet) : List (BlockId × UnboundSet) :=
  let b := g.block id
  let (toHandlers, last) := flowThrough s b.instrs
  let jump := b.last?.bind fun i => if i.op.isJump then i.target else none
  toHandlers ++ ((g.fallthrough? id).toList ++ jump.toList).map (·, last)

/-- Lets the given blocks, and all blocks with a set of their own, send along their edges. -/
def spreadOnce (order : List BlockId) (sets : Array UnboundSet) : Array UnboundSet :=
  let active := fun id => order.contains id || sets.getD id 0 ≠ 0
  (List.range sets.size).foldl (fun sets id =>
    if active id then
      (g.sendUnbound id (sets.getD id 0)).foldl (fun sets (dest, s) => sets.modify dest (· ||| s))
        sets
    else sets) sets

/-- Spreads the sets until they stop growing. Every round but the last adds a local to a set. -/
def spread (order : List BlockId) : (fuel : Nat) → Array UnboundSet → Array UnboundSet
  | 0, sets => sets
  | fuel + 1, sets =>
    let sets' := g.spreadOnce order sets
    if sets' = sets then sets else spread order fuel sets'

/-- The locals that may be unbound at the start of each block. Parameters are bound at the entry,
and no other local is. -/
def unboundSets (localCount paramCount : Nat) : Array UnboundSet :=
  let start := (List.range (min localCount trackedLocals)).foldl (fun s k =>
    if paramCount ≤ k then s ||| BitVec.twoPow 64 k else s) 0
  let sets := (Array.replicate g.blocks.size 0).setIfInBounds g.entry start
  g.spread g.order (trackedLocals * g.blocks.size + 1) sets

def checkUnboundLoads (localCount paramCount : Nat) : Graph :=
  if localCount = 0 then g
  else
    let g := if trackedLocals < localCount then g.mapInstrs (checkFarLoads localCount []) else g
    let order := g.order
    let sets := g.unboundSets localCount paramCount
    { g with blocks := g.blocks.mapIdx fun id b =>
        let s := sets.getD id 0
        if order.contains id || s ≠ 0 then { b with instrs := checkLoads s b.instrs } else b }

end Graph

end Bytecode
