import Bytecode.Graph.Prune

/-!
# Cold blocks

Blocks that only handlers lead to are cold. They go to the end of the layout, and where one of them
fell through into a block that stays, a jump takes its place.
-/

namespace Bytecode.Graph

variable (g : Graph)

/-- Marks the blocks that can be reached without a fault as warm, and those that only handlers lead
to as cold. -/
def markCold : Graph :=
  let warm := reach g.plainSuccessors g.blocks.size [g.entry]
  let handlers := g.order.filter fun id => (g.block id).isHandler && !warm.contains id
  let onward := fun id => (g.plainSuccessors id).filter fun s => !warm.contains s
  let cold := reach onward g.blocks.size handlers
  { g with blocks := g.blocks.mapIdx fun id b =>
      { b with warm := warm.contains id, cold := cold.contains id } }

/-- Puts a jump between a cold block and a warm one that it falls through into. -/
def bridge (g : Graph) (id : BlockId) : Graph :=
  let b := g.block id
  match b.next with
  | some next =>
    if b.cold && b.fallsThrough && (g.block next).warm then
      let (h, jump) := g.addBlock
        { instrs := [{ op := .pseudo .jump, target := some next }]
          next := some next
          predecessors := 1
          cold := true }
      h.modify id fun b => { b with next := some jump }
    else g
  | none => g

def moveColdToEnd : Graph :=
  if (g.block g.entry).next.isNone then g
  else
    let g := g.markCold
    let g := g.order.foldl bridge g
    let (cold, warm) := g.order.partition fun id => (g.block id).cold
    if cold.isEmpty then g else (g.setLayout (warm ++ cold)).dropRedundantJumps

end Bytecode.Graph
