import Bytecode.Graph.Reach

/-!
# Active handlers

Instructions that open a handler and the one that closes it work on a stack of handlers. This walk
follows the stack through the graph, and writes on every instruction which handler is active there.
A block is walked with the stack of the edge that finds it first.
-/

namespace Bytecode

/-- The open handlers, the innermost first. -/
abbrev HandlerStack := List BlockId

structure BlockWalk where
  instrs : List Instr
  stack : HandlerStack
  found : List (BlockId × HandlerStack)
  keepers : List BlockId

def Operation.keepsPosition : Operation → Bool
  | .pseudo .setupCleanup | .pseudo .setupWith => true
  | _ => false

/-- Writes the active handler on every instruction. One that opens a handler has the handler
outside of it, and one that closes a handler has what is active after it. -/
def walkInstrs (stack : HandlerStack) : List Instr → Result BlockWalk
  | [] => .ok ⟨[], stack, [], []⟩
  | i :: rest => do
    let here := { i with handler := stack.head? }
    if i.op.isBlockPush then
      let target ← Result.require (.missingHandler i.op) i.target
      let walk ← walkInstrs (target :: stack) rest
      return { walk with
        instrs := here :: walk.instrs
        found := (target, stack) :: walk.found
        keepers := if i.op.keepsPosition then target :: walk.keepers else walk.keepers }
    else if i.op = .pseudo .popBlock then
      match stack with
      | [] => .fault .noActiveHandler
      | _ :: outer =>
        let walk ← walkInstrs outer rest
        return { walk with instrs := { i with handler := outer.head? } :: walk.instrs }
    else if i.op.isJump then
      let target ← Result.require (.missingTarget i.op) i.target
      let walk ← walkInstrs stack rest
      return { walk with instrs := here :: walk.instrs, found := (target, stack) :: walk.found }
    else
      let walk ← walkInstrs stack rest
      let here := if i.op = .real .yieldValue then { here with arg := stack.length } else here
      return { walk with instrs := here :: walk.instrs }

namespace Graph

def markHandlers (g : Graph) : Graph :=
  let handlers := g.body.flatMap fun instrs =>
    (instrs.filter (·.op.isBlockPush)).filterMap (·.target)
  { g with blocks := g.blocks.mapIdx fun id b => { b with isHandler := handlers.contains id } }

/-- Puts those blocks in front of the work that were not seen before, the last one first. -/
def enqueue : List (BlockId × HandlerStack) → (work : List (BlockId × HandlerStack)) →
    (seen : List BlockId) → List (BlockId × HandlerStack) × List BlockId
  | [], work, seen => (work, seen)
  | (id, stack) :: found, work, seen =>
    if seen.contains id then enqueue found work seen
    else enqueue found ((id, stack) :: work) (id :: seen)

/-- Walks the blocks that wait in `work`. Every block waits once at most, so that the number of
blocks is `fuel` enough. -/
def walkBlocks : (fuel : Nat) → (work : List (BlockId × HandlerStack)) → (seen : List BlockId) →
    Graph → Result Graph
  | 0, _, _, g => .ok g
  | _ + 1, [], _, g => .ok g
  | fuel + 1, (id, stack) :: work, seen, g => do
    let walk ← walkInstrs stack (g.block id).instrs
    let g := g.setInstrs id walk.instrs
    let g := walk.keepers.foldl (fun h k => h.modify k fun b => { b with keepsPosition := true }) g
    let onward := (g.fallthrough? id).toList.map fun next => (next, walk.stack)
    let (work, seen) := enqueue (walk.found ++ onward) work seen
    walkBlocks fuel work seen g

/-- Writes the active handler on every reachable instruction, and on every yield how many handlers
are open there. -/
def labelHandlers (g : Graph) : Result Graph :=
  let g := { g with blocks := g.blocks.map fun b => { b with keepsPosition := false } }
  walkBlocks g.blocks.size [(g.entry, [])] [g.entry] g

end Graph

end Bytecode
