import Bytecode.Graph.Nops
import Bytecode.Graph.Reach

/-!
# Pruning

What can be left out of a graph without a change of what it does: blocks without instructions,
blocks that cannot be reached, jumps to the next instruction, and the borders between blocks that
control only falls through.
-/

namespace Bytecode.Graph

variable (g : Graph)

/-- The first block with instructions at or after a block of the layout. -/
def landing? (order : List BlockId) (id : BlockId) : Option BlockId :=
  (order.dropWhile (· ≠ id)).find? fun b => !(g.block b).isEmpty

def inheritHandler (order : List BlockId) (h : Graph) (id : BlockId) : Graph :=
  let b := g.block id
  match g.landing? order id with
  | some landing =>
    if b.isEmpty && b.isHandler then
      h.modify landing fun t =>
        { t with isHandler := true, keepsPosition := t.keepsPosition || b.keepsPosition }
    else h
  | none => h

def inheritHandlers (order : List BlockId) : Graph :=
  order.foldl (g.inheritHandler order) g

def landInstr (order : List BlockId) (i : Instr) : Result Instr := do
  let land (id : BlockId) : Result BlockId :=
    Result.require (.runsOffEnd id) (g.landing? order id)
  return { i with target := ← i.target.mapM land, handler := ← i.handler.mapM land }

def live : List BlockId :=
  g.order.filter fun id => !(g.block id).isEmpty

/-- Takes the blocks without instructions out of the layout. A graph without any instruction
stays as it is. -/
def dropEmpty : Result Graph :=
  if g.live.isEmpty ∨ g.live.length = g.order.length then .ok g
  else ((g.inheritHandlers g.order).setLayout g.live).mapInstrsM (g.landInstr g.order)

def clearUnreachableAt (id : BlockId) : Graph :=
  if (g.block id).predecessors = 0 then
    g.modify id fun b => { b with instrs := [], isHandler := false }
  else g

def clearUnreachable : Graph :=
  g.order.foldl clearUnreachableAt g

def dropUnreachable : Result Graph :=
  g.countPredecessors.clearUnreachable.dropEmpty

def endsInRedundantJump (id : BlockId) : Bool :=
  (g.block id).last?.any fun i =>
    i.op.isUnconditionalJump && i.target.isSome && i.target = (g.block id).next

def dropRedundantJumps : Graph :=
  g.order.foldl (fun h id =>
    if h.endsInRedundantJump id then h.modify id (·.modifyLast Instr.toNop) else h) g

def hasRedundantJump : Bool :=
  g.order.any g.endsInRedundantJump

def absorb (id next : BlockId) : Graph :=
  let n := g.block next
  (g.modify next fun n => { n with instrs := [], next := none }).modify id fun b =>
    { b with instrs := b.instrs ++ n.instrs, next := n.next }

/-- Appends each of the given blocks to the one before it where control can only fall through. -/
def mergeAfter (referenced : Array Bool) (g : Graph) (id : BlockId) : List BlockId → Graph
  | [] => g
  | next :: rest =>
    if (g.block id).isTerminated || referenced.getD next false || (g.block next).isHandler then
      mergeAfter referenced g next rest
    else mergeAfter referenced (g.absorb id next) id rest

def mergeFallthrough : Graph :=
  match g.order with
  | [] => g
  | id :: rest => mergeAfter g.referenced g id rest

/-- Drops idle instructions, empty blocks and redundant jumps until there is no such jump. Every
round but the last makes a jump idle. -/
def tidy : (fuel : Nat) → Graph → Result Graph
  | 0, g => .ok g
  | fuel + 1, g => do
    let g ← g.dropAllNops.dropEmpty
    if g.hasRedundantJump then tidy fuel g.dropRedundantJumps else .ok g

end Bytecode.Graph
