import Bytecode.Graph
import Bytecode.Options

/-!
# Copies of short exits

A jump to a short block that leaves the scope is replaced by a copy of that block.
-/

namespace Bytecode.Graph

variable (g : Graph)

/-- The instructions of the exit that a block jumps to, if they are few enough. -/
def exitToCopy? (maxSize : Nat) (id : BlockId) : Option (List Instr) := do
  let last ← (g.block id).last?
  let target ← if last.op.isUnconditionalJump then last.target else none
  let exit := g.block target
  if exit.exitsScope && exit.instrs.length ≤ maxSize then some exit.instrs else none

def copyExit (maxSize : Nat) (id : BlockId) : Graph :=
  match g.exitToCopy? maxSize id with
  | some exit =>
    g.modify id fun b =>
      let b := b.modifyLast Instr.toNop
      { b with instrs := b.instrs ++ exit }
  | none => g

def copyExitsOnce (maxSize : Nat) : Graph × Bool :=
  g.order.foldl (fun (h, changed) id =>
    (h.copyExit maxSize id, changed || (h.exitToCopy? maxSize id).isSome)) (g, false)

def copyExitSweeps (maxSize : Nat) : (passes : Nat) → Graph → Graph
  | 0, g => g
  | passes + 1, g =>
    match g.copyExitsOnce maxSize with
    | (h, true) => copyExitSweeps maxSize passes h
    | (h, false) => h

def copyExits (config : PassConfig) : Graph :=
  g.copyExitSweeps config.maxInlineSize config.maxInlinePasses

end Bytecode.Graph
