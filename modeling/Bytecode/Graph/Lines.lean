import Bytecode.Graph.Reach

/-!
# Line numbers

Instructions without a line take one from where control comes from. An exit without a line that
several jumps share is copied, so that every copy can have the line of its jump.
-/

namespace Bytecode.Graph

def sharedExit? (g : Graph) (id : BlockId) : Option (BlockId × Location) := do
  let last ← (g.block id).last?
  let target ← if last.op.isJump then last.target else none
  let exit := g.block target
  if exit.isExitWithoutLine && 1 < exit.predecessors then some (target, last.loc) else none

/-- Gives a block that jumps to a shared exit a copy of its own, right after the exit. -/
def splitExit (g : Graph) (id : BlockId) : Graph :=
  match g.sharedExit? id with
  | some (exit, loc) =>
    let b := g.block exit
    let copied := { instrs := b.instrs, next := b.next, predecessors := 1 : Block }
    let (g, copy) := g.addBlock (copied.modifyHead fun i => { i with loc := loc })
    let g := g.modify id (·.modifyLast fun i => { i with target := some copy })
    g.modify exit fun b => { b with predecessors := b.predecessors - 1, next := some copy }
  | none => g

/-- Gives an exit without a line the place that control falls through from. -/
def lineOfFallthrough (g : Graph) (id : BlockId) : Graph :=
  match g.fallthrough? id, (g.block id).last? with
  | some next, some last =>
    if (g.block next).isExitWithoutLine then
      g.modify next (·.modifyHead fun i => { i with loc := last.loc })
    else g
  | _, _ => g

/-- Gives the first instruction of a block a place, if it has no line and one edge leads to it. -/
def inheritLine (loc : Location) (g : Graph) (id : BlockId) : Graph :=
  if (g.block id).predecessors = 1 then
    g.modify id (·.modifyHead fun i => if i.line < 0 then { i with loc := loc } else i)
  else g

/-- Gives every instruction without a line the place of the last one before it that has one, and
tells which place that is at the end. -/
def carryLines (prev : Location) : List Instr → List Instr × Location
  | [] => ([], prev)
  | i :: rest =>
    let loc := if i.line < 0 then prev else i.loc
    let (rest, last) := carryLines (if i.line < 0 then prev else i.loc) rest
    ({ i with loc := loc } :: rest, last)

/-- Carries places through a block and on to the blocks that only it leads to. -/
def carryThrough (g : Graph) (id : BlockId) : Graph :=
  let b := g.block id
  if b.isEmpty then g
  else
    let (instrs, last) := carryLines .none b.instrs
    let jump := b.last?.bind fun i => if i.op.isJump then i.target else none
    ((g.fallthrough? id).toList ++ jump.toList).foldl (inheritLine last) (g.setInstrs id instrs)

/-- Gives the returns that still have no line the line of the last block before them that ends in
one, or the first line of the scope. -/
def lineOfReturns : (line : Int) → List BlockId → Graph → Graph
  | _, [], g => g
  | line, id :: rest, g =>
    match (g.block id).last? with
    | none => lineOfReturns line rest g
    | some last =>
      if 0 ≤ last.line then lineOfReturns last.line rest g
      else if last.op = .real .returnValue ∨ last.op = .real .returnConst then
        lineOfReturns line rest <| g.modify id fun b =>
          { b with instrs := b.instrs.map fun i =>
              if i.line < 0 then { i with loc := .ofLine line } else i }
      else lineOfReturns line rest g

def resolveLines (g : Graph) (firstLine : Int) : Graph :=
  let g := g.countPredecessors
  let g := g.order.foldl splitExit g
  let g := g.order.foldl lineOfFallthrough g
  let g := g.order.foldl carryThrough g
  lineOfReturns firstLine g.order g

end Bytecode.Graph
