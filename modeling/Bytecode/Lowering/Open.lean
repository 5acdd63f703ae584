import Bytecode.Lowering.ExprCode

/-!
# Open blocks

Loops and protected regions nest. A `return`, `break` or `continue` leaves some of them at once, and
for each it does what leaving the region in the regular way would have done.
-/

namespace Bytecode

open Gen

inductive OpenBlock where
  | whileLoop (head exit : Label)
  | forLoop (head exit : Label)
  | tryExcept
  /-- A region with a final body, which is generated anew for every way out: with nothing to keep,
  and with a value to keep on the stack. -/
  | tryFinally (leave leaveKeeping : Gen Unit)
  | finalBody
  | withBlock (loc : Location)
  | asyncWith (loc : Location)
  | handler (name : Option String)
  | value
  | handlers

/-- The blocks around a statement, the innermost first. -/
abbrev OpenBlocks := List OpenBlock

def maxOpenBlocks : Nat := 20

abbrev StmtCode := OpenBlocks → Gen Unit

def runAll (cs : List StmtCode) : StmtCode := fun blocks =>
  cs.forM (· blocks)

namespace OpenBlocks

def enter (blocks : OpenBlocks) (b : OpenBlock) : Gen OpenBlocks :=
  if maxOpenBlocks ≤ blocks.length then exceed .nestedBlocks else return b :: blocks

end OpenBlocks

def callExit (loc : Location) : Gen Unit := do
  emitNone loc
  emitNone loc
  emitNone loc
  emit .call 2 loc

def liftKept (keep : Bool) (loc : Location) : Gen Unit := do
  if keep then emit .swap 2 loc

namespace OpenBlock

/-- Leaves a block early, keeping the value on top of the stack if asked to. The result is the place
of the instructions that follow: once other code has run, they belong to no place. -/
def leave (keep : Bool) (loc : Location) : OpenBlock → Gen Location
  | whileLoop _ _ => return loc
  | handlers => return loc
  | forLoop _ _ => do
    liftKept keep loc
    emit .popTop 0 loc
    return loc
  | tryExcept => do
    Gen.popBlock loc
    return loc
  | tryFinally leave leaveKeeping => do
    Gen.popBlock loc
    if keep then leaveKeeping else leave
    return .none
  | finalBody => do
    liftKept keep loc
    emit .popTop 0 loc
    liftKept keep loc
    Gen.popBlock loc
    emit .popExcept 0 loc
    return loc
  | withBlock withLoc => do
    Gen.popBlock withLoc
    liftKept keep withLoc
    callExit withLoc
    emit .popTop 0 withLoc
    return .none
  | asyncWith withLoc => do
    Gen.popBlock withLoc
    liftKept keep withLoc
    callExit withLoc
    awaitValue 2 withLoc
    emit .popTop 0 withLoc
    return .none
  | handler name => do
    if name.isSome then Gen.popBlock loc
    liftKept keep loc
    Gen.popBlock loc
    emit .popExcept 0 loc
    name.forM (unbindName · loc)
    return loc
  | value => do
    liftKept keep loc
    emit .popTop 0 loc
    return loc

end OpenBlock

structure OpenLoop where
  block : OpenBlock
  head : Label
  exit : Label

def OpenBlock.loop? : OpenBlock → Option OpenLoop
  | .whileLoop head exit => some ⟨.whileLoop head exit, head, exit⟩
  | .forLoop head exit => some ⟨.forLoop head exit, head, exit⟩
  | _ => none

def leaveAll (keep : Bool) (loc : Location) : OpenBlocks → Gen Location
  | [] => return loc
  | b :: blocks => do
    let loc ← b.leave keep loc
    leaveAll keep loc blocks

/-- Leaves all blocks inside the innermost loop. Without a loop, the statement is at fault. -/
def leaveToLoop (outside : SourceFault) (origin loc : Location) :
    OpenBlocks → Gen (OpenLoop × Location)
  | [] => refuse outside origin
  | b :: blocks =>
    match b.loop? with
    | some l => return (l, loc)
    | none => do
      let loc ← b.leave false loc
      leaveToLoop outside origin loc blocks

def lowerBreak (loc : Location) : StmtCode := fun blocks => do
  emit .nop 0 loc
  let (l, after) ← leaveToLoop .breakOutside loc loc blocks
  let after ← l.block.leave false after
  emitJump PseudoOp.jump l.exit after

def lowerContinue (loc : Location) : StmtCode := fun blocks => do
  emit .nop 0 loc
  let (l, after) ← leaveToLoop .continueOutside loc loc blocks
  emitJump PseudoOp.jump l.head after

/-- Leaves the function, with a value or without. A constant is loaded only once all blocks are
left. -/
def lowerReturn (loc : Location) (value : Option ExprCode) : StmtCode := fun blocks => do
  let u ← info
  if !u.kind.isFunctionLike then refuse .returnOutside loc
  match value with
  | none =>
    emit .nop 0 loc
    let after ← leaveAll false loc blocks
    emitNone after
    emit .returnValue 0 after
  | some value =>
    if u.flags.asyncGenerator then refuse .returnInAsyncGenerator loc
    match value.constant? with
    | none =>
      value.load
      if value.loc.line ≠ loc.line then emit .nop 0 loc
      let after ← leaveAll true loc blocks
      emit .returnValue 0 after
    | some c =>
      emit .nop 0 value.loc
      if value.loc.line ≠ loc.line then emit .nop 0 loc
      let after ← leaveAll false loc blocks
      emitConst c after
      emit .returnValue 0 after

end Bytecode
