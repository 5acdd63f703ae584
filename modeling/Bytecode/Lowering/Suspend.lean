import Bytecode.Lowering.Names

/-!
# Suspension

The instructions around the points at which a unit can be suspended.
-/

namespace Bytecode.Gen

def emitYield (loc : Location) : Gen Unit := do
  if (← info).flags.asyncGenerator then emitIntrinsic .wrapYielded loc
  emit .yieldValue 0 loc
  emit .resume 1 loc

/-- Sends values to an iterator until it is exhausted. On the stack are the iterator and the first
value to send; what is left is the value with which the iterator ends. -/
def sendLoop (resume : Nat) (loc : Location) : Gen Unit := do
  let send ← newLabel
  let fail ← newLabel
  let exit ← newLabel
  bindLabel send
  emitJump Opcode.send exit loc
  emitJump PseudoOp.setupFinally fail loc
  emit .yieldValue 0 loc
  popBlock .none
  emit .resume resume loc
  emitJump PseudoOp.jumpNoInterrupt send loc
  bindLabel fail
  emit .cleanupThrow 0 loc
  bindLabel exit
  emit .endSend 0 loc

def delegate (loc : Location) : Gen Unit := do
  emitNone loc
  sendLoop 2 loc

def awaitTop (loc : Location) : Gen Unit := do
  emitNone loc
  sendLoop 3 loc

/-- Waits for the value on top of the stack; the operand tells the machine where it comes from. -/
def awaitValue (source : Nat) (loc : Location) : Gen Unit := do
  emit .getAwaitable source loc
  awaitTop loc

/-- Waits for the next item of the asynchronous iterator on top of the stack, with a handler for its
end. -/
def awaitNext (atEnd : Label) (loc : Location) : Gen Unit := do
  emitJump PseudoOp.setupFinally atEnd loc
  emit .getAnext 0 loc
  awaitTop loc
  popBlock loc

end Bytecode.Gen
