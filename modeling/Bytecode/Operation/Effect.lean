import Bytecode.Error

/-!
# Stack effects

The change of the stack's height by one instruction. Of an instruction that branches, the effect
may depend on whether the branch is taken; of one that opens a handler, the effect on the branch is
what the handler finds on the stack.
-/

namespace Bytecode

def functionExtras (arg : Nat) : Nat :=
  arg % 2 + arg / 2 % 2 + arg / 4 % 2 + arg / 8 % 2

namespace Opcode

/-- The effect of an opcode with an operand below `2 ^ 31`, as an integer: that of `BUILD_MAP` is no
32-bit word if the operand is over `2 ^ 30`. -/
def effectOf (op : Opcode) (arg : Nat) (jump : Bool) : Result Int :=
  match op with
  | .nop | .extendedArg | .resume | .returnGenerator | .setupAnnotations | .unaryPositive
  | .unaryNegative | .unaryNot | .unaryInvert | .getIter | .getYieldFromIter | .getAiter
  | .checkExcMatch | .swap | .deleteName | .deleteGlobal | .deleteFast | .deleteDeref | .makeCell
  | .copyFreeVars | .yieldValue | .kwNames | .callIntrinsic1 | .getAwaitable | .returnConst
  | .jumpForward | .jumpBackward | .jumpBackwardNoInterrupt | .send => .ok 0
  | .popTop | .returnValue | .popExcept | .endSend | .cleanupThrow | .storeName | .storeGlobal
  | .storeFast | .storeDeref | .deleteAttr | .binarySubscr | .compareOp | .isOp | .containsOp
  | .binaryOp | .importName | .reraise | .listAppend | .setAdd | .listExtend | .setUpdate
  | .dictMerge | .dictUpdate | .callIntrinsic2 | .popJumpForwardIfFalse | .popJumpForwardIfTrue
  | .popJumpForwardIfNone | .popJumpForwardIfNotNone | .popJumpBackwardIfFalse
  | .popJumpBackwardIfTrue | .popJumpBackwardIfNone | .popJumpBackwardIfNotNone => .ok (-1)
  | .pushNull | .getLen | .matchMapping | .matchSequence | .matchKeys | .pushExcInfo
  | .withExceptStart | .getAnext | .beforeAsyncWith | .beforeWith | .loadBuildClass
  | .loadAssertionError | .loadLocals | .loadConst | .loadName | .importFrom | .copy | .loadFast
  | .loadFastCheck | .loadDeref | .loadClassderef => .ok 1
  | .binarySlice | .storeAttr | .deleteSubscr | .endAsyncFor | .mapAdd | .matchClass => .ok (-2)
  | .storeSubscr => .ok (-3)
  | .storeSlice => .ok (-4)
  | .jumpIfFalseOrPop | .jumpIfTrueOrPop => .ok (if jump then 0 else -1)
  | .forIter => .ok (if jump then -1 else 1)
  | .unpackSequence => .ok (arg - 1)
  | .unpackEx => .ok (arg % 256 + arg / 256)
  | .buildTuple | .buildList | .buildSet | .buildString => .ok (1 - arg)
  | .buildMap => .ok (1 - 2 * arg)
  | .buildConstKeyMap => .ok (-arg)
  | .buildSlice => if arg = 2 ∨ arg = 3 then .ok (1 - arg) else .fault (.sliceOperands arg)
  | .loadAttr => .ok (arg % 2)
  | .loadGlobal => .ok (1 + arg % 2)
  | .raiseVarargs => if arg ≤ 2 then .ok (-arg) else .fault (.raiseOperands arg)
  | .makeFunction => .ok (-functionExtras arg)
  | .formatValue => .ok (if arg / 4 % 2 = 1 then -1 else 0)
  | .call => .ok (-arg - 1)
  | .callFunctionEx => .ok (-2 - arg % 2)

/-- The change of the stack's height; `jump` asks for the branch that is taken. -/
def stackEffect (op : Opcode) (arg : Nat) (jump : Bool) : Result Int :=
  if arg < 0x80000000 then op.effectOf arg jump else .fault (.operandOutOfRange arg)

end Opcode

/-- The change of the stack's height; `jump` asks for the branch, or for the handler's entry. -/
def PseudoOp.stackEffect : PseudoOp → Bool → Int
  | .jump, _ | .jumpNoInterrupt, _ | .popBlock, _ => 0
  | .popJumpIfFalse, _ | .popJumpIfTrue, _ | .popJumpIfNone, _ | .popJumpIfNotNone, _ => -1
  | .setupFinally, taken | .setupWith, taken => if taken then 1 else 0
  | .setupCleanup, taken => if taken then 2 else 0
  | .loadClosure, _ => 1

def Operation.stackEffect (op : Operation) (arg : Nat) (jump : Bool) : Result Int :=
  match op with
  | .real op => op.stackEffect arg jump
  | .pseudo op => .ok (op.stackEffect jump)

end Bytecode
