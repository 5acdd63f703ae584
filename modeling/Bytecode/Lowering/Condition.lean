import Bytecode.Lowering.ExprCode

/-!
# Conditions

Boolean operations, conditional expressions and comparisons. As a condition, none of them puts a
truth value on the stack before the last jump.
-/

namespace Bytecode

open Gen

/-! ### Boolean operations -/

def loadBoolOp (loc : Location) (op : BoolOp) (values : List ExprCode) : Gen Unit :=
  match values.getLast? with
  | none => fault .noOperands
  | some last => do
    let done ← newLabel
    values.dropLast.forM fun value => do
      value.load
      emitJump (jumpIfOrPop (op = .or)) done loc
    last.load
    bindLabel done

def jumpIfBoolOp (op : BoolOp) (values : List ExprCode) (target : Label) (cond : Bool) :
    Gen Unit :=
  match values.getLast? with
  | none => fault .noOperands
  | some last => do
    let decisive : Bool := op = .or
    if decisive = cond then
      values.dropLast.forM (·.jumpIf target decisive)
      last.jumpIf target cond
    else
      let past ← newLabel
      values.dropLast.forM (·.jumpIf past decisive)
      last.jumpIf target cond
      bindLabel past

/-! ### Conditional expressions -/

def chooseBy (test : ExprCode) (body orElse : Gen Unit) : Gen Unit := do
  let done ← newLabel
  let next ← newLabel
  test.jumpIf next false
  body
  emitJump PseudoOp.jumpNoInterrupt done .none
  bindLabel next
  orElse
  bindLabel done

/-! ### Comparisons -/

def emitCompare (op : CompareOp) (loc : Location) : Gen Unit :=
  let opcode : Opcode := match op with
    | .is | .isNot => .isOp
    | .contained | .notContained => .containsOp
    | _ => .compareOp
  emit opcode op.code loc

def warnIdentity (loc : Location) (left : ExprCode) :
    List CompareOp → List ExprCode → Gen Unit
  | op :: ops, right :: comparators => do
    if !left.source.hasIdentity || !right.source.hasIdentity then
      match op with
      | .is => warn .isLiteral loc
      | .isNot => warn .isNotLiteral loc
      | _ => pure ()
    warnIdentity loc right ops comparators
  | _, _ => pure ()

/-- The comparisons of a chain but the last. The right operand stays on the stack for the next
comparison, and one that fails jumps. -/
def compareEach (steps : List (CompareOp × ExprCode)) (onFail : Gen Unit) (loc : Location) :
    Gen Unit :=
  steps.forM fun (op, right) => do
    right.load
    emit .swap 2 loc
    emit .copy 2 loc
    emitCompare op loc
    onFail

def loadCompare (loc : Location) (left : ExprCode) (ops : List CompareOp)
    (comparators : List ExprCode) : Gen Unit :=
  match (ops.zip comparators).getLast? with
  | none => fault .malformedComparison
  | some (op, right) => do
    if ops.length ≠ comparators.length then fault .malformedComparison
    warnIdentity loc left ops comparators
    left.load
    if ops.length = 1 then
      right.load
      emitCompare op loc
    else
      let cleanup ← newLabel
      compareEach (ops.zip comparators).dropLast
        (emitJump Opcode.jumpIfFalseOrPop cleanup loc) loc
      right.load
      emitCompare op loc
      let done ← newLabel
      emitJump PseudoOp.jumpNoInterrupt done .none
      bindLabel cleanup
      emit .swap 2 loc
      emit .popTop 0 loc
      bindLabel done

/-- The chain is as long as the shorter list: an operator without a comparator is passed over. -/
def jumpIfChain (loc : Location) (left : ExprCode) (ops : List CompareOp)
    (comparators : List ExprCode) (target : Label) (cond : Bool) : Gen Unit :=
  match (ops.zip comparators).getLast? with
  | none => fault .malformedComparison
  | some (op, right) => do
    warnIdentity loc left ops comparators
    let cleanup ← newLabel
    left.load
    compareEach (ops.zip comparators).dropLast
      (emitJump PseudoOp.popJumpIfFalse cleanup loc) loc
    right.load
    emitCompare op loc
    emitJump (popJumpIf cond) target loc
    let done ← newLabel
    emitJump PseudoOp.jumpNoInterrupt done .none
    bindLabel cleanup
    emit .popTop 0 loc
    if !cond then emitJump PseudoOp.jumpNoInterrupt target .none
    bindLabel done

end Bytecode
