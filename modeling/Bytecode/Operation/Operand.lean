import Bytecode.Tree.Operator

/-!
# Operands

The numbers that operands stand for where they are neither a count nor a place in a table.
-/

namespace Bytecode

inductive Intrinsic where
  | importStar
  /-- Turns an end of iteration into an error. -/
  | stopToError
  /-- Marks a value as one that an asynchronous generator yields. -/
  | wrapYielded
  | listToTuple
deriving DecidableEq, Repr

def Intrinsic.code : Intrinsic → Nat
  | importStar => 2
  | stopToError => 3
  | wrapYielded => 4
  | listToTuple => 6

structure FunctionExtras where
  defaults : Bool := false
  keywordDefaults : Bool := false
  annotations : Bool := false
  closure : Bool := false
deriving DecidableEq, Repr

def FunctionExtras.code (e : FunctionExtras) : Nat :=
  (if e.defaults then 1 else 0) + (if e.keywordDefaults then 2 else 0) +
    (if e.annotations then 4 else 0) + if e.closure then 8 else 0

def CompareOp.code : CompareOp → Nat
  | .less => 0
  | .lessOrEqual => 1
  | .equal => 2
  | .notEqual => 3
  | .greater => 4
  | .greaterOrEqual => 5
  | .is => 0
  | .isNot => 1
  | .contained => 0
  | .notContained => 1

end Bytecode
