/-!
# Operators of expressions
-/

namespace Bytecode

inductive BoolOp where
  | and
  | or
deriving DecidableEq, Repr

inductive BinaryOp where
  | add
  | sub
  | mult
  | matMult
  | div
  | mod
  | pow
  | leftShift
  | rightShift
  | bitOr
  | bitXor
  | bitAnd
  | floorDiv
deriving DecidableEq, Repr

namespace BinaryOp

def code : BinaryOp → Nat
  | add => 0
  | bitAnd => 1
  | floorDiv => 2
  | leftShift => 3
  | matMult => 4
  | mult => 5
  | mod => 6
  | bitOr => 7
  | pow => 8
  | rightShift => 9
  | sub => 10
  | div => 11
  | bitXor => 12

def updateCode (op : BinaryOp) : Nat :=
  op.code + 13

end BinaryOp

inductive UnaryOp where
  | invert
  | not
  | positive
  | negative
deriving DecidableEq, Repr

inductive CompareOp where
  | equal
  | notEqual
  | less
  | lessOrEqual
  | greater
  | greaterOrEqual
  | is
  | isNot
  | contained
  | notContained
deriving DecidableEq, Repr

inductive Conversion where
  | plain
  | str
  | repr
  | ascii
deriving DecidableEq, Repr

def Conversion.code : Conversion → Nat
  | plain => 0
  | str => 1
  | repr => 2
  | ascii => 3

end Bytecode
