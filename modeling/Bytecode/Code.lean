import Bytecode.Constant

/-!
# Code objects

A code object is the compiled form of one scope: its instructions, the tables they refer to, and
what a call has to know about its parameters.
-/

namespace Bytecode

structure CodeFlags where
  /-- Locals live in numbered slots. -/
  optimized : Bool := false
  /-- A call makes a fresh namespace. -/
  newLocals : Bool := false
  varArgs : Bool := false
  varKeywords : Bool := false
  /-- The scope stands inside a function. -/
  nested : Bool := false
  generator : Bool := false
  /-- The scope shares no variable with another one. -/
  noFree : Bool := false
  coroutine : Bool := false
  asyncGenerator : Bool := false
  generatorStop : Bool := false
  annotations : Bool := false
deriving DecidableEq, Repr

def bitAt (place : Nat) (set : Bool) : Nat :=
  if set then 1 <<< place else 0

namespace CodeFlags

def toBits (f : CodeFlags) : Nat :=
  bitAt 0 f.optimized + bitAt 1 f.newLocals + bitAt 2 f.varArgs + bitAt 3 f.varKeywords +
    bitAt 4 f.nested + bitAt 5 f.generator + bitAt 6 f.noFree + bitAt 7 f.coroutine +
    bitAt 9 f.asyncGenerator + bitAt 23 f.generatorStop + bitAt 24 f.annotations

/-- The flags among the bits of a number; other bits are dropped. -/
def ofBits (n : Nat) : CodeFlags where
  optimized := n.testBit 0
  newLocals := n.testBit 1
  varArgs := n.testBit 2
  varKeywords := n.testBit 3
  nested := n.testBit 4
  generator := n.testBit 5
  noFree := n.testBit 6
  coroutine := n.testBit 7
  asyncGenerator := n.testBit 9
  generatorStop := n.testBit 23
  annotations := n.testBit 24

end CodeFlags

structure SlotKind where
  positional : Bool := false
  keyword : Bool := false
  variadic : Bool := false
  isLocal : Bool := false
  isCell : Bool := false
  isFree : Bool := false
deriving DecidableEq, Repr

namespace SlotKind

def toBits (k : SlotKind) : Nat :=
  bitAt 1 k.positional + bitAt 2 k.keyword + bitAt 3 k.variadic + bitAt 5 k.isLocal +
    bitAt 6 k.isCell + bitAt 7 k.isFree

def ofBits (n : Nat) : SlotKind where
  positional := n.testBit 1
  keyword := n.testBit 2
  variadic := n.testBit 3
  isLocal := n.testBit 5
  isCell := n.testBit 6
  isFree := n.testBit 7

end SlotKind

structure CodeObject where
  positionalCount : Nat
  positionalOnlyCount : Nat
  keywordOnlyCount : Nat
  flags : CodeFlags
  stackSize : Nat
  /-- The instructions, two bytes a code unit. -/
  code : List UInt8
  constants : List Constant
  names : List String
  /-- The slots of the frame: locals, then cells, then free variables. -/
  slotNames : List String
  slotKinds : List SlotKind
  file : String
  name : String
  qualifiedName : String
  firstLine : Int
  locationTable : List UInt8
  handlerTable : List UInt8
deriving DecidableEq, Repr

namespace CodeObject

variable (c : CodeObject)

def units : Nat :=
  c.code.length / 2

def isEmpty : Bool :=
  c.code.isEmpty

def slotsWith (role : SlotKind → Bool) : List String :=
  ((c.slotNames.zip c.slotKinds).filter (role ·.2)).map (·.1)

def localNames : List String :=
  c.slotsWith (·.isLocal)

def cellNames : List String :=
  c.slotsWith (·.isCell)

def freeNames : List String :=
  c.slotsWith (·.isFree)

def nested : List Nat :=
  c.constants.filterMap fun
    | .code index _ => some index
    | _ => none

end CodeObject

end Bytecode
