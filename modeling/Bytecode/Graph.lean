import Bytecode.Operation.Effect

/-!
# Control-flow graphs

A graph holds basic blocks by number. Besides its jumps, every block knows which block comes after
it in the layout; blocks that no link reaches from the entry are not part of the program any more.

While a graph is built, jumps name labels, and a label stands for the block that receives the next
instruction. `resolveLabels` replaces the labels by blocks.
-/

namespace Bytecode

abbrev BlockId := Nat

abbrev Label := Nat

/-- An instruction of a block. Of a jump that is not resolved, the operand is the label. -/
structure Instr where
  op : Operation
  arg : Nat := 0
  target : Option BlockId := none
  loc : Location := .none
  /-- The block that takes over when the instruction raises. -/
  handler : Option BlockId := none
deriving DecidableEq, Repr

namespace Instr

instance : Inhabited Instr := ⟨{ op := default }⟩

variable (i : Instr)

def isNop : Bool :=
  i.op = .real .nop

def toNop : Instr :=
  { i with op := .real .nop, arg := 0, target := none }

def become (op : Opcode) (arg : Nat) : Instr :=
  { i with op := .real op, arg := arg, target := none }

def line : Int :=
  i.loc.line

def isPurePush : Bool :=
  i.op = .real .loadConst || (i.op = .real .copy && i.arg = 1)

end Instr

/-- A run of instructions that is entered at its start only. -/
structure Block where
  instrs : List Instr := []
  next : Option BlockId := none
  label : Option Label := none
  predecessors : Nat := 0
  isHandler : Bool := false
  /-- Whether the handler finds the position of the fault on the stack. -/
  keepsPosition : Bool := false
  /-- Whether only handlers lead to the block. -/
  cold : Bool := false
  /-- Whether the block can be reached without a fault. -/
  warm : Bool := false
deriving DecidableEq, Repr

namespace Block

instance : Inhabited Block := ⟨{}⟩

variable (b : Block)

def isEmpty : Bool :=
  b.instrs.isEmpty

def last? : Option Instr :=
  b.instrs.getLast?

def fallsThrough : Bool :=
  b.last?.all (·.op.fallsThrough)

def exitsScope : Bool :=
  b.last?.any (·.op.isScopeExit)

def isTerminated : Bool :=
  b.last?.any (·.op.isTerminator)

def isExitWithoutLine : Bool :=
  b.exitsScope && b.instrs.all (·.line < 0)

def modifyLast (f : Instr → Instr) : Block :=
  match b.last? with
  | some i => { b with instrs := b.instrs.dropLast ++ [f i] }
  | none => b

def modifyHead (f : Instr → Instr) : Block :=
  match b.instrs with
  | i :: rest => { b with instrs := f i :: rest }
  | [] => b

end Block

structure Graph where
  blocks : Array Block := #[{}]
  entry : BlockId := 0
  current : BlockId := 0
  labels : Array (Option BlockId) := #[]
deriving DecidableEq, Repr

namespace Graph

instance : Inhabited Graph := ⟨{}⟩

variable (g : Graph)

/-- The block with the given number, an empty one if there is none. -/
def block (id : BlockId) : Block :=
  g.blocks[id]?.getD {}

def modify (id : BlockId) (f : Block → Block) : Graph :=
  { g with blocks := g.blocks.modify id f }

def setInstrs (id : BlockId) (instrs : List Instr) : Graph :=
  g.modify id fun b => { b with instrs := instrs }

def orderFrom : (fuel : Nat) → BlockId → List BlockId
  | 0, _ => []
  | fuel + 1, id =>
    id :: match (g.block id).next with
      | some next => orderFrom fuel next
      | none => []

/-- The layout: the blocks from the entry on. No block comes twice in it, so that the number of
blocks bounds its length. -/
def order : List BlockId :=
  g.orderFrom g.blocks.size g.entry

def body : List (List Instr) :=
  g.order.map fun id => (g.block id).instrs

def instrCount : Nat :=
  g.body.flatten.length

def link : Graph → List BlockId → Graph
  | g, [] => g
  | g, [id] => g.modify id fun b => { b with next := none }
  | g, id :: next :: rest => link (g.modify id fun b => { b with next := some next }) (next :: rest)

def setLayout (order : List BlockId) : Graph :=
  { g.link order with entry := order.head?.getD g.entry }

def mapInstrs (f : List Instr → List Instr) : Graph :=
  g.order.foldl (fun h id => h.modify id fun b => { b with instrs := f b.instrs }) g

/-- Changes the instructions one by one, in the order of the layout, until one is at fault. -/
def mapInstrsM (f : Instr → Result Instr) : Result Graph :=
  g.order.foldlM (fun h id => return h.setInstrs id (← (h.block id).instrs.mapM f)) g

/-! ### Construction -/

def addBlock (b : Block) : Graph × BlockId :=
  ({ g with blocks := g.blocks.push b }, g.blocks.size)

def copyBlock (id : BlockId) : Graph × BlockId :=
  g.addBlock { instrs := (g.block id).instrs }

def addLabel : Graph × Label :=
  ({ g with labels := g.labels.push none }, g.labels.size)

def labelBlock? (label : Label) : Option BlockId :=
  g.labels[label]?.join

def appendBlock : Graph :=
  let (h, id) := g.addBlock { next := (g.block g.current).next }
  { h.modify g.current (fun b => { b with next := some id }) with current := id }

/-- Adds an instruction; one that follows the end of a block starts the next. -/
def addInstr (i : Instr) : Graph :=
  let h := if (g.block g.current).isTerminated then g.appendBlock else g
  h.modify h.current fun b => { b with instrs := b.instrs ++ [i] }

/-- Lets a label stand for the block of the next instruction; a label that stands for a block
already keeps it. -/
def bindLabel (label : Label) : Result Graph :=
  match g.labels[label]? with
  | none => .fault (.unknownLabel label)
  | some (some _) => .ok g
  | some none =>
    let now := g.block g.current
    let h := if now.isEmpty && now.label.isNone then g else g.appendBlock
    let h := h.modify h.current fun b => { b with label := some label }
    .ok { h with labels := h.labels.setIfInBounds label (some h.current) }

def addOp (op : Operation) (arg : Nat) (loc : Location) : Result Graph :=
  if op.hasTarget then .fault (.needsTarget op)
  else .ok (g.addInstr { op := op, arg := arg, loc := loc })

def addJump (op : Operation) (label : Label) (loc : Location) : Result Graph :=
  if !op.hasTarget then .fault (.notJump op)
  else if g.labels.size ≤ label then .fault (.unknownLabel label)
  else .ok (g.addInstr { op := op, arg := label, loc := loc })

def resolveInstr (i : Instr) : Result Instr :=
  if i.op.hasTarget && i.target.isNone then
    match g.labelBlock? i.arg with
    | some id => .ok { i with target := some id, arg := 0 }
    | none => .fault (.unboundLabel i.arg)
  else .ok i

def resolveLabels : Result Graph :=
  g.mapInstrsM g.resolveInstr

/-! ### Views -/

def references : List BlockId :=
  g.body.flatMap fun instrs => instrs.flatMap fun i => i.target.toList ++ i.handler.toList

def referenced : Array Bool :=
  g.references.foldl (fun marks id => marks.setIfInBounds id true)
    (Array.replicate g.blocks.size false)

/-- Refuses a jump that is not the last of its block, or that has no block to go to. -/
def checkInstrs (id : BlockId) : List Instr → Result Unit
  | [] => .ok ()
  | i :: rest =>
    if i.op.isTerminator && !rest.isEmpty then .fault (.misplacedTerminator i.op id)
    else if i.op.hasTarget && i.target.isNone then .fault (.unresolvedTarget i.op)
    else checkInstrs id rest

def check : Result Unit :=
  g.order.forM fun id => checkInstrs id (g.block id).instrs

end Graph

end Bytecode
