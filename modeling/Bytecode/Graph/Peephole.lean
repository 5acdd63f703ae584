import Bytecode.Graph.Shuffle
import Bytecode.Constant

/-!
# Peephole simplification

One pass over a block that looks at an instruction and its neighbours: conditions on constants are
decided, tuples of constants become constants, tuples that are unpacked at once are shuffles, and a
jump to a jump goes where that one goes, unless a line would be lost.
-/

namespace Bytecode

def maxConstants : Nat := 0xFFFFFFFE

def constantAt (constants : List Constant) (index : Nat) : Result Constant :=
  Result.require (.constantOutOfRange index constants.length) constants[index]?

def indexOfConstant (constants : List Constant) (c : Constant) : Result (Nat × List Constant) :=
  match constants.idxOf? c with
  | some index => .ok (index, constants)
  | none =>
    if maxConstants ≤ constants.length then .exceed .constants
    else .ok (constants.length, constants ++ [c])

def popJumpIf (outcome : Bool) : Operation :=
  .pseudo (if outcome then .popJumpIfTrue else .popJumpIfFalse)

def jumpIfOrPop (outcome : Bool) : Operation :=
  .real (if outcome then .jumpIfTrueOrPop else .jumpIfFalseOrPop)

def noneJumpIf (onNone : Bool) : Operation :=
  .pseudo (if onNone then .popJumpIfNone else .popJumpIfNotNone)

/-- The outcome that a jump on the top of the stack waits for, when it pops it always. -/
def popJumpOutcome? : Operation → Option Bool
  | .pseudo .popJumpIfTrue => some true
  | .pseudo .popJumpIfFalse => some false
  | _ => none

/-- The outcome that a jump waits for, when it keeps the top of the stack then. -/
def jumpOrPopOutcome? : Operation → Option Bool
  | .real .jumpIfTrueOrPop => some true
  | .real .jumpIfFalseOrPop => some false
  | _ => none

/-- A block in the middle of a pass: the instructions already passed, the last one first, and
those still ahead. -/
structure Cursor where
  passed : List Instr
  ahead : List Instr
  constants : List Constant

namespace Cursor

variable (c : Cursor)

def instrs : List Instr :=
  c.passed.reverse ++ c.ahead

/-- Passes the given instructions, which take the place of as many ahead. -/
def pass (done : List Instr) (ahead : List Instr) : Cursor :=
  { c with passed := done.reverse ++ c.passed, ahead := ahead }

end Cursor

/-- What is at a jump's end: its first instruction and the block after it. -/
structure Landing where
  first : Instr
  next : Option BlockId

/-- The jump sent on to where the landing goes, unless a line is lost or nothing changes. -/
def threadJump (i : Instr) (dest : Instr) (op : Operation) : Option Instr :=
  if (i.line = dest.line ∨ dest.line < 0) ∧ i.target ≠ dest.target then
    some { i with target := dest.target, op := op }
  else none

/-- A jump on the top of the stack that keeps it, sent on by what its landing tests: the same
condition holds there again, and the opposite one fails. -/
def threadOrPop (outcome : Bool) (i : Instr) (land : Landing) : Option Instr :=
  let dest := land.first
  if dest.op = popJumpIf outcome then threadJump i dest (popJumpIf outcome)
  else if dest.op = .pseudo .jump ∨ dest.op = jumpIfOrPop outcome then
    threadJump i dest (jumpIfOrPop outcome)
  else if dest.op = jumpIfOrPop !outcome ∨ dest.op = popJumpIf !outcome then
    match land.next with
    | some next =>
      if i.line = dest.line then some { i with op := popJumpIf outcome, target := some next }
      else none
    | none => none
  else none

def threaded? (i : Instr) (land : Landing) : Option Instr :=
  match jumpOrPopOutcome? i.op, i.op with
  | some outcome, _ => threadOrPop outcome i land
  | none, .pseudo .popJumpIfNone | none, .pseudo .popJumpIfNotNone
  | none, .pseudo .popJumpIfFalse | none, .pseudo .popJumpIfTrue | none, .pseudo .jump =>
    if land.first.op = .pseudo .jump then threadJump i land.first i.op else none
  | none, _ => none

namespace Cursor

variable (c : Cursor)

/-- Simplifies what follows a constant, where `i` pushes the constant at `index`. -/
def afterConstant (index : Nat) (i : Instr) (ahead : List Instr) : Result Cursor := do
  match ahead with
  | [] => return c.pass [i] []
  | j :: rest =>
    match popJumpOutcome? j.op, jumpOrPopOutcome? j.op, j.op with
    | some outcome, _, _ =>
      let value ← constantAt c.constants index
      let j := if value.isTruthy = outcome then { j with op := .pseudo .jump } else j.toNop
      return c.pass [i.toNop] (j :: rest)
    | _, some outcome, _ =>
      let value ← constantAt c.constants index
      if value.isTruthy = outcome then return c.pass [i] ({ j with op := .pseudo .jump } :: rest)
      else return c.pass [i.toNop] (j.toNop :: rest)
    | _, _, .real .isOp =>
      let value ← constantAt c.constants index
      match rest with
      | k :: rest =>
        match popJumpOutcome? k.op with
        | some outcome =>
          if value = .none then
            let op := noneJumpIf (outcome == (j.arg == 0))
            return c.pass [i.toNop] (j.toNop :: { k with op := op } :: rest)
          else return c.pass [i] ahead
        | none => return c.pass [i] ahead
      | [] => return c.pass [i] ahead
    | _, _, .real .returnValue => return c.pass [i.toNop, j.become .returnConst index] rest
    | _, _, _ => return c.pass [i] ahead

/-- Replaces the pushes of `n` constants and the building of a tuple from them by one push. -/
def foldTuple (n : Nat) (i : Instr) (ahead : List Instr) : Result Cursor := do
  let items := c.passed.take n
  if n ≤ c.passed.length ∧ items.all (·.op = .real .loadConst) then
    let values ← items.reverse.mapM fun load => constantAt c.constants load.arg
    let (index, constants) ← indexOfConstant c.constants (.tuple values)
    return {
      passed := i.become .loadConst index :: items.map Instr.toNop ++ c.passed.drop n
      ahead := ahead
      constants := constants }
  else return c.pass [i] ahead

/-- Simplifies the building of a tuple: one that is unpacked at once is a shuffle. -/
def atTuple (i : Instr) (ahead : List Instr) : Result Cursor :=
  match ahead with
  | j :: rest =>
    if j.op = .real .unpackSequence ∧ j.arg = i.arg ∧ i.arg = 1 then
      .ok (c.pass [i.toNop] (j.toNop :: rest))
    else if j.op = .real .unpackSequence ∧ j.arg = i.arg ∧ (i.arg = 2 ∨ i.arg = 3) then
      .ok (c.pass [i.toNop] ({ j with op := .real .swap } :: rest))
    else c.foldTuple i.arg i ahead
  | [] => c.foldTuple i.arg i ahead

/-- Simplifies a run of exchanges, and then the exchanges before what consumes them. -/
def atSwap (i : Instr) (ahead : List Instr) : Cursor :=
  if i.arg = 1 then c.pass [i.toNop] ahead
  else
    let (done, ahead) := fuseSwaps (i :: ahead)
    let passed := done.reverse ++ c.passed
    let instrs := exchangeBack (ahead.take 1 ++ passed) (ahead.drop 1)
    let n := passed.length + 1
    { c with passed := (instrs.take n).reverse, ahead := instrs.drop n }

/-- Lets the load of a global push the mark of a call as well. -/
def atPushNull (i : Instr) (ahead : List Instr) : Cursor :=
  match ahead with
  | j :: rest =>
    if j.op = .real .loadGlobal ∧ j.arg % 2 = 0 then
      c.pass [i.toNop] ({ j with arg := j.arg + 1 } :: rest)
    else c.pass [i] ahead
  | [] => c.pass [i] []

def visit (i : Instr) (ahead : List Instr) : Result Cursor :=
  match i.op with
  | .real .loadConst => c.afterConstant i.arg i ahead
  | .real .buildTuple => c.atTuple i ahead
  | .real .swap => .ok (c.atSwap i ahead)
  | .real .pushNull => .ok (c.atPushNull i ahead)
  | _ => .ok (c.pass [i] ahead)

end Cursor

namespace Graph

variable (g : Graph)

/-- What a jump of block `id` lands on, while the block is being simplified. -/
def landing (id : BlockId) (c : Cursor) (i : Instr) : Option Landing := do
  let target ← if i.op.hasTarget then i.target else none
  let first ← if target = id then c.instrs.head? else (g.block target).instrs.head?
  some ⟨first, (g.block target).next⟩

/-- Simplifies the rest of a block. The constant that the instruction before pushed is `pushed`: a
copy of it counts as the constant. A jump can be sent on `threads` more times; every step either
takes one of these or passes an instruction, which bounds `fuel`. -/
def simplifyFrom (id : BlockId) : (fuel threads : Nat) → (pushed : Option Nat) → Cursor →
    Result Cursor
  | 0, _, _, c => .ok c
  | fuel + 1, threads, pushed, c => do
    match c.ahead with
    | [] => .ok c
    | i :: ahead =>
      match pushed, i.op = .real .copy && i.arg = 1 with
      | some index, true =>
        simplifyFrom id fuel threads pushed (← c.afterConstant index i ahead)
      | _, _ =>
        let pushed := if i.op = .real .loadConst then some i.arg else none
        match (g.landing id c i).bind (threaded? i) with
        | some j =>
          if threads = 0 then simplifyFrom id fuel 0 pushed (c.pass [j] ahead)
          else simplifyFrom id fuel (threads - 1) pushed { c with ahead := j :: ahead }
        | none => simplifyFrom id fuel threads pushed (← c.visit i ahead)

def simplifyBlock (constants : List Constant) (id : BlockId) : Result (Graph × List Constant) := do
  let instrs := (g.block id).instrs
  let threads := 2 * g.blocks.size + 8
  let c ← g.simplifyFrom id (instrs.length + threads + 1) threads none ⟨[], instrs, constants⟩
  return (g.setInstrs id c.instrs, c.constants)

def simplifyBlocks (constants : List Constant) : Result (Graph × List Constant) :=
  g.order.foldlM (fun (h, constants) id => h.simplifyBlock constants id) (g, constants)

end Graph

end Bytecode
