import Bytecode.Assembly.Directions
import Bytecode.Assembly.Frame
import Bytecode.Assembly.Offsets
import Bytecode.Graph.Peephole
import Bytecode.Table.Handlers
import Bytecode.Table.Locations

/-!
# Assembly

An optimized graph becomes a code object: the frame is set up, jumps get their directions, the
stack depth is found, pseudo operations go, jumps get their distances, and the instructions and the
two tables are written.
-/

namespace Bytecode

namespace Layout

def encodeInstr (i : Instr) : Result (List UInt8) :=
  match i.op with
  | .pseudo op => .fault (.pseudoInCode op)
  | .real op =>
    if i.arg < 0x100000000 then .ok (CodeInstr.mk op i.arg).bytes else .exceed .operand

def encode (l : Layout) : Result (List UInt8) := do
  return (← l.instrs.mapM encodeInstr).flatten

/-- The locations with the number of units they cover, neighbours with one location together. -/
def locationRuns : List Instr → List (Location × Nat)
  | [] => []
  | i :: rest =>
    match locationRuns rest with
    | (loc, units) :: runs =>
      if i.loc = loc then (loc, unitCount i.arg + units) :: runs
      else (i.loc, unitCount i.arg) :: (loc, units) :: runs
    | [] => [(i.loc, unitCount i.arg)]

end Layout

structure HandlerSites where
  graph : Graph
  offsets : List (BlockId × Nat)
  depths : Array (Option Int)

namespace HandlerSites

variable (s : HandlerSites)

def range (handler : BlockId) (start stop : Nat) : Result HandlerRange := do
  let entryDepth ← Result.require (.handlerUnreached handler) (s.depths[handler]?).join
  let keeps := (s.graph.block handler).keepsPosition
  let depth := entryDepth - 1 - if keeps then 1 else 0
  if depth < 0 then .fault (.handlerBelowFrame handler)
  else return ⟨start, stop, Layout.offsetOf s.offsets handler, depth.toNat, keeps⟩

def close (opened : Option (BlockId × Nat)) (stop : Nat) : Result (List HandlerRange) :=
  match opened with
  | some (handler, start) => return [← s.range handler start stop]
  | none => return []

/-- The ranges of instructions that share a handler, from a given offset on. -/
def rangesFrom (opened : Option (BlockId × Nat)) (offset : Nat) :
    List Instr → Result (List HandlerRange)
  | [] => s.close opened offset
  | i :: rest => do
    let after := offset + unitCount i.arg
    if opened.map (·.1) = i.handler then rangesFrom opened after rest
    else
      let closed ← s.close opened offset
      let opened ← match i.handler with
        | some handler =>
          if (s.offsets.lookup handler).isSome then .ok (some (handler, offset))
          else .fault (.handlerOutsideLayout handler)
        | none => .ok none
      return closed ++ (← rangesFrom opened after rest)

end HandlerSites

structure Arrangement where
  graph : Graph
  layout : Layout
  stack : DepthSearch

def arrange (g : Graph) (f : Frame) : Result Arrangement := do
  let g := g.modify g.entry fun b => { b with instrs := f.setup ++ b.instrs }
  let g ← g.directJumps
  let stack ← g.stackDepths f.flags
  let g ← g.mapInstrsM (relocateCell f.cellSlots.toArray)
  let g ← g.lowerPseudos
  let layout ← Layout.resolve (g.order.map fun id => (id, (g.block id).instrs))
  return ⟨g, layout, stack⟩

def Arrangement.toCode (a : Arrangement) (constants : List Constant) (f : Frame) :
    Result CodeObject := do
  let code ← a.layout.encode
  let locationTable ← LocationTable.write f.firstLine (Layout.locationRuns a.layout.instrs)
  let sites : HandlerSites := ⟨a.graph, a.layout.offsetsFrom 0, a.stack.depths⟩
  let ranges ← sites.rangesFrom none 0 a.layout.instrs
  let handlerTable ← HandlerTable.write ranges
  return {
    positionalCount := f.positionalCount
    positionalOnlyCount := f.positionalOnlyCount
    keywordOnlyCount := f.keywordOnlyCount
    flags := f.flags
    stackSize := a.stack.deepest.toNat
    code := code
    constants := constants
    names := f.names
    slotNames := f.slotNames
    slotKinds := f.slotKinds
    file := f.file
    name := f.name
    qualifiedName := f.qualifiedName
    firstLine := f.firstLine
    locationTable := locationTable
    handlerTable := handlerTable }

def assemble (g : Graph) (constants : List Constant) (f : Frame) : Result CodeObject := do
  if maxConstants < constants.length then .exceed .constants
  else if maxConstants < f.names.length then .exceed .names
  else (← arrange g f).toCode constants f

end Bytecode
