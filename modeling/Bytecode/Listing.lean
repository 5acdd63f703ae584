import Bytecode.Assembly
import Bytecode.Graph.Optimize

/-!
# Listings

A listing is a program in a flat form: labels and instructions in order, where the operand of a
jump is the number of a label, and the tables that operands refer to. Listings are made into graphs
and read off from them, so that a graph can be optimized or assembled without a syntax tree.
-/

namespace Bytecode

inductive ListingItem where
  /-- Names the place of the next instruction. -/
  | label (number : Nat)
  | instr (op : Operation) (arg : Nat) (loc : Location)
deriving DecidableEq, Repr

structure Listing where
  items : List ListingItem := []
  constants : List Constant := []
  names : List String := []
  locals : List String := []
deriving DecidableEq, Repr

namespace Graph

/-- A graph in construction, with the labels of the numbers met so far. -/
structure Numbered where
  graph : Graph := {}
  labels : List (Nat × Label) := []

namespace Numbered

def label (b : Numbered) (number : Nat) : Numbered × Label :=
  match b.labels.lookup number with
  | some label => (b, label)
  | none =>
    let (g, label) := b.graph.addLabel
    (⟨g, (number, label) :: b.labels⟩, label)

def add (b : Numbered) : ListingItem → Result Numbered
  | .label number => do
    let (b, label) := b.label number
    return { b with graph := ← b.graph.bindLabel label }
  | .instr op arg loc => do
    if op.hasTarget then
      let (b, label) := b.label arg
      return { b with graph := ← b.graph.addJump op label loc }
    else return { b with graph := ← b.graph.addOp op arg loc }

end Numbered

def ofItems (items : List ListingItem) : Result Graph := do
  let b ← items.foldlM Numbered.add {}
  b.graph.resolveLabels

/-- The blocks that need a label: those that are referred to, and those that the block before runs
into without a jump at its end. Blocks without instructions do not separate. -/
def labelled (g : Graph) (referenced : Array Bool) (terminated : Bool) :
    List BlockId → List BlockId
  | [] => []
  | id :: rest =>
    let b := g.block id
    let more := labelled g referenced (if b.isEmpty then terminated else b.isTerminated) rest
    if referenced.getD id false || !terminated then id :: more else more

/-- The listing of a graph. Labels are numbered in the order of the layout. -/
def toItems (g : Graph) : List ListingItem :=
  let numbers := (g.labelled g.referenced true g.order).zipIdx
  g.order.flatMap fun id =>
    (numbers.lookup id).toList.map .label ++ (g.block id).instrs.map fun i =>
      .instr i.op ((i.target.bind fun t => numbers.lookup t).getD i.arg) i.loc

end Graph

/-- The first line that an instruction names, and one if none does. -/
def firstLineOf (items : List ListingItem) : Int :=
  (items.findSome? fun
    | .instr _ _ loc => if 0 < loc.line then some loc.line else none
    | .label _ => none).getD 1

namespace Listing

def title : String := "<listing>"

def optimize (config : PassConfig) (localCount : Nat) (l : Listing) : Result Listing := do
  let g ← Graph.ofItems l.items
  let shape := { localCount := localCount, firstLine := firstLineOf l.items : UnitShape }
  let (g, constants) ← g.optimizeUnit config shape l.constants
  return { l with items := g.toItems, constants := constants }

def assemble (config : PassConfig) (l : Listing) : Result CodeObject := do
  let g ← Graph.ofItems l.items
  let shape := { localCount := l.locals.length, firstLine := firstLineOf l.items : UnitShape }
  let (g, constants) ← g.optimizeUnit config shape l.constants
  Bytecode.assemble g constants
    { name := title
      qualifiedName := title
      file := title
      firstLine := firstLineOf l.items
      names := l.names
      locals := l.locals }

end Listing

end Bytecode
