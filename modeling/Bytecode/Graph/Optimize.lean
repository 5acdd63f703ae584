import Bytecode.Graph.Cold
import Bytecode.Graph.Constants
import Bytecode.Graph.Handlers
import Bytecode.Graph.Inline
import Bytecode.Graph.Lines
import Bytecode.Graph.Peephole
import Bytecode.Graph.Unbound

/-!
# The optimizer

The passes on one scope between the construction of its graph and its assembly.
-/

namespace Bytecode

structure UnitShape where
  localCount : Nat := 0
  paramCount : Nat := 0
  firstLine : Int := 1
deriving DecidableEq, Repr

namespace Graph

def optimizeOnce (config : PassConfig) (g : Graph) (constants : List Constant) :
    Result (Graph × List Constant) := do
  g.check
  let g ← g.dropEmpty
  let (g, constants) ← (g.copyExits config).simplifyBlocks constants
  let g ← (g.dropNopsAndPairs.copyExits config).dropUnreachable
  let g ← tidy (g.instrCount + 1) g
  return (g.mergeFallthrough, constants)

def optimizeRounds (config : PassConfig) : (rounds : Nat) → Graph → List Constant →
    Result (Graph × List Constant)
  | 0, g, constants => .ok (g, constants)
  | rounds + 1, g, constants => do
    let (h, constants) ← g.optimizeOnce config constants
    if h.body = g.body then return (h, constants) else optimizeRounds config rounds h constants

def maxRounds : Nat := 8

def optimize (config : PassConfig) (g : Graph) (constants : List Constant) :
    Result (Graph × List Constant) :=
  optimizeRounds config maxRounds g constants

/-- What has to be done to every graph: no block is left empty or out of reach. -/
def prune (g : Graph) (constants : List Constant) : Result (Graph × List Constant) := do
  let g ← g.dropEmpty
  let g ← g.dropUnreachable
  return (g, constants)

/-- All passes on a scope. Afterwards labels are resolved, no block is empty or unreachable, every
instruction knows its handler, cold blocks stand at the end, and only constants that are used are
left. -/
def optimizeUnit (config : PassConfig) (shape : UnitShape) (g : Graph)
    (constants : List Constant) : Result (Graph × List Constant) := do
  let g ← g.resolveLabels
  let g ← g.markHandlers.labelHandlers
  let (g, constants) ←
    if config.optimize then g.optimize config constants else g.prune constants
  let g := (g.checkUnboundLoads shape.localCount shape.paramCount).moveColdToEnd
  let (g, constants) ←
    if config.optimize then g.optimize config constants else pure (g, constants)
  let (g, constants) ← g.dropUnusedConstants constants
  return (g.resolveLines shape.firstLine, constants)

end Graph

end Bytecode
