import Bytecode.Operation

/-!
# Inconsistencies

A fault is a graph, a table or a tree that breaks a rule which the compiler relies on. Blocks are
named by their number.
-/

namespace Bytecode

inductive TargetUse where
  | store
  | delete
deriving DecidableEq, Repr

def TargetUse.name : TargetUse → String
  | .store => "Store"
  | .delete => "Delete"

inductive Fault where
  -- instructions
  | operandOutOfRange (arg : Nat)
  | sliceOperands (arg : Nat)
  | raiseOperands (arg : Nat)
  | oddCodeSize
  | unknownOpcode (byte : UInt8) (unit : Nat)
  -- graphs
  | unknownLabel (label : Nat)
  | unboundLabel (label : Nat)
  | needsTarget (op : Operation)
  | notJump (op : Operation)
  | misplacedTerminator (op : Operation) (block : Nat)
  | unresolvedTarget (op : Operation)
  | runsOffEnd (block : Nat)
  | constantOutOfRange (index count : Nat)
  | missingConstant (op : Operation) (index : Nat)
  -- handlers and stack depths
  | missingHandler (op : Operation)
  | noActiveHandler
  | missingTarget (op : Operation)
  | unknownBlock (block : Nat)
  | underflowEntering (block : Nat)
  | depthConflict (block : Nat) (known depth : Int)
  | underflowAt (op : Operation) (block : Nat)
  -- assembly
  | cannotJumpBackward (op : Operation)
  | noSuchCell (op : Operation) (index : Nat)
  | undirectedJump (op : Operation)
  | wrongDirection (op : Operation)
  | pseudoInCode (op : Operation)
  | handlerUnreached (block : Nat)
  | handlerBelowFrame (block : Nat)
  | handlerOutsideLayout (block : Nat)
  | unsettledLayout
  -- tables
  | backwardLocation (endLine line : Int)
  | truncatedLocations
  | locationMarker (pos : Nat)
  | emptyRange (start stop : Nat)
  | truncatedHandlers
  | handlerMarker (pos : Nat)
  -- trees
  | noScope
  | noGenerators
  | notClosureVariable (name unit : String)
  | augmentedTarget
  | annotatedTarget
  | noWithItems
  | noAsyncWithItems
  | noMatchCases
  | badTarget (use : TargetUse)
  | noOperands
  | malformedComparison
  | mismatchedKeys
deriving DecidableEq, Repr

namespace Fault

def message : Fault → String
  | operandOutOfRange arg => s!"operand {arg} out of range"
  | sliceOperands arg => s!"BUILD_SLICE with {arg} operands"
  | raiseOperands arg => s!"RAISE_VARARGS with {arg} operands"
  | oddCodeSize => "code has an odd number of bytes"
  | unknownOpcode byte unit => s!"unknown opcode {byte} at unit {unit}"
  | unknownLabel label => s!"unknown label {label}"
  | unboundLabel label => s!"jump to unbound label {label}"
  | needsTarget op => s!"{op.name} needs a jump target"
  | notJump op => s!"{op.name} is not a jump"
  | misplacedTerminator op block => s!"{op.name} is not the last instruction of block {block}"
  | unresolvedTarget op => s!"{op.name} without a resolved target"
  | runsOffEnd block => s!"reference to block {block} runs off the end"
  | constantOutOfRange index count => s!"constant index {index} out of range ({count} constants)"
  | missingConstant op index => s!"{op.name} refers to missing constant {index}"
  | missingHandler op => s!"{op.name} without a handler block"
  | noActiveHandler => "POP_BLOCK with no active handler"
  | missingTarget op => s!"{op.name} without a target"
  | unknownBlock block => s!"unknown block {block}"
  | underflowEntering block => s!"stack underflow entering block {block}"
  | depthConflict block known depth =>
    s!"inconsistent stack depth at block {block}: {known} vs {depth}"
  | underflowAt op block => s!"stack underflow at {op.name} in block {block}"
  | cannotJumpBackward op => s!"{op.name} cannot jump backward"
  | noSuchCell op index => s!"{op.name} operand {index} names no cell or free variable"
  | undirectedJump op => s!"{op.name} survived jump normalization"
  | wrongDirection op => s!"{op.name} points the wrong way"
  | pseudoInCode op => s!"{op.name} reached the emitter"
  | handlerUnreached block => s!"handler block {block} was never reached"
  | handlerBelowFrame block => s!"handler block {block} entered below its frame"
  | handlerOutsideLayout block => s!"handler block {block} is not part of the layout"
  | unsettledLayout => "jump offsets do not settle"
  | backwardLocation endLine line =>
    s!"location ends on line {endLine} before it starts on line {line}"
  | truncatedLocations => "truncated location table"
  | locationMarker pos => s!"location entry at byte {pos} lacks its start marker"
  | emptyRange start stop => s!"empty exception range {start}..{stop}"
  | truncatedHandlers => "truncated exception table"
  | handlerMarker pos => s!"exception entry at byte {pos} lacks its start marker"
  | noScope => "no symbol table entry for scope node"
  | noGenerators => "comprehension without generators"
  | notClosureVariable name unit => s!"'{name}' is neither a cell nor a free variable of {unit}"
  | augmentedTarget => "invalid target for augmented assignment"
  | annotatedTarget => "invalid target for annotated assignment"
  | noWithItems => "'with' without items"
  | noAsyncWithItems => "'async with' without items"
  | noMatchCases => "match statement without cases"
  | badTarget use => s!"expression cannot be used as a {use.name} target"
  | noOperands => "boolean operation without operands"
  | malformedComparison => "malformed comparison"
  | mismatchedKeys => "dict display with mismatched keys"

end Fault

end Bytecode
