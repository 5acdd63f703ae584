import Bytecode.Code

/-!
# Options of a compilation
-/

namespace Bytecode

inductive OptimizeLevel where
  /-- Only what a correct code object needs. -/
  | off
  /-- The optimizer runs on every graph. -/
  | basic
  /-- Assertions and documentation strings go as well. -/
  | full
deriving DecidableEq, Repr

namespace OptimizeLevel

def ofNat? : Nat → Option OptimizeLevel
  | 0 => some off
  | 1 => some basic
  | 2 => some full
  | _ => none

def toNat : OptimizeLevel → Nat
  | off => 0
  | basic => 1
  | full => 2

def optimizesGraph (level : OptimizeLevel) : Bool :=
  1 ≤ level.toNat

def stripsAsserts (level : OptimizeLevel) : Bool :=
  2 ≤ level.toNat

end OptimizeLevel

structure Features where
  /-- Annotations are neither evaluated nor stored. -/
  annotations : Bool := false
  /-- An end of iteration that leaves a generator is an error. -/
  generatorStop : Bool := false
deriving DecidableEq, Repr

namespace Features

def toBits (f : Features) : Nat :=
  bitAt 0 f.annotations + bitAt 1 f.generatorStop

def ofBits (n : Nat) : Features where
  annotations := n.testBit 0
  generatorStop := n.testBit 1

def codeFlags (f : Features) : CodeFlags :=
  { generatorStop := f.generatorStop, annotations := f.annotations }

end Features

structure PassConfig where
  optimize : Bool := true
  /-- The longest exit block that is copied into its predecessors. -/
  maxInlineSize : Nat := 4
  /-- The number of sweeps that copy exit blocks. -/
  maxInlinePasses : Nat := 2
deriving DecidableEq, Repr

structure CompileOptions where
  optimize : OptimizeLevel := .basic
  features : Features := {}
  warningsAsErrors : Bool := false
  file : String := "<unknown>"
  maxInlineSize : Nat := 4
  maxInlinePasses : Nat := 2
deriving DecidableEq, Repr

def CompileOptions.passConfig (o : CompileOptions) : PassConfig where
  optimize := o.optimize.optimizesGraph
  maxInlineSize := o.maxInlineSize
  maxInlinePasses := o.maxInlinePasses

end Bytecode
