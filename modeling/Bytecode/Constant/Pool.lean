import Bytecode.Constant

/-!
# Pools of distinct constants

A pool holds every constant once. To intern a tuple is to intern its items first and then the
tuple itself.
-/

namespace Bytecode

/-- Distinct constants in the order in which they were first seen. -/
structure Pool where
  constants : List Constant := []
deriving Repr

namespace Pool

def size (pool : Pool) : Nat :=
  pool.constants.length

def add (pool : Pool) (c : Constant) : Pool :=
  if c ∈ pool.constants then pool else ⟨pool.constants ++ [c]⟩

mutual

/-- Adds a constant after everything it is made of. -/
def intern (pool : Pool) : Constant → Pool
  | .tuple items => (internAll pool items).add (.tuple items)
  | c => pool.add c

def internAll (pool : Pool) : List Constant → Pool
  | [] => pool
  | c :: cs => internAll (intern pool c) cs

end

end Pool

end Bytecode
