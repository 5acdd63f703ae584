import Bytecode.Lowering.Suspend
import Bytecode.Tree.Shape

/-!
# Code of expressions

An expression can be used in several ways: for its value, as a target, or as a condition. Its code
has a generator for each of them, made from the code of its parts.
-/

namespace Bytecode

open Gen

structure UpdateCode where
  /-- Loads the old value, above what the store needs. -/
  read : Gen Unit
  write : Gen Unit

structure StarredCode where
  load : Gen Unit
  store : Gen Unit

structure ExprCode where
  source : Expr ScopeId
  load : Gen Unit
  store : Gen Unit := fault (.badTarget .store)
  delete : Gen Unit := fault (.badTarget .delete)
  jumpIf : Label → Bool → Gen Unit
  /-- Of an expression with a star, the code of what the star stands before. -/
  starred : Option StarredCode := none
  /-- Of an attribute, loads the object and its method. -/
  loadMethod : Option (Gen Unit) := none
  /-- Of a slice without a step, loads the two bounds. -/
  loadBounds : Option (Gen Unit) := none
  /-- Of a list or tuple with one item that has no star, loads the item. -/
  loadOnly : Option (Gen Unit) := none
  update : Option UpdateCode := none
  /-- As an index of an annotated target, evaluates what it is made of. -/
  probeIndex : Gen Unit
  /-- As an annotated target without a value, evaluates what it is made of. -/
  probeTarget : Option (Gen Unit) := none

namespace ExprCode

def dropping (load : Gen Unit) (loc : Location) : Gen Unit := do
  load
  emit .popTop 0 loc

def ofLoad (source : Expr ScopeId) (load : Gen Unit) : ExprCode where
  source := source
  load := load
  jumpIf target cond := do
    load
    emitJump (popJumpIf cond) target source.loc
  probeIndex := dropping load source.loc

variable (c : ExprCode)

def loc : Location :=
  c.source.loc

def isStarred : Bool :=
  c.starred.isSome

def loadUnderStar : Gen Unit :=
  match c.starred with
  | some s => s.load
  | none => c.load

def storeUnderStar : Gen Unit :=
  match c.starred with
  | some s => s.store
  | none => c.store

def constant? : Option Constant :=
  c.source.constant?

def probe : Gen Unit :=
  dropping c.load c.loc

end ExprCode

def loadOptional (c : Option ExprCode) (loc : Location) : Gen Unit :=
  match c with
  | some c => c.load
  | none => emitNone loc

def loadAll (cs : List ExprCode) : Gen Unit :=
  cs.forM (·.load)

end Bytecode
