import Bytecode.Lowering.Closure
import Bytecode.Lowering.Open

/-!
# Comprehensions

A comprehension is a function of one argument, the outermost iterator, which is called at once.
-/

namespace Bytecode

open Gen

namespace Element

def begin? {ε : Type} : Element ε → Option Opcode
  | list _ => some .buildList
  | set _ => some .buildSet
  | dict _ _ => some .buildMap
  | generator _ => none

/-- Adds an element to the result, which is below `depth` iterators on the stack, or yields it. The
result is the place of the element. -/
def add (depth : Nat) : Element ExprCode → Gen Location
  | list item => do
    item.load
    emit .listAppend (depth + 1) item.loc
    return item.loc
  | set item => do
    item.load
    emit .setAdd (depth + 1) item.loc
    return item.loc
  | dict key value => do
    key.load
    value.load
    let loc : Location := ⟨key.loc.line, key.loc.col, value.loc.endLine, value.loc.endCol⟩
    emit .mapAdd (depth + 1) loc
    return loc
  | generator item => do
    item.load
    emitYield item.loc
    emit .popTop 0 item.loc
    return item.loc

end Element

def loadArgument (loc : Location) : Gen Unit :=
  emit .loadFast 0 loc

def loadIterator (isOuter : Bool) (g : Generator ExprCode) (loc : Location) : Gen Unit := do
  if isOuter then loadArgument loc
  else
    g.iter.load
    emit (if g.isAsync then .getAiter else .getIter) 0 loc

/-- What an inner clause that ranges over one item binds without a loop. -/
def loadSingle? (isOuter : Bool) (g : Generator ExprCode) : Option (Gen Unit) :=
  if isOuter || g.isAsync then none else g.iter.loadOnly

/-- The clauses of a comprehension from the outside inwards, below which there are `depth` iterators
and `awaiting` asynchronous clauses. The result is the place from which a clause around them goes
on to its next item. -/
def lowerClauses (element : Element ExprCode) (loc : Location) :
    (isOuter : Bool) → (depth awaiting : Nat) → List (Generator ExprCode) → Gen Location
  | _, depth, _, [] => element.add depth
  | isOuter, depth, awaiting, g :: rest => do
    let start ← newLabel
    let second ← newLabel
    let third ← newLabel
    if g.isAsync then
      let (atEnd, skip) := (second, third)
      loadIterator isOuter g loc
      bindLabel start
      if maxOpenBlocks ≤ awaiting then exceed .nestedBlocks
      awaitNext atEnd loc
      g.target.store
      g.conditions.forM (·.jumpIf skip false)
      let next ← lowerClauses element loc false (depth + 1) (awaiting + 1) rest
      bindLabel skip
      emitJump PseudoOp.jump start next
      bindLabel atEnd
      emit .endAsyncFor 0 loc
    else
      let (skip, atEnd) := (second, third)
      match loadSingle? isOuter g with
      | some loadItem =>
        loadItem
        g.target.store
        g.conditions.forM (·.jumpIf skip false)
        let _ ← lowerClauses element loc false depth awaiting rest
        bindLabel skip
      | none =>
        loadIterator isOuter g loc
        bindLabel start
        emitJump Opcode.forIter atEnd loc
        g.target.store
        g.conditions.forM (·.jumpIf skip false)
        let next ← lowerClauses element loc false (depth + 1) awaiting rest
        bindLabel skip
        emitJump PseudoOp.jump start next
        bindLabel atEnd
    return element.first.loc

def comprehensionBody (loc : Location) (element : Element ExprCode)
    (generators : List (Generator ExprCode)) : Gen Unit := do
  element.begin?.forM (emit · 0 loc)
  let _ ← lowerClauses element loc true 0 0 generators
  if element.begin?.isSome then emit .returnValue 0 loc

def loadComprehension (loc : Location) (scope : ScopeId) (element : Element ExprCode) :
    List (Generator ExprCode) → Gen Unit
  | [] => fault .noGenerators
  | outer :: inner => do
    let u ← childUnit scope .comprehension element.scopeName loc.line
    let awaited : Bool := u.scope.isCoroutine && !element.isGenerator
    if awaited && !(← kind).canAwait then refuse .asyncComprehensionOutside loc
    let code ← inUnit { u with positionalCount := 1 }
      (comprehensionBody loc element (outer :: inner))
    makeFunction code {} loc
    outer.iter.load
    emit (if outer.isAsync then .getAiter else .getIter) 0 loc
    emit .call 0 loc
    if awaited then awaitValue 0 loc

end Bytecode
