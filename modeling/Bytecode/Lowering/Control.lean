import Bytecode.Lowering.Pattern

/-!
# Branches and loops
-/

namespace Bytecode

open Gen

def lowerBranch (test : ExprCode) (body : StmtCode) (orElse : Option StmtCode) : StmtCode :=
  fun blocks => do
    let done ← newLabel
    match orElse with
    | none =>
      test.jumpIf done false
      body blocks
    | some orElse =>
      let next ← newLabel
      test.jumpIf next false
      body blocks
      emitJump PseudoOp.jump done .none
      bindLabel next
      orElse blocks
    bindLabel done

def lowerWhile (test : ExprCode) (body orElse : StmtCode) : StmtCode := fun blocks => do
  let head ← newLabel
  let after ← newLabel
  let exit ← newLabel
  bindLabel head
  let inner ← blocks.enter (.whileLoop head exit)
  test.jumpIf after false
  body inner
  emitJump PseudoOp.jump head .none
  bindLabel after
  orElse blocks
  bindLabel exit

def lowerFor (loc : Location) (target iter : ExprCode) (body orElse : StmtCode) : StmtCode :=
  fun blocks => do
    let head ← newLabel
    let after ← newLabel
    let exit ← newLabel
    let inner ← blocks.enter (.forLoop head exit)
    iter.load
    emit .getIter 0 loc
    bindLabel head
    emitJump Opcode.forIter after loc
    target.store
    body inner
    emitJump PseudoOp.jump head .none
    bindLabel after
    orElse blocks
    bindLabel exit

def lowerAsyncFor (loc : Location) (target iter : ExprCode) (body orElse : StmtCode) : StmtCode :=
  fun blocks => do
    if (← kind) ≠ .asyncFunction then refuse .asyncForOutside loc
    let head ← newLabel
    let atEnd ← newLabel
    let exit ← newLabel
    iter.load
    emit .getAiter 0 loc
    bindLabel head
    let inner ← blocks.enter (.forLoop head exit)
    awaitNext atEnd loc
    target.store
    body inner
    emitJump PseudoOp.jump head .none
    bindLabel atEnd
    emit .endAsyncFor 0 iter.loc
    orElse blocks
    bindLabel exit

/-! ### Matching -/

abbrev CaseCode := Case PatternCode ExprCode StmtCode

def testCase (done : Label) (c : CaseCode) (isLast irrefutable : Bool) : StmtCode :=
  fun blocks => do
    let loc := c.pattern.loc
    let p ← c.pattern.test (c.guard.isSome || irrefutable) {}
    p.stores.forM (storeName · loc)
    let p ← match c.guard with
      | none => pure p
      | some guard => do
        let (p, failed) ← p.failure 0
        guard.jumpIf failed false
        pure p
    if !isLast then emit .popTop 0 loc
    c.body blocks
    emitJump PseudoOp.jump done .none
    p.emitFailures loc

/-- A case. The subject is on the stack; a case that is not the last one works on a copy. -/
def lowerCase (done : Label) (c : CaseCode) (isLast irrefutable : Bool) : StmtCode :=
  fun blocks => do
    if !isLast then emit .copy 1 c.pattern.loc
    testCase done c isLast irrefutable blocks

/-- The cases that are tested. The last of all cases may match everything. -/
def lowerCases (done : Label) (lastMatchesAll : Bool) : List CaseCode → StmtCode
  | [], _ => pure ()
  | c :: rest, blocks => do
    lowerCase done c rest.isEmpty (rest.isEmpty && lastMatchesAll) blocks
    lowerCases done lastMatchesAll rest blocks

def lowerDefault (done : Label) (c : CaseCode) : StmtCode := fun blocks => do
  emit .nop 0 c.pattern.loc
  c.guard.forM (·.jumpIf done false)
  c.body blocks

/-- A choice by patterns. A wildcard after other cases is the default. -/
def lowerMatch (subject : ExprCode) (cases : List CaseCode) : StmtCode := fun blocks => do
  subject.load
  match cases.getLast? with
  | none => fault .noMatchCases
  | some last =>
    let done ← newLabel
    if last.pattern.source.isWildcard && 1 < cases.length then
      lowerCases done false cases.dropLast blocks
      lowerDefault done last blocks
    else lowerCases done true cases blocks
    bindLabel done

end Bytecode
