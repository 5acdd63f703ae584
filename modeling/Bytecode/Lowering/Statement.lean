import Bytecode.Lowering.Control
import Bytecode.Lowering.Definition
import Bytecode.Lowering.Import
import Bytecode.Lowering.Protect

/-!
# Statements

The code of a statement, from the code of its parts.
-/

namespace Bytecode

open Gen

/-! ### Assignments -/

def storeAll (loc : Location) : List ExprCode → Gen Unit
  | [] => pure ()
  | [target] => target.store
  | target :: rest => do
    emit .copy 1 loc
    target.store
    storeAll loc rest

def lowerAugment (loc : Location) (target : ExprCode) (op : BinaryOp) (value : ExprCode) :
    Gen Unit :=
  match target.update with
  | none => fault .augmentedTarget
  | some update => do
    update.read
    value.load
    emit .binaryOp op.updateCode loc
    update.write

def storeHint (loc : Location) (name : String) (hint : ExprCode) : Gen Unit := do
  hint.load
  emitName .loadName "__annotations__" loc
  emitConst (.str (← mangled name)) loc
  emit .storeSubscr 0 loc

/-- Annotates a target, with a value or without. Outside of functions annotations are evaluated, and
those of bare names are stored. -/
def lowerAnnotate (loc : Location) (target hint : ExprCode) (value : Option ExprCode)
    (simple : Bool) : Gen Unit := do
  value.forM fun value => do
    value.load
    target.store
  let evaluates : Bool := (← kind).storesAnnotations && !(← defersAnnotations)
  match target.source, target.probeTarget with
  | .name nameLoc id, _ =>
    if id = debugName then refuse .assignDebug nameLoc
    if simple && evaluates then storeHint loc id hint
  | _, some probe => if value.isNone then probe
  | _, none => fault .annotatedTarget
  if !simple && evaluates then hint.probe

/-! ### Other statements -/

def lowerRaise (loc : Location) (exception cause : Option ExprCode) : Gen Unit :=
  match exception, cause with
  | none, _ => emit .raiseVarargs 0 loc
  | some exception, none => do
    exception.load
    emit .raiseVarargs 1 loc
  | some exception, some cause => do
    exception.load
    cause.load
    emit .raiseVarargs 2 loc

def lowerAssertion (loc : Location) (test : ExprCode) (message : Option ExprCode) : Gen Unit := do
  if test.source.isFilledTuple then warn .assertTuple loc
  if !(← stripsAsserts) then
    let holds ← newLabel
    test.jumpIf holds true
    emit .loadAssertionError 0 loc
    message.forM fun message => do
      message.load
      emit .call 0 loc
    emit .raiseVarargs 1 loc
    bindLabel holds

def lowerExpression (loc : Location) (value : ExprCode) : Gen Unit := do
  if value.constant?.isSome then emit .nop 0 loc
  else
    value.load
    emit .popTop 0 .none

/-! ### Statements -/

def lowerWithItem (item : WithItem (Expr ScopeId)) : WithItem ExprCode :=
  ⟨lowerExpr item.context, lowerOptional item.target⟩

def unlessEmpty {α : Type} (source : List α) (code : StmtCode) : Option StmtCode :=
  if source.isEmpty then none else some code

mutual

def lowerStmt : Stmt ScopeId → StmtCode
  | .functionDef loc ⟨scope, name, params, body, decorators, returns, isAsync⟩ => fun _ =>
    lowerFunctionDef loc ⟨scope, name, lowerParameters params, ⟨body, lowerBody body⟩,
      lowerExprs decorators, lowerOptional returns, isAsync⟩
  | .classDef loc ⟨scope, name, bases, keywords, body, decorators⟩ => fun _ =>
    lowerClassDef loc ⟨scope, name, lowerExprs bases, lowerKeywords keywords,
      ⟨body, lowerBody body⟩, lowerExprs decorators⟩
  | .returns loc value => lowerReturn loc (lowerOptional value)
  | .delete _ targets => fun _ => (lowerExprs targets).forM (·.delete)
  | .assign loc targets value => fun _ => do
    (lowerExpr value).load
    storeAll loc (lowerExprs targets)
  | .augment loc target op value => fun _ =>
    lowerAugment loc (lowerExpr target) op (lowerExpr value)
  | .annotate loc target hint value simple => fun _ =>
    lowerAnnotate loc (lowerExpr target) (lowerExpr hint) (lowerOptional value) simple
  | .forLoop loc target iter body orElse isAsync =>
    (if isAsync then lowerAsyncFor else lowerFor) loc (lowerExpr target) (lowerExpr iter)
      (runAll (lowerBody body)) (runAll (lowerBody orElse))
  | .whileLoop _ test body orElse =>
    lowerWhile (lowerExpr test) (runAll (lowerBody body)) (runAll (lowerBody orElse))
  | .branch _ test body orElse =>
    lowerBranch (lowerExpr test) (runAll (lowerBody body))
      (unlessEmpty orElse (runAll (lowerBody orElse)))
  | .withBlock loc items body isAsync =>
    lowerWith loc (items.map lowerWithItem) (runAll (lowerBody body)) isAsync
  | .matchCases _ subject cases => lowerMatch (lowerExpr subject) (lowerCaseList cases)
  | .raise loc exception cause => fun _ =>
    lowerRaise loc (lowerOptional exception) (lowerOptional cause)
  | .tryBlock loc body handlers orElse finalBody =>
    lowerTry loc (runAll (lowerBody body)) (lowerHandlerList handlers)
      (runAll (lowerBody orElse)) (unlessEmpty finalBody (runAll (lowerBody finalBody)))
  | .assertion loc test message => fun _ =>
    lowerAssertion loc (lowerExpr test) (lowerOptional message)
  | .importModules loc names => fun _ => names.forM (lowerImport loc)
  | .importFrom loc module names level => fun _ => lowerImportFrom loc module names level
  | .globals _ _ => fun _ => pure ()
  | .nonlocals _ _ => fun _ => pure ()
  | .expression loc value => fun _ => lowerExpression loc (lowerExpr value)
  | .pass loc => fun _ => emit .nop 0 loc
  | .breakLoop loc => lowerBreak loc
  | .continueLoop loc => lowerContinue loc

def lowerBody : List (Stmt ScopeId) → List StmtCode
  | [] => []
  | s :: ss => lowerStmt s :: lowerBody ss

def lowerCaseList :
    List (Case (Pattern ScopeId) (Expr ScopeId) (List (Stmt ScopeId))) → List CaseCode
  | [] => []
  | ⟨pattern, guard, body⟩ :: cases =>
    ⟨lowerPattern pattern, lowerOptional guard, runAll (lowerBody body)⟩ :: lowerCaseList cases

def lowerHandlerList : List (Handler (Expr ScopeId) (List (Stmt ScopeId))) → List HandlerCode
  | [] => []
  | ⟨type, name, body, loc⟩ :: handlers =>
    ⟨lowerOptional type, name, runAll (lowerBody body), loc⟩ :: lowerHandlerList handlers

end

end Bytecode
