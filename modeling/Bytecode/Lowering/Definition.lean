import Bytecode.Lowering.Call
import Bytecode.Lowering.Closure
import Bytecode.Lowering.Open

/-!
# Definitions of functions and classes
-/

namespace Bytecode

open Gen

structure BodyCode where
  source : Body ScopeId
  statements : List StmtCode

namespace BodyCode

variable (b : BodyCode)

def doc? : Gen (Option Constant) := do
  return if ← stripsAsserts then none else docString? b.source

def statementsAfter (doc : Option Constant) : List StmtCode :=
  if doc.isSome then b.statements.drop 1 else b.statements

/-- The body of a module or class, where the documentation string is a variable and annotations are
kept. -/
def lower : Gen Unit := do
  let first := (b.source.head?.map (·.loc)).getD .none
  if bodyAnnotates b.source && !(← defersAnnotations) then
    emit .setupAnnotations 0 (if (← kind) = .module then first else .none)
  let doc ← b.doc?
  doc.forM fun doc => do
    emitConst doc first
    storeName "__doc__" first
  runAll (b.statementsAfter doc) []

/-- The body of a function, whose first constant is the documentation string. -/
def lowerFunction : Gen Unit := do
  let doc ← b.doc?
  let _ ← constantIndex (doc.getD .none)
  runAll (b.statementsAfter doc) []

end BodyCode

def firstLine (decorators : List ExprCode) (loc : Location) : Int :=
  (decorators.head?.map (·.loc.line)).getD loc.line

def applyDecorators (decorators : List ExprCode) : Gen Unit :=
  decorators.reverse.forM fun d => emit .call 0 d.loc

def lowerFunctionDef (loc : Location) (d : FunctionDef ScopeId ExprCode BodyCode) : Gen Unit := do
  checkParameters d.params
  loadAll d.decorators
  let defaults ← loadDefaults d.params.defaults loc
  let keywordDefaults ← loadKeywordDefaults (keywordDefaults d.params) loc
  let annotations ← loadAnnotations (annotated d.params d.returns) loc
  let kind : UnitKind := if d.isAsync then .asyncFunction else .function
  let u ← childUnit d.scope kind d.name (firstLine d.decorators loc)
  let code ← inUnit (u.withParameters d.params) d.body.lowerFunction
  makeFunction code
    { defaults := defaults, keywordDefaults := keywordDefaults, annotations := annotations } loc
  applyDecorators d.decorators
  storeName d.name loc

/-- The body of a class. Its result is the cell of the class, if scopes inside refer to it. -/
def lowerClassBody (loc : Location) (body : BodyCode) : Gen Unit := do
  let u ← info
  loadName "__name__" loc
  storeName "__module__" loc
  emitConst (.str u.qualifiedName) loc
  storeName "__qualname__" loc
  body.lower
  if u.scope.needsClassCell then
    emitPseudo .loadClosure (← cellIndex "__class__") .none
    emit .copy 1 .none
    storeName "__classcell__" .none
  else emitNone .none
  emit .returnValue 0 .none

def lowerClassDef (loc : Location) (d : ClassDef ScopeId ExprCode BodyCode) : Gen Unit := do
  loadAll d.decorators
  let u ← childUnit d.scope .classBody d.name (firstLine d.decorators loc)
  let code ← inUnit u (lowerClassBody loc d.body)
  emit .pushNull 0 loc
  emit .loadBuildClass 0 loc
  makeFunction code {} loc
  emitConst (.str d.name) loc
  callWith 2 d.bases d.keywords loc
  applyDecorators d.decorators
  storeName d.name loc

end Bytecode
