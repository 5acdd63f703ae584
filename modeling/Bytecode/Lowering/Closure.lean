import Bytecode.Lowering.ExprCode

/-!
# Functions

A scope inside another is lowered to a unit of its own, and then made into a function with its
defaults, its annotations and the variables that it shares with the scopes around it.
-/

namespace Bytecode

open Gen

/-! ### Units -/

/-- The name of a unit with those of the units around it. A function or class that is declared
global stands for itself. -/
def UnitInfo.qualify (parent : UnitInfo) (name : String) (kind : UnitKind) : String :=
  let declares : Bool := match kind with
    | .function | .asyncFunction | .classBody =>
      parent.scope.resolution? (mangle parent.className name) = some .declaredGlobal
    | .module | .lambda | .comprehension => false
  if parent.kind = .module || declares then name
  else match parent.kind with
    | .function | .asyncFunction | .lambda => parent.qualifiedName ++ ".<locals>." ++ name
    | .module | .classBody | .comprehension => parent.qualifiedName ++ "." ++ name

def unitFlags (features : Features) (scope : ScopeView) (kind : UnitKind) : CodeFlags :=
  let flags := features.codeFlags
  if kind.isFunctionLike then
    { flags with
      optimized := true
      newLocals := true
      nested := scope.isNested
      generator := scope.isGenerator && !scope.isCoroutine
      coroutine := !scope.isGenerator && scope.isCoroutine
      asyncGenerator := scope.isGenerator && scope.isCoroutine }
  else flags

def childUnit (scope : ScopeId) (kind : UnitKind) (name : String) (firstLine : Int) :
    Gen UnitInfo := do
  match (← read).scopes[scope]? with
  | none => fault .noScope
  | some s =>
    let parent ← info
    return {
      kind := kind
      scope := s
      name := name
      qualifiedName := parent.qualify name kind
      className := if kind = .classBody then some name else parent.className
      firstLine := firstLine
      flags := unitFlags (← read).options.features s kind }

def UnitInfo.withParameters {ε : Type} (u : UnitInfo) (params : Parameters ε) : UnitInfo :=
  { u with
    positionalCount := params.positionalOnly.length + params.positional.length
    positionalOnlyCount := params.positionalOnly.length
    keywordOnlyCount := params.keywordOnly.length
    flags := { u.flags with
      varArgs := params.variadic.isSome
      varKeywords := params.keywordVariadic.isSome } }

/-! ### Parameters -/

def checkParameters (params : Parameters ExprCode) : Gen Unit :=
  match params.all.find? (·.name = debugName) with
  | some p => refuse .assignDebug p.loc
  | none => pure ()

def loadDefaults (defaults : List ExprCode) (loc : Location) : Gen Bool := do
  if defaults.isEmpty then return false
  loadAll defaults
  emit .buildTuple defaults.length loc
  return true

def keywordDefaults (params : Parameters ExprCode) : List (String × ExprCode) :=
  (params.keywordOnly.zip params.keywordDefaults).filterMap fun (p, d) => d.map (p.name, ·)

def loadKeywordDefaults (defaults : List (String × ExprCode)) (loc : Location) : Gen Bool := do
  if defaults.isEmpty then return false
  loadAll (defaults.map (·.2))
  let names ← defaults.mapM fun d => mangled d.1
  emitConst (.tuple (names.map .str)) loc
  emit .buildConstKeyMap defaults.length loc
  return true

def annotated (params : Parameters ExprCode) (returns : Option ExprCode) :
    List (String × ExprCode) :=
  let all := params.positional ++ params.positionalOnly ++ params.variadic.toList ++
    params.keywordOnly ++ params.keywordVariadic.toList
  all.filterMap (fun p => p.hint.map (p.name, ·)) ++
    returns.toList.map fun r => ("return", r)

def loadAnnotations (hints : List (String × ExprCode)) (loc : Location) : Gen Bool := do
  if hints.isEmpty || (← defersAnnotations) then return false
  hints.forM fun (name, hint) => do
    emitConst (.str (← mangled name)) loc
    hint.loadUnderStar
    if hint.isStarred then emit .unpackSequence 1 loc
  emit .buildTuple (2 * hints.length) loc
  return true

/-! ### Functions -/

/-- Makes a function of a code object; the cells that it shares are put on the stack first. -/
def makeFunction (code : CodeObject) (extras : FunctionExtras) (loc : Location) : Gen Unit := do
  let frees := code.freeNames
  frees.forM fun name => do emitPseudo .loadClosure (← cellIndex name) loc
  if !frees.isEmpty then emit .buildTuple frees.length loc
  emitConst (← addCode code) loc
  emit .makeFunction { extras with closure := !frees.isEmpty : FunctionExtras }.code loc

def lambdaBody (loc : Location) (value : ExprCode) : Gen Unit := do
  -- the first constant of a function is its documentation
  let _ ← constantIndex .none
  value.load
  emit .returnValue 0 (.atLine loc.line)

def loadLambda (loc : Location) (scope : ScopeId) (params : Parameters ExprCode)
    (body : ExprCode) : Gen Unit := do
  checkParameters params
  let defaults ← loadDefaults params.defaults loc
  let keywordDefaults ← loadKeywordDefaults (keywordDefaults params) loc
  let u ← childUnit scope .lambda "<lambda>" loc.line
  let code ← inUnit (u.withParameters params) (lambdaBody loc body)
  makeFunction code { defaults := defaults, keywordDefaults := keywordDefaults } loc

end Bytecode
