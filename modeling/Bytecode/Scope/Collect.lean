import Bytecode.Error
import Bytecode.Scope
import Bytecode.Scope.Mangle
import Bytecode.Tree

/-!
# Scopes of a tree

One walk through a tree finds its scopes and the names in them, and numbers the nodes that open
scopes. Names are recorded in the order in which they are met; what belongs to a definition but not
to its body, such as defaults and decorators, belongs to the scope around it.
-/

namespace Bytecode

structure CollectContext where
  current : ScopeId := 0
  className : Option String := none
  file : String

abbrev Collect := ReaderT CollectContext (StateT ScopeTable (Except CompileError))

namespace Collect

def refuse {α : Type} (fault : SourceFault) (loc : Location) : Collect α := do
  throw (.source fault (← read).file loc)

def scope : Collect Scope :=
  return (← get).scope (← read).current

def modifyScope (id : ScopeId) (f : Scope → Scope) : Collect Unit :=
  modify (Array.modify · id f)

def recordIn (id : ScopeId) (name : String) (usage : Usage) (loc : Location) : Collect Unit := do
  let full := mangle (← read).className name
  let known := ((← get).scope id).lookup full
  if usage.parameter && known.any (·.usage.parameter) then refuse (.duplicateArgument name) loc
  else modifyScope id (·.record full usage loc)

def record (name : String) (usage : Usage) (loc : Location) : Collect Unit := do
  recordIn (← read).current name usage loc

def assign (name : String) (loc : Location) : Collect Unit :=
  record name { assigned := true } loc

def assign? (name : Option String) (loc : Location) : Collect Unit :=
  name.forM (assign · loc)

def openScope (s : Scope) : Collect ScopeId := do
  let parent := (← read).current
  let outer ← scope
  let id := (← get).size
  modify (·.push { s with parent := some parent, isNested := outer.isNested || outer.isFunction })
  modifyScope parent fun p => { p with children := p.children ++ [id] }
  return id

def within {α : Type} (id : ScopeId) (walk : Collect α) : Collect α :=
  withReader (fun c => { c with current := id }) walk

def withinClass {α : Type} (id : ScopeId) (name : String) (walk : Collect α) : Collect α :=
  withReader (fun c => { c with current := id, className := some name }) walk

/-- Uses a name. Inside a function, `super` refers to the class around as well. -/
def use (name : String) (loc : Location) : Collect Unit := do
  record name { used := true } loc
  if name = "super" && (← scope).isFunction then record "__class__" { used := true } loc

def parameters {ε : Type} (params : Parameters ε) : Collect Unit :=
  params.all.forM fun p => record p.name { parameter := true } p.loc

def markGenerator (loc : Location) : Collect Unit := do
  let s ← scope
  if s.isComprehension then
    refuse (if s.isGenerator then .yieldInGenerator else .yieldInComprehension) loc
  else if s.isFunction then
    modifyScope (← read).current fun s => { s with isGenerator := true }

def markAwait : Collect Unit := do
  if (← scope).isComprehension then
    modifyScope (← read).current fun s => { s with isCoroutine := true }

/-- The innermost scope that is no comprehension, from a given one outwards. As parents have smaller
numbers, the number of the scope bounds the way. -/
def ownerFrom (scopes : ScopeTable) : (fuel : Nat) → ScopeId → ScopeId
  | 0, id => id
  | fuel + 1, id =>
    let s := scopes.scope id
    if s.isComprehension then
      match s.parent with
      | some parent => ownerFrom scopes fuel parent
      | none => id
    else id

/-- Assigns to a name inside of an expression. The name belongs to the innermost scope that is no
comprehension. -/
def assignNamed (name : String) (loc : Location) : Collect Unit := do
  let current := (← read).current
  if !(← scope).isComprehension then assign name loc
  else
    let owner := ownerFrom (← get) current current
    match ((← get).scope owner).kind with
    | .classBody => refuse .namedInClassComprehension loc
    | .function =>
      record name { declaredNonlocal := true } loc
      recordIn owner name { assigned := true } loc
    | .module =>
      record name { declaredGlobal := true } loc
      recordIn owner name { declaredGlobal := true } loc

/-- Why a name with the given use cannot be declared any more. -/
def declarationFault (name : String) (as : Declaration) (usage : Usage) : Option SourceFault :=
  if usage.parameter then some (.parameterDeclared name as)
  else if usage.used then some (.usedBeforeDeclaration name as)
  else if usage.annotated then some (.annotatedDeclared name as)
  else if usage.assigned || usage.imported then some (.assignedBeforeDeclaration name as)
  else none

def declare (names : List String) (as : Declaration) (loc : Location) : Collect Unit :=
  names.forM fun name => do
    let known := (← scope).lookup (mangle (← read).className name)
    match known.bind fun x => declarationFault name as x.usage with
    | some fault => refuse fault loc
    | none =>
      let usage : Usage := match as with
        | .global => { declaredGlobal := true }
        | .«nonlocal» => { declaredNonlocal := true }
      record name usage loc

def annotate (name : String) (loc : Location) : Collect Unit := do
  let known := (← scope).lookup (mangle (← read).className name)
  match known with
  | some x =>
    if x.usage.declaredGlobal then refuse (.annotatedDeclared name .global) loc
    else if x.usage.declaredNonlocal then refuse (.annotatedDeclared name .«nonlocal») loc
    else record name { annotated := true, assigned := true } loc
  | none => record name { annotated := true, assigned := true } loc

def headPart (name : String) : String :=
  String.ofList (name.toList.takeWhile (· ≠ '.'))

def importModules (names : List Alias) : Collect Unit :=
  names.forM fun a => record (a.asName.getD (headPart a.name)) { imported := true } a.loc

def importFrom (names : List Alias) : Collect Unit :=
  names.forM fun a => do
    if a.name = "*" then
      if (← scope).kind ≠ .module then refuse .importStarInScope a.loc
    else record (a.asName.getD a.name) { imported := true } a.loc

end Collect

open Collect

/-! ### Expressions -/

mutual

/-- Walks an expression, as a target of an assignment or for its value. -/
def collectExpr (asTarget : Bool) : Expr Unit → Collect (Expr ScopeId)
  | .boolOp loc op values => return .boolOp loc op (← collectExprs false values)
  | .named loc target value => do
    let value ← collectExpr false value
    match target with
    | .name targetLoc id =>
      assignNamed id targetLoc
      return .named loc (.name targetLoc id) value
    | other => refuse .namedTarget other.loc
  | .binary loc left op right => do
    let left ← collectExpr false left
    let right ← collectExpr false right
    return .binary loc left op right
  | .unary loc op operand => return .unary loc op (← collectExpr false operand)
  | .lambda loc _ params body => do
    let params ← collectParameters params
    let id ← openScope { name := "<lambda>", kind := .function, loc := loc }
    within id do
      parameters params
      return .lambda loc id params (← collectExpr false body)
  | .conditional loc test body orElse => do
    let test ← collectExpr false test
    let body ← collectExpr false body
    let orElse ← collectExpr false orElse
    return .conditional loc test body orElse
  | .dict loc keys values => do
    let keys ← collectOptionals keys
    let values ← collectExprs false values
    return .dict loc keys values
  | .set loc items => return .set loc (← collectExprs false items)
  | .list loc items => return .list loc (← collectExprs asTarget items)
  | .tuple loc items => return .tuple loc (← collectExprs asTarget items)
  | .comprehension _ _ _ [] => throw (.internal .noGenerators)
  | .comprehension loc _ element (⟨target, iter, conditions, isAsync⟩ :: generators) => do
    let iter ← collectExpr false iter
    let id ← openScope {
      name := element.scopeName
      kind := .function
      loc := loc
      isComprehension := true
      isGenerator := element.isGenerator
      isCoroutine := isAsync || generators.any (·.isAsync) }
    within id do
      record ".0" { parameter := true } loc
      let target ← collectExpr true target
      let conditions ← collectExprs false conditions
      let generators ← collectGenerators generators
      let element ← collectElement element
      return .comprehension loc id element (⟨target, iter, conditions, isAsync⟩ :: generators)
  | .await loc value => do
    let value ← collectExpr false value
    markAwait
    return .await loc value
  | .yield loc value => do
    let value ← collectOptional value
    markGenerator loc
    return .yield loc value
  | .yieldFrom loc value => do
    let value ← collectExpr false value
    markGenerator loc
    return .yieldFrom loc value
  | .compare loc left ops comparators => do
    let left ← collectExpr false left
    let comparators ← collectExprs false comparators
    return .compare loc left ops comparators
  | .call loc func args keywords => do
    let func ← collectExpr false func
    let args ← collectExprs false args
    let keywords ← collectKeywords keywords
    return .call loc func args keywords
  | .formatted loc value conversion spec => do
    let value ← collectExpr false value
    let spec ← collectOptional spec
    return .formatted loc value conversion spec
  | .joined loc values => return .joined loc (← collectExprs false values)
  | .constant loc value => return .constant loc value
  | .member loc value attr => return .member loc (← collectExpr false value) attr
  | .subscript loc value index => do
    let value ← collectExpr false value
    let index ← collectExpr false index
    return .subscript loc value index
  | .starred loc value => return .starred loc (← collectExpr asTarget value)
  | .name loc id => do
    if asTarget then assign id loc else use id loc
    return .name loc id
  | .slice loc lower upper step => do
    let lower ← collectOptional lower
    let upper ← collectOptional upper
    let step ← collectOptional step
    return .slice loc lower upper step

def collectExprs (asTarget : Bool) : List (Expr Unit) → Collect (List (Expr ScopeId))
  | [] => return []
  | e :: es => do
    let e ← collectExpr asTarget e
    let es ← collectExprs asTarget es
    return e :: es

def collectOptional : Option (Expr Unit) → Collect (Option (Expr ScopeId))
  | none => return none
  | some e => return some (← collectExpr false e)

def collectOptionals : List (Option (Expr Unit)) → Collect (List (Option (Expr ScopeId)))
  | [] => return []
  | e :: es => do
    let e ← collectOptional e
    let es ← collectOptionals es
    return e :: es

def collectKeywords : List (Keyword (Expr Unit)) → Collect (List (Keyword (Expr ScopeId)))
  | [] => return []
  | ⟨name, value, loc⟩ :: keywords => do
    let value ← collectExpr false value
    let keywords ← collectKeywords keywords
    return ⟨name, value, loc⟩ :: keywords

def collectParameter : Parameter (Expr Unit) → Collect (Parameter (Expr ScopeId))
  | ⟨name, hint, loc⟩ => return ⟨name, ← collectOptional hint, loc⟩

def collectParameterList :
    List (Parameter (Expr Unit)) → Collect (List (Parameter (Expr ScopeId)))
  | [] => return []
  | p :: ps => do
    let p ← collectParameter p
    let ps ← collectParameterList ps
    return p :: ps

def collectOptionalParameter :
    Option (Parameter (Expr Unit)) → Collect (Option (Parameter (Expr ScopeId)))
  | none => return none
  | some p => return some (← collectParameter p)

/-- The defaults and annotations of parameters, which belong to the scope around a function. -/
def collectParameters : Parameters (Expr Unit) → Collect (Parameters (Expr ScopeId))
  | ⟨positionalOnly, positional, variadic, keywordOnly, keywordDefaults, keywordVariadic,
      defaults⟩ => do
    let defaults ← collectExprs false defaults
    let keywordDefaults ← collectOptionals keywordDefaults
    let positionalOnly ← collectParameterList positionalOnly
    let positional ← collectParameterList positional
    let keywordOnly ← collectParameterList keywordOnly
    let variadic ← collectOptionalParameter variadic
    let keywordVariadic ← collectOptionalParameter keywordVariadic
    return ⟨positionalOnly, positional, variadic, keywordOnly, keywordDefaults, keywordVariadic,
      defaults⟩

def collectGenerators : List (Generator (Expr Unit)) → Collect (List (Generator (Expr ScopeId)))
  | [] => return []
  | ⟨target, iter, conditions, isAsync⟩ :: generators => do
    let iter ← collectExpr false iter
    let target ← collectExpr true target
    let conditions ← collectExprs false conditions
    let generators ← collectGenerators generators
    return ⟨target, iter, conditions, isAsync⟩ :: generators

def collectElement : Element (Expr Unit) → Collect (Element (Expr ScopeId))
  | .list item => return .list (← collectExpr false item)
  | .set item => return .set (← collectExpr false item)
  | .dict key value => do
    let key ← collectExpr false key
    let value ← collectExpr false value
    return .dict key value
  | .generator item => return .generator (← collectExpr false item)

end

/-! ### Patterns -/

mutual

def collectPattern : Pattern Unit → Collect (Pattern ScopeId)
  | .value loc value => return .value loc (← collectExpr false value)
  | .singleton loc value => return .singleton loc value
  | .sequence loc patterns => return .sequence loc (← collectPatterns patterns)
  | .mapping loc keys patterns rest => do
    let keys ← collectExprs false keys
    let patterns ← collectPatterns patterns
    assign? rest loc
    return .mapping loc keys patterns rest
  | .classPattern loc cls patterns attrs attrPatterns => do
    let cls ← collectExpr false cls
    let patterns ← collectPatterns patterns
    let attrPatterns ← collectPatterns attrPatterns
    return .classPattern loc cls patterns attrs attrPatterns
  | .star loc name => do
    assign? name loc
    return .star loc name
  | .capture loc pattern name => do
    let pattern ← collectOptionalPattern pattern
    assign? name loc
    return .capture loc pattern name
  | .alternatives loc patterns => return .alternatives loc (← collectPatterns patterns)

def collectPatterns : List (Pattern Unit) → Collect (List (Pattern ScopeId))
  | [] => return []
  | p :: ps => do
    let p ← collectPattern p
    let ps ← collectPatterns ps
    return p :: ps

def collectOptionalPattern : Option (Pattern Unit) → Collect (Option (Pattern ScopeId))
  | none => return none
  | some p => return some (← collectPattern p)

end

/-! ### Statements -/

def collectWithItems : List (WithItem (Expr Unit)) → Collect (List (WithItem (Expr ScopeId)))
  | [] => return []
  | ⟨context, target⟩ :: items => do
    let context ← collectExpr false context
    let target ← target.mapM (collectExpr true)
    let items ← collectWithItems items
    return ⟨context, target⟩ :: items

/-- The target of an annotation. A name in parentheses is assigned only with a value. -/
def collectAnnotated (target : Expr Unit) (hasValue simple : Bool) : Collect (Expr ScopeId) :=
  match target with
  | .name loc id => do
    if simple then annotate id loc
    else if hasValue then assign id loc
    return .name loc id
  | other => collectExpr true other

/-- The target of an assignment that updates. A name is used as well as assigned. -/
def collectUpdated : Expr Unit → Collect (Expr ScopeId)
  | .name loc id => do
    record id { used := true, assigned := true } loc
    return .name loc id
  | other => collectExpr true other

mutual

def collectStmt : Stmt Unit → Collect (Stmt ScopeId)
  | .functionDef loc ⟨_, name, params, body, decorators, returns, isAsync⟩ => do
    assign name loc
    let params ← collectParameters params
    let returns ← collectOptional returns
    let decorators ← collectExprs false decorators
    let id ← openScope { name := name, kind := .function, loc := loc, isCoroutine := isAsync }
    within id do
      parameters params
      let body ← collectBody body
      return .functionDef loc ⟨id, name, params, body, decorators, returns, isAsync⟩
  | .classDef loc ⟨_, name, bases, keywords, body, decorators⟩ => do
    assign name loc
    let bases ← collectExprs false bases
    let keywords ← collectKeywords keywords
    let decorators ← collectExprs false decorators
    let id ← openScope { name := name, kind := .classBody, loc := loc }
    withinClass id name do
      let body ← collectBody body
      return .classDef loc ⟨id, name, bases, keywords, body, decorators⟩
  | .returns loc value => return .returns loc (← collectOptional value)
  | .delete loc targets => return .delete loc (← collectExprs true targets)
  | .assign loc targets value => do
    let value ← collectExpr false value
    let targets ← collectExprs true targets
    return .assign loc targets value
  | .augment loc target op value => do
    let target ← collectUpdated target
    let value ← collectExpr false value
    return .augment loc target op value
  | .annotate loc target hint value simple => do
    let target ← collectAnnotated target value.isSome simple
    let hint ← collectExpr false hint
    let value ← collectOptional value
    return .annotate loc target hint value simple
  | .forLoop loc target iter body orElse isAsync => do
    let target ← collectExpr true target
    let iter ← collectExpr false iter
    let body ← collectBody body
    let orElse ← collectBody orElse
    return .forLoop loc target iter body orElse isAsync
  | .whileLoop loc test body orElse => do
    let test ← collectExpr false test
    let body ← collectBody body
    let orElse ← collectBody orElse
    return .whileLoop loc test body orElse
  | .branch loc test body orElse => do
    let test ← collectExpr false test
    let body ← collectBody body
    let orElse ← collectBody orElse
    return .branch loc test body orElse
  | .withBlock loc items body isAsync => do
    let items ← collectWithItems items
    let body ← collectBody body
    return .withBlock loc items body isAsync
  | .matchCases loc subject cases => do
    let subject ← collectExpr false subject
    let cases ← collectCases cases
    return .matchCases loc subject cases
  | .raise loc exception cause => do
    let exception ← collectOptional exception
    let cause ← collectOptional cause
    return .raise loc exception cause
  | .tryBlock loc body handlers orElse finalBody => do
    let body ← collectBody body
    let handlers ← collectHandlers handlers
    let orElse ← collectBody orElse
    let finalBody ← collectBody finalBody
    return .tryBlock loc body handlers orElse finalBody
  | .assertion loc test message => do
    let test ← collectExpr false test
    let message ← collectOptional message
    return .assertion loc test message
  | .importModules loc names => do
    Collect.importModules names
    return .importModules loc names
  | .importFrom loc module names level => do
    Collect.importFrom names
    return .importFrom loc module names level
  | .globals loc names => do
    declare names .global loc
    return .globals loc names
  | .nonlocals loc names => do
    if (← scope).kind = .module then refuse .nonlocalAtModule loc
    declare names .«nonlocal» loc
    return .nonlocals loc names
  | .expression loc value => return .expression loc (← collectExpr false value)
  | .pass loc => return .pass loc
  | .breakLoop loc => return .breakLoop loc
  | .continueLoop loc => return .continueLoop loc

def collectBody : List (Stmt Unit) → Collect (List (Stmt ScopeId))
  | [] => return []
  | s :: ss => do
    let s ← collectStmt s
    let ss ← collectBody ss
    return s :: ss

def collectCases : List (Case (Pattern Unit) (Expr Unit) (List (Stmt Unit))) →
    Collect (List (Case (Pattern ScopeId) (Expr ScopeId) (List (Stmt ScopeId))))
  | [] => return []
  | ⟨pattern, guard, body⟩ :: cases => do
    let pattern ← collectPattern pattern
    let guard ← collectOptional guard
    let body ← collectBody body
    let cases ← collectCases cases
    return ⟨pattern, guard, body⟩ :: cases

def collectHandlers : List (Handler (Expr Unit) (List (Stmt Unit))) →
    Collect (List (Handler (Expr ScopeId) (List (Stmt ScopeId))))
  | [] => return []
  | ⟨type, name, body, loc⟩ :: handlers => do
    let type ← collectOptional type
    assign? name loc
    let body ← collectBody body
    let handlers ← collectHandlers handlers
    return ⟨type, name, body, loc⟩ :: handlers

end

def collect (file : String) (body : Body Unit) : Result (Body ScopeId × ScopeTable) :=
  ((collectBody body).run { file := file }).run #[.root]

end Bytecode
