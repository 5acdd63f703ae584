import Bytecode.Lowering.Display
import Bytecode.Lowering.Target

/-!
# Calls
-/

namespace Bytecode

open Gen

def checkKeywords (seen : List String) : List (Keyword ExprCode) → Gen Unit
  | [] => pure ()
  | ⟨none, _, _⟩ :: rest => checkKeywords seen rest
  | ⟨some name, _, loc⟩ :: rest =>
    if name = debugName then refuse .assignDebug loc
    else if seen.contains name then refuse (.keywordRepeated name) loc
    else checkKeywords (name :: seen) rest

def arePlain (args : List ExprCode) (keywords : List (Keyword ExprCode)) : Bool :=
  !args.any (·.isStarred) && keywords.all (·.name.isSome)

def loadArguments (args : List ExprCode) (keywords : List (Keyword ExprCode)) (loc : Location) :
    Gen Unit := do
  loadAll args
  if !keywords.isEmpty then
    loadAll (keywords.map (·.value))
    let names := keywords.filterMap (·.name)
    emit .kwNames (← constantIndex (.tuple (names.map .str))) loc

def keywordItems (keywords : List (Keyword ExprCode)) (loc : Location) :
    List (Option KeyCode × ExprCode) :=
  keywords.map fun k =>
    (k.name.map fun name => ⟨some (.str name), emitConst (.str name) loc⟩, k.value)

/-- Calls the callable on the stack, with as many arguments as are on the stack already and those
given here. -/
def callWith (pushed : Nat) (args : List ExprCode) (keywords : List (Keyword ExprCode))
    (loc : Location) : Gen Unit := do
  checkKeywords [] keywords
  if arePlain args keywords && args.length + 2 * keywords.length ≤ stackUseLimit then
    loadArguments args keywords loc
    emit .call (pushed + args.length + keywords.length) loc
  else
    match args, pushed with
    | [arg], 0 =>
      if arg.isStarred then arg.loadUnderStar else buildSequence .tuple pushed args loc
    | _, _ => buildSequence .tuple pushed args loc
    if keywords.isEmpty then emit .callFunctionEx 0 loc
    else
      buildMapping .dictMerge (mappingParts none [] (keywordItems keywords loc)) loc
      emit .callFunctionEx 1 loc

def warnCaller (func : ExprCode) : Gen Unit :=
  match func.source.typeName? with
  | some type => if func.source.isUncallable then warn (.notCallable type) func.loc else pure ()
  | none => pure ()

/-- The attribute through which a method is called. The attributes of an imported module are no
methods. -/
def calledMember? (func : ExprCode) : Gen (Option String) :=
  match func.source with
  | .member _ (.name _ id) attr => return if ← isImported id then none else some attr
  | .member _ _ attr => return some attr
  | _ => return none

def fitsMethodCall (args : List ExprCode) (keywords : List (Keyword ExprCode)) : Bool :=
  let n := keywords.length
  arePlain args keywords && args.length + n + (if n = 0 then 0 else 1) < stackUseLimit

def loadCall (loc : Location) (func : ExprCode) (args : List ExprCode)
    (keywords : List (Keyword ExprCode)) : Gen Unit := do
  checkKeywords [] keywords
  let attr? ← calledMember? func
  match func.loadMethod, if fitsMethodCall args keywords then attr? else none with
  | some loadMethod, some attr =>
    loadMethod
    loadArguments args keywords loc
    emit .call (args.length + keywords.length) (loc.atAttribute func.loc attr)
  | _, _ =>
    warnCaller func
    emit .pushNull 0 func.loc
    func.load
    callWith 0 args keywords loc

end Bytecode
