/-!
# Faults of a program

What makes a syntax tree no program: names declared twice over, statements out of place, targets
that cannot be assigned, and patterns that cannot be matched.
-/

namespace Bytecode

inductive Declaration where
  | global
  | «nonlocal»
deriving DecidableEq, Repr

def Declaration.name : Declaration → String
  | .global => "global"
  | .«nonlocal» => "nonlocal"

inductive SourceFault where
  -- names and scopes
  | duplicateArgument (name : String)
  | parameterDeclared (name : String) (as : Declaration)
  | usedBeforeDeclaration (name : String) (as : Declaration)
  | annotatedDeclared (name : String) (as : Declaration)
  | assignedBeforeDeclaration (name : String) (as : Declaration)
  | nonlocalAndGlobal (name : String)
  | noNonlocalBinding (name : String)
  | nonlocalAtModule
  | importStarInScope
  | namedTarget
  | namedInClassComprehension
  | yieldInGenerator
  | yieldInComprehension
  -- statements
  | assignDebug
  | deleteDebug
  | returnOutside
  | returnInAsyncGenerator
  | breakOutside
  | continueOutside
  | asyncWithOutside
  | asyncForOutside
  | defaultHandlerNotLast
  -- expressions
  | awaitOutside
  | awaitOutsideAsync
  | yieldOutside
  | yieldFromInAsync
  | asyncComprehensionOutside
  | starredTarget
  | starredHere
  | twoStarredTargets
  | starredTargetTooLate
  | keywordRepeated (name : String)
  -- patterns
  | captureTwice (name : String)
  | patternValue
  | captureUnreachable (name : String)
  | wildcardUnreachable
  | twoStarredNames
  | starredPatternTooLate
  | mappingLengths (keys patterns : Nat)
  | duplicateKey (key : String)
  | mappingKey
  | classLengths (attrs patterns : Nat)
  | attributeRepeated (name : String)
  | alternativesDiffer
deriving DecidableEq, Repr

namespace SourceFault

def message : SourceFault → String
  | duplicateArgument name => s!"duplicate argument '{name}' in function definition"
  | parameterDeclared name as => s!"name '{name}' is parameter and {as.name}"
  | usedBeforeDeclaration name as => s!"name '{name}' is used prior to {as.name} declaration"
  | annotatedDeclared name as => s!"annotated name '{name}' can't be {as.name}"
  | assignedBeforeDeclaration name as =>
    s!"name '{name}' is assigned to before {as.name} declaration"
  | nonlocalAndGlobal name => s!"name '{name}' is nonlocal and global"
  | noNonlocalBinding name => s!"no binding for nonlocal '{name}' found"
  | nonlocalAtModule => "nonlocal declaration not allowed at module level"
  | importStarInScope => "import * only allowed at module level"
  | namedTarget => "cannot use assignment expressions with this target"
  | namedInClassComprehension =>
    "assignment expression within a comprehension cannot be used in a class body"
  | yieldInGenerator => "'yield' inside generator expression"
  | yieldInComprehension => "'yield' inside comprehension"
  | assignDebug => "cannot assign to __debug__"
  | deleteDebug => "cannot delete __debug__"
  | returnOutside => "'return' outside function"
  | returnInAsyncGenerator => "'return' with value in async generator"
  | breakOutside => "'break' outside loop"
  | continueOutside => "'continue' not properly in loop"
  | asyncWithOutside => "'async with' outside async function"
  | asyncForOutside => "'async for' outside async function"
  | defaultHandlerNotLast => "default 'except:' must be last"
  | awaitOutside => "'await' outside function"
  | awaitOutsideAsync => "'await' outside async function"
  | yieldOutside => "'yield' outside function"
  | yieldFromInAsync => "'yield from' inside async function"
  | asyncComprehensionOutside => "asynchronous comprehension outside of an asynchronous function"
  | starredTarget => "starred assignment target must be in a list or tuple"
  | starredHere => "can't use starred expression here"
  | twoStarredTargets => "multiple starred expressions in assignment"
  | starredTargetTooLate => "too many expressions in star-unpacking assignment"
  | keywordRepeated name => s!"keyword argument repeated: {name}"
  | captureTwice name => s!"multiple assignments to name '{name}' in pattern"
  | patternValue => "patterns may only match literals and attribute lookups"
  | captureUnreachable name => s!"name capture '{name}' makes remaining patterns unreachable"
  | wildcardUnreachable => "wildcard makes remaining patterns unreachable"
  | twoStarredNames => "multiple starred names in sequence pattern"
  | starredPatternTooLate => "too many expressions in star-unpacking sequence pattern"
  | mappingLengths keys patterns =>
    s!"keys ({keys}) / patterns ({patterns}) length mismatch in mapping pattern"
  | duplicateKey key => s!"mapping pattern checks duplicate key ({key})"
  | mappingKey => "mapping pattern keys may only match literals and attribute lookups"
  | classLengths attrs patterns =>
    s!"kwd_attrs ({attrs}) / kwd_patterns ({patterns}) length mismatch in class pattern"
  | attributeRepeated name => s!"attribute name repeated in class pattern: {name}"
  | alternativesDiffer => "alternative patterns bind different names"

end SourceFault

end Bytecode
