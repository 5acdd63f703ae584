import Bytecode.Lowering.Call
import Bytecode.Lowering.Comprehension
import Bytecode.Lowering.Condition

/-!
# Expressions

The code of an expression, from the code of its parts.
-/

namespace Bytecode

open Gen

def loadBinary (loc : Location) (left : ExprCode) (op : BinaryOp) (right : ExprCode) :
    Gen Unit := do
  left.load
  right.load
  emit .binaryOp op.code loc

def UnaryOp.opcode : UnaryOp → Opcode
  | invert => .unaryInvert
  | not => .unaryNot
  | positive => .unaryPositive
  | negative => .unaryNegative

/-- The code of an operation on one value. A negation that is a condition turns the jump around. -/
def unaryCode (source : Expr ScopeId) (op : UnaryOp) (operand : ExprCode) : ExprCode :=
  let code := ExprCode.ofLoad source do
    operand.load
    emit op.opcode 0 source.loc
  match op with
  | .not => { code with jumpIf := fun target cond => operand.jumpIf target !cond }
  | _ => code

def loadNamed (loc : Location) (target value : ExprCode) : Gen Unit := do
  value.load
  emit .copy 1 loc
  target.store

def loadAwait (loc : Location) (value : ExprCode) : Gen Unit := do
  if !(← kind).isFunctionLike then refuse .awaitOutside loc
  if !(← kind).canAwait then refuse .awaitOutsideAsync loc
  value.load
  awaitValue 0 loc

def loadYield (loc : Location) (value : Option ExprCode) : Gen Unit := do
  if !(← kind).isFunctionLike then refuse .yieldOutside loc
  loadOptional value loc
  emitYield loc

def loadYieldFrom (loc : Location) (value : ExprCode) : Gen Unit := do
  if !(← kind).isFunctionLike then refuse .yieldOutside loc
  if (← kind) = .asyncFunction then refuse .yieldFromInAsync loc
  value.load
  emit .getYieldFromIter 0 loc
  delegate loc

mutual

def lowerExpr : Expr ScopeId → ExprCode
  | .boolOp loc op values =>
    let codes := lowerExprs values
    { ExprCode.ofLoad (.boolOp loc op values) (loadBoolOp loc op codes) with
      jumpIf := jumpIfBoolOp op codes }
  | .named loc target value =>
    .ofLoad (.named loc target value) (loadNamed loc (lowerExpr target) (lowerExpr value))
  | .binary loc left op right =>
    .ofLoad (.binary loc left op right) (loadBinary loc (lowerExpr left) op (lowerExpr right))
  | .unary loc op operand => unaryCode (.unary loc op operand) op (lowerExpr operand)
  | .lambda loc scope params body =>
    .ofLoad (.lambda loc scope params body)
      (loadLambda loc scope (lowerParameters params) (lowerExpr body))
  | .conditional loc test body orElse =>
    let test' := lowerExpr test
    let body' := lowerExpr body
    let orElse' := lowerExpr orElse
    { ExprCode.ofLoad (.conditional loc test body orElse)
        (chooseBy test' body'.load orElse'.load) with
      jumpIf := fun target cond =>
        chooseBy test' (body'.jumpIf target cond) (orElse'.jumpIf target cond) }
  | .dict loc keys values =>
    .ofLoad (.dict loc keys values) (loadDict loc (lowerOptionals keys) (lowerExprs values))
  | .set loc items => .ofLoad (.set loc items) (buildSequence .set 0 (lowerExprs items) loc)
  | .list loc items =>
    let codes := lowerExprs items
    sequenceCode (.list loc items) (buildSequence .list 0 codes loc) codes
  | .tuple loc items =>
    let codes := lowerExprs items
    tupleCode (.tuple loc items) (buildSequence .tuple 0 codes loc) codes
  | .comprehension loc scope element generators =>
    .ofLoad (.comprehension loc scope element generators)
      (loadComprehension loc scope (lowerElement element) (lowerGenerators generators))
  | .await loc value => .ofLoad (.await loc value) (loadAwait loc (lowerExpr value))
  | .yield loc value => .ofLoad (.yield loc value) (loadYield loc (lowerOptional value))
  | .yieldFrom loc value => .ofLoad (.yieldFrom loc value) (loadYieldFrom loc (lowerExpr value))
  | .compare loc left ops comparators =>
    let first := lowerExpr left
    let rest := lowerExprs comparators
    let code := ExprCode.ofLoad (.compare loc left ops comparators)
      (loadCompare loc first ops rest)
    if 1 < ops.length then { code with jumpIf := jumpIfChain loc first ops rest } else code
  | .call loc func args keywords =>
    .ofLoad (.call loc func args keywords)
      (loadCall loc (lowerExpr func) (lowerExprs args) (lowerKeywords keywords))
  | .formatted loc value conversion spec =>
    .ofLoad (.formatted loc value conversion spec)
      (loadFormatted loc (lowerExpr value) conversion (lowerOptional spec))
  | .joined loc values => .ofLoad (.joined loc values) (loadJoined loc (lowerExprs values))
  | .constant loc value => .ofLoad (.constant loc value) (emitConst value loc)
  | .member loc value attr => memberCode (.member loc value attr) (lowerExpr value) attr
  | .subscript loc value index =>
    subscriptCode (.subscript loc value index) (lowerExpr value) (lowerExpr index)
  | .starred loc value => starredCode (.starred loc value) (lowerExpr value)
  | .name loc id => nameCode loc id
  | .slice loc lower upper step =>
    let lower' := lowerOptional lower
    let upper' := lowerOptional upper
    let step' := lowerOptional step
    sliceCode (.slice loc lower upper step) (loadSlice loc lower' upper' step') lower' upper' step'

def lowerExprs : List (Expr ScopeId) → List ExprCode
  | [] => []
  | e :: es => lowerExpr e :: lowerExprs es

def lowerOptional : Option (Expr ScopeId) → Option ExprCode
  | none => none
  | some e => some (lowerExpr e)

def lowerOptionals : List (Option (Expr ScopeId)) → List (Option ExprCode)
  | [] => []
  | e :: es => lowerOptional e :: lowerOptionals es

def lowerKeywords : List (Keyword (Expr ScopeId)) → List (Keyword ExprCode)
  | [] => []
  | ⟨name, value, loc⟩ :: keywords => ⟨name, lowerExpr value, loc⟩ :: lowerKeywords keywords

def lowerParameter : Parameter (Expr ScopeId) → Parameter ExprCode
  | ⟨name, hint, loc⟩ => ⟨name, lowerOptional hint, loc⟩

def lowerParameterList : List (Parameter (Expr ScopeId)) → List (Parameter ExprCode)
  | [] => []
  | p :: ps => lowerParameter p :: lowerParameterList ps

def lowerOptionalParameter : Option (Parameter (Expr ScopeId)) → Option (Parameter ExprCode)
  | none => none
  | some p => some (lowerParameter p)

def lowerParameters : Parameters (Expr ScopeId) → Parameters ExprCode
  | ⟨positionalOnly, positional, variadic, keywordOnly, keywordDefaults, keywordVariadic,
      defaults⟩ =>
    ⟨lowerParameterList positionalOnly, lowerParameterList positional,
      lowerOptionalParameter variadic, lowerParameterList keywordOnly,
      lowerOptionals keywordDefaults, lowerOptionalParameter keywordVariadic,
      lowerExprs defaults⟩

def lowerGenerators : List (Generator (Expr ScopeId)) → List (Generator ExprCode)
  | [] => []
  | ⟨target, iter, conditions, isAsync⟩ :: generators =>
    ⟨lowerExpr target, lowerExpr iter, lowerExprs conditions, isAsync⟩ ::
      lowerGenerators generators

def lowerElement : Element (Expr ScopeId) → Element ExprCode
  | .list item => .list (lowerExpr item)
  | .set item => .set (lowerExpr item)
  | .dict key value => .dict (lowerExpr key) (lowerExpr value)
  | .generator item => .generator (lowerExpr item)

end

end Bytecode
