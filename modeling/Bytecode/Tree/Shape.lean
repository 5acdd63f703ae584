import Bytecode.Tree

/-!
# Shapes of trees

What can be seen of a tree without lowering it.
-/

namespace Bytecode

namespace Expr

variable {σ : Type}

def constant? : Expr σ → Option Constant
  | constant _ value => some value
  | _ => none

/-- The type of the value, where the form of the expression shows it. -/
def typeName? : Expr σ → Option String
  | tuple _ _ => some "tuple"
  | list _ _ => some "list"
  | dict _ _ _ => some "dict"
  | set _ _ => some "set"
  | comprehension _ _ (.list _) _ => some "list"
  | comprehension _ _ (.dict _ _) _ => some "dict"
  | comprehension _ _ (.set _) _ => some "set"
  | comprehension _ _ (.generator _) _ => some "generator"
  | lambda _ _ _ _ => some "function"
  | joined _ _ => some "str"
  | formatted _ _ _ _ => some "str"
  | constant _ value => some value.typeName
  | _ => none

def hasIdentity (e : Expr σ) : Bool :=
  match e.constant? with
  | none => true
  | some .none => true
  | some (.bool _) => true
  | some .ellipsis => true
  | some _ => false

def isUncallable : Expr σ → Bool
  | lambda _ _ _ _ => false
  | e => e.typeName?.isSome

def isUnsubscriptable : Expr σ → Bool
  | constant _ value =>
    match value with
    | .none | .ellipsis | .bool _ | .int _ | .float _ | .complex _ _ => true
    | .str _ | .bytes _ | .tuple _ | .code _ _ => false
  | set _ _ => true
  | comprehension _ _ (.set _) _ => true
  | comprehension _ _ (.generator _) _ => true
  | lambda _ _ _ _ => true
  | _ => false

def isIndexedByNumber : Expr σ → Bool
  | constant _ value =>
    match value with
    | .str _ | .bytes _ | .tuple _ => true
    | .none | .ellipsis | .bool _ | .int _ | .float _ | .complex _ _ | .code _ _ => false
  | tuple _ _ => true
  | list _ _ => true
  | comprehension _ _ (.list _) _ => true
  | joined _ _ => true
  | formatted _ _ _ _ => true
  | _ => false

/-- Whether an assertion of the expression holds in any case: a tuple with items. -/
def isFilledTuple : Expr σ → Bool
  | tuple _ items => !items.isEmpty
  | constant _ (.tuple items) => !items.isEmpty
  | _ => false

/-- Whether a pattern can compare with the value: constants, attributes, negative numbers and
complex numbers as they are written. -/
def isPatternValue : Expr σ → Bool
  | constant _ _ => true
  | member _ _ _ => true
  | unary _ .negative operand => operand.constant?.isSome
  | binary _ left _ right => left.isPatternValue && right.constant?.isSome
  | _ => false

end Expr

namespace Pattern

variable {σ : Type}

def isWildcard : Pattern σ → Bool
  | capture _ none none => true
  | _ => false

def isStar : Pattern σ → Bool
  | star _ _ => true
  | _ => false

def isStarWildcard : Pattern σ → Bool
  | star _ none => true
  | _ => false

end Pattern

/-- The documentation string of a body: its first statement, if that is a string. -/
def docString? {σ : Type} : Body σ → Option Constant
  | .expression _ (.constant _ (.str text)) :: _ => some (.str text)
  | _ => none

mutual

def Stmt.annotates {σ : Type} : Stmt σ → Bool
  | .annotate .. => true
  | .forLoop _ _ _ body orElse _ => bodyAnnotates body || bodyAnnotates orElse
  | .whileLoop _ _ body orElse => bodyAnnotates body || bodyAnnotates orElse
  | .branch _ _ body orElse => bodyAnnotates body || bodyAnnotates orElse
  | .withBlock _ _ body _ => bodyAnnotates body
  | .tryBlock _ body handlers orElse finalBody =>
    bodyAnnotates body || handlersAnnotate handlers || bodyAnnotates orElse ||
      bodyAnnotates finalBody
  | .matchCases _ _ cases => casesAnnotate cases
  | _ => false

def bodyAnnotates {σ : Type} : List (Stmt σ) → Bool
  | [] => false
  | s :: ss => s.annotates || bodyAnnotates ss

def handlersAnnotate {σ : Type} : List (Handler (Expr σ) (List (Stmt σ))) → Bool
  | [] => false
  | ⟨_, _, body, _⟩ :: handlers => bodyAnnotates body || handlersAnnotate handlers

def casesAnnotate {σ : Type} : List (Case (Pattern σ) (Expr σ) (List (Stmt σ))) → Bool
  | [] => false
  | ⟨_, _, body⟩ :: cases => bodyAnnotates body || casesAnnotate cases

end

end Bytecode
