import Bytecode.Constant
import Bytecode.Location
import Bytecode.Tree.Operator

/-!
# Syntax trees

Expressions, patterns and statements with their locations. A node that opens a scope of its own
carries an annotation of type `σ`: nothing in a tree as it is read, the number of its scope once
scopes are known.

The parts of a tree that are not expressions themselves, such as parameters and clauses, are
parametric in the type of what stands in them, so that the same shapes hold trees and what is made
from trees.
-/

namespace Bytecode

/-! ### Parts -/

/-- A keyword argument; without a name it is a mapping to be unpacked. -/
structure Keyword (ε : Type) where
  name : Option String
  value : ε
  loc : Location

structure Parameter (ε : Type) where
  name : String
  hint : Option ε
  loc : Location

structure Parameters (ε : Type) where
  positionalOnly : List (Parameter ε) := []
  positional : List (Parameter ε) := []
  variadic : Option (Parameter ε) := none
  keywordOnly : List (Parameter ε) := []
  /-- The defaults of the keyword-only parameters, one for each. -/
  keywordDefaults : List (Option ε) := []
  keywordVariadic : Option (Parameter ε) := none
  defaults : List ε := []

def Parameters.all {ε : Type} (p : Parameters ε) : List (Parameter ε) :=
  p.positionalOnly ++ p.positional ++ p.keywordOnly ++ p.variadic.toList ++
    p.keywordVariadic.toList

structure Generator (ε : Type) where
  target : ε
  iter : ε
  conditions : List ε
  isAsync : Bool

/-- What a comprehension collects, and into what. -/
inductive Element (ε : Type) where
  | list (item : ε)
  | set (item : ε)
  | dict (key value : ε)
  | generator (item : ε)

namespace Element

variable {ε : Type}

def scopeName : Element ε → String
  | list _ => "<listcomp>"
  | set _ => "<setcomp>"
  | dict _ _ => "<dictcomp>"
  | generator _ => "<genexpr>"

def isGenerator : Element ε → Bool
  | generator _ => true
  | _ => false

/-- The item, or the key of a dictionary's item. -/
def first : Element ε → ε
  | list item => item
  | set item => item
  | dict key _ => key
  | generator item => item

end Element

structure WithItem (ε : Type) where
  context : ε
  target : Option ε

/-- An `except` clause. Without a type it handles everything. -/
structure Handler (ε β : Type) where
  type : Option ε
  name : Option String
  body : β
  loc : Location

structure Case (π ε β : Type) where
  pattern : π
  guard : Option ε
  body : β

structure Alias where
  name : String
  asName : Option String
  loc : Location
deriving DecidableEq, Repr

structure FunctionDef (σ ε β : Type) where
  scope : σ
  name : String
  params : Parameters ε
  body : β
  decorators : List ε
  returns : Option ε
  isAsync : Bool

structure ClassDef (σ ε β : Type) where
  scope : σ
  name : String
  bases : List ε
  keywords : List (Keyword ε)
  body : β
  decorators : List ε

/-! ### Trees -/

inductive Expr (σ : Type) where
  | boolOp (loc : Location) (op : BoolOp) (values : List (Expr σ))
  | named (loc : Location) (target value : Expr σ)
  | binary (loc : Location) (left : Expr σ) (op : BinaryOp) (right : Expr σ)
  | unary (loc : Location) (op : UnaryOp) (operand : Expr σ)
  | lambda (loc : Location) (scope : σ) (params : Parameters (Expr σ)) (body : Expr σ)
  | conditional (loc : Location) (test body orElse : Expr σ)
  /-- A dictionary; a value without a key is a mapping to be unpacked. -/
  | dict (loc : Location) (keys : List (Option (Expr σ))) (values : List (Expr σ))
  | set (loc : Location) (items : List (Expr σ))
  | list (loc : Location) (items : List (Expr σ))
  | tuple (loc : Location) (items : List (Expr σ))
  | comprehension (loc : Location) (scope : σ) (element : Element (Expr σ))
      (generators : List (Generator (Expr σ)))
  | await (loc : Location) (value : Expr σ)
  | yield (loc : Location) (value : Option (Expr σ))
  | yieldFrom (loc : Location) (value : Expr σ)
  | compare (loc : Location) (left : Expr σ) (ops : List CompareOp) (comparators : List (Expr σ))
  | call (loc : Location) (func : Expr σ) (args : List (Expr σ))
    (keywords : List (Keyword (Expr σ)))
  | formatted (loc : Location) (value : Expr σ) (conversion : Conversion) (spec : Option (Expr σ))
  | joined (loc : Location) (values : List (Expr σ))
  | constant (loc : Location) (value : Constant)
  | member (loc : Location) (value : Expr σ) (attr : String)
  | subscript (loc : Location) (value index : Expr σ)
  | starred (loc : Location) (value : Expr σ)
  | name (loc : Location) (id : String)
  | slice (loc : Location) (lower upper step : Option (Expr σ))

inductive Pattern (σ : Type) where
  | value (loc : Location) (value : Expr σ)
  | singleton (loc : Location) (value : Constant)
  | sequence (loc : Location) (patterns : List (Pattern σ))
  | mapping (loc : Location) (keys : List (Expr σ)) (patterns : List (Pattern σ))
      (rest : Option String)
  | classPattern (loc : Location) (cls : Expr σ) (patterns : List (Pattern σ)) (attrs : List String)
      (attrPatterns : List (Pattern σ))
  /-- The rest of a sequence; without a name it is not kept. -/
  | star (loc : Location) (name : Option String)
  /-- A capture, of what a pattern matches if there is one. -/
  | capture (loc : Location) (pattern : Option (Pattern σ)) (name : Option String)
  | alternatives (loc : Location) (patterns : List (Pattern σ))

inductive Stmt (σ : Type) where
  | functionDef (loc : Location) (definition : FunctionDef σ (Expr σ) (List (Stmt σ)))
  | classDef (loc : Location) (definition : ClassDef σ (Expr σ) (List (Stmt σ)))
  | returns (loc : Location) (value : Option (Expr σ))
  | delete (loc : Location) (targets : List (Expr σ))
  | assign (loc : Location) (targets : List (Expr σ)) (value : Expr σ)
  | augment (loc : Location) (target : Expr σ) (op : BinaryOp) (value : Expr σ)
  /-- An annotation, with a value or without. It is simple if the target is a bare name. -/
  | annotate (loc : Location) (target hint : Expr σ) (value : Option (Expr σ)) (simple : Bool)
  | forLoop (loc : Location) (target iter : Expr σ) (body orElse : List (Stmt σ)) (isAsync : Bool)
  | whileLoop (loc : Location) (test : Expr σ) (body orElse : List (Stmt σ))
  | branch (loc : Location) (test : Expr σ) (body orElse : List (Stmt σ))
  | withBlock (loc : Location) (items : List (WithItem (Expr σ))) (body : List (Stmt σ))
      (isAsync : Bool)
  | matchCases (loc : Location) (subject : Expr σ)
      (cases : List (Case (Pattern σ) (Expr σ) (List (Stmt σ))))
  | raise (loc : Location) (exception cause : Option (Expr σ))
  | tryBlock (loc : Location) (body : List (Stmt σ))
      (handlers : List (Handler (Expr σ) (List (Stmt σ)))) (orElse finalBody : List (Stmt σ))
  | assertion (loc : Location) (test : Expr σ) (message : Option (Expr σ))
  | importModules (loc : Location) (names : List Alias)
  | importFrom (loc : Location) (module : Option String) (names : List Alias) (level : Nat)
  | globals (loc : Location) (names : List String)
  | nonlocals (loc : Location) (names : List String)
  | expression (loc : Location) (value : Expr σ)
  | pass (loc : Location)
  | breakLoop (loc : Location)
  | continueLoop (loc : Location)

abbrev Body (σ : Type) := List (Stmt σ)

/-! ### Locations -/

def Expr.loc {σ : Type} : Expr σ → Location
  | boolOp loc .. | named loc .. | binary loc .. | unary loc .. | lambda loc .. | conditional loc ..
  | dict loc .. | set loc _ | list loc _ | tuple loc _ | comprehension loc .. | await loc _
  | yield loc _ | yieldFrom loc _ | compare loc .. | call loc .. | formatted loc .. | joined loc _
  | constant loc _ | member loc .. | subscript loc .. | starred loc _ | name loc _
  | slice loc .. => loc

def Pattern.loc {σ : Type} : Pattern σ → Location
  | value loc _ | singleton loc _ | sequence loc _ | mapping loc .. | classPattern loc ..
  | star loc _ | capture loc .. | alternatives loc _ => loc

def Stmt.loc {σ : Type} : Stmt σ → Location
  | functionDef loc _ | classDef loc _ | returns loc _ | delete loc _ | assign loc ..
  | augment loc .. | annotate loc .. | forLoop loc .. | whileLoop loc .. | branch loc ..
  | withBlock loc .. | matchCases loc .. | raise loc .. | tryBlock loc .. | assertion loc ..
  | importModules loc _ | importFrom loc .. | globals loc _ | nonlocals loc _ | expression loc _
  | pass loc | breakLoop loc | continueLoop loc => loc

end Bytecode
