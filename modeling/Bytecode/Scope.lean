import Bytecode.Code
import Bytecode.Location

/-!
# Scopes

A scope is a module, a class body or a function (a lambda or a comprehension counts as one), with
the names that occur in it. The scopes of a module are numbered in the order in which they open, so
that a scope has a smaller number than those inside it.
-/

namespace Bytecode

abbrev ScopeId := Nat

inductive ScopeKind where
  | module
  | classBody
  | function
deriving DecidableEq, Repr

inductive Resolution where
  | localName
  /-- A variable of the scope that scopes inside it share. -/
  | cell
  /-- A variable of a function around the scope. -/
  | free
  | declaredGlobal
  /-- A name that no function around the scope has. -/
  | defaultGlobal
deriving DecidableEq, Repr

structure Usage where
  declaredGlobal : Bool := false
  assigned : Bool := false
  parameter : Bool := false
  declaredNonlocal : Bool := false
  used : Bool := false
  /-- A name of a class body that scopes inside it take from around the class. -/
  freeThroughClass : Bool := false
  imported : Bool := false
  annotated : Bool := false
deriving DecidableEq, Repr

namespace Usage

variable (u v : Usage)

def toBits : Nat :=
  bitAt 0 u.declaredGlobal + bitAt 1 u.assigned + bitAt 2 u.parameter +
    bitAt 3 u.declaredNonlocal + bitAt 4 u.used + bitAt 5 u.freeThroughClass +
    bitAt 6 u.imported + bitAt 7 u.annotated

def union : Usage where
  declaredGlobal := u.declaredGlobal || v.declaredGlobal
  assigned := u.assigned || v.assigned
  parameter := u.parameter || v.parameter
  declaredNonlocal := u.declaredNonlocal || v.declaredNonlocal
  used := u.used || v.used
  freeThroughClass := u.freeThroughClass || v.freeThroughClass
  imported := u.imported || v.imported
  annotated := u.annotated || v.annotated

def isBinding : Bool :=
  u.assigned || u.parameter || u.imported

end Usage

structure Symbol where
  name : String
  resolution : Resolution := .defaultGlobal
  usage : Usage := {}
  loc : Location
deriving DecidableEq, Repr

structure Scope where
  name : String
  kind : ScopeKind
  loc : Location
  /-- The names in the order in which they occur first. -/
  symbols : List Symbol := []
  params : List String := []
  children : List ScopeId := []
  parent : Option ScopeId := none
  isGenerator : Bool := false
  isCoroutine : Bool := false
  isComprehension : Bool := false
  isNested : Bool := false
  /-- Whether scopes inside a class body refer to the class. -/
  needsClassCell : Bool := false
deriving DecidableEq, Repr

def sortNames (names : List String) : List String :=
  names.mergeSort fun a b => !decide (b < a)

namespace Scope

def root : Scope where
  name := "top"
  kind := .module
  loc := .none

instance : Inhabited Scope := ⟨root⟩

variable (s : Scope)

def lookup (name : String) : Option Symbol :=
  s.symbols.find? (·.name = name)

def resolution? (name : String) : Option Resolution :=
  (s.lookup name).map (·.resolution)

def isFunction : Bool :=
  s.kind = .function

def namesWith (r : Resolution) : List String :=
  sortNames ((s.symbols.filter (·.resolution = r)).map (·.name))

/-- The names that the scope takes from around it, sorted; names of a class body that scopes inside
it take from around the class are among them. -/
def freeNames : List String :=
  sortNames
    ((s.symbols.filter fun x => x.resolution = .free || x.usage.freeThroughClass).map (·.name))

def record (name : String) (usage : Usage) (loc : Location) : Scope :=
  let symbols :=
    if (s.lookup name).isSome then
      s.symbols.map fun x =>
        if x.name = name then { x with usage := x.usage.union usage } else x
    else s.symbols ++ [{ name := name, usage := usage, loc := loc }]
  { s with
    symbols := symbols
    params := if usage.parameter then s.params ++ [name] else s.params }

end Scope

/-- What lowering reads of a scope. It does not tell in which order the names stand. -/
structure ScopeView where
  lookup : String → Option Symbol
  cells : List String
  freeNames : List String
  params : List String
  isGenerator : Bool
  isCoroutine : Bool
  isNested : Bool
  needsClassCell : Bool

def Scope.view (s : Scope) : ScopeView :=
  { s with lookup := s.lookup, cells := s.namesWith .cell, freeNames := s.freeNames }

namespace ScopeView

def root : ScopeView :=
  Scope.root.view

def resolution? (v : ScopeView) (name : String) : Option Resolution :=
  (v.lookup name).map (·.resolution)

end ScopeView

abbrev ScopeViews := Array ScopeView

def ScopeViews.scope (t : ScopeViews) (id : ScopeId) : ScopeView :=
  t[id]?.getD .root

/-- The scopes of a module by number. The module itself has number zero. -/
abbrev ScopeTable := Array Scope

namespace ScopeTable

def scope (t : ScopeTable) (id : ScopeId) : Scope :=
  t[id]?.getD .root

instance : Coe ScopeTable ScopeViews :=
  ⟨fun t => t.map Scope.view⟩

end ScopeTable

end Bytecode
