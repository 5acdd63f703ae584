import Bytecode.Scope.Collect

/-!
# Resolution of names

A name stands for a variable of its scope if the scope gives it a value, and else for the variable
of a function around the scope if one of them gives it a value. Two sweeps over the scopes find
this out: from the outside inwards with the names that functions around a scope have, and from the
inside outwards with the names that scopes inside need.
-/

namespace Bytecode

namespace Symbol

/-- What a name stands for, by its use and by the names that functions around the scope have. -/
def resolve (outer : List String) (x : Symbol) : Except SourceFault Resolution :=
  if x.usage.declaredGlobal then
    if x.usage.declaredNonlocal then .error (.nonlocalAndGlobal x.name) else .ok .declaredGlobal
  else if x.usage.declaredNonlocal then
    if outer.contains x.name then .ok .free else .error (.noNonlocalBinding x.name)
  else if x.usage.isBinding then .ok .localName
  else if outer.contains x.name then .ok .free
  else .ok .defaultGlobal

def resolved (file : String) (outer : List String) (x : Symbol) : Result Symbol :=
  match x.resolve outer with
  | .ok r => .ok { x with resolution := r }
  | .error fault => .error (.source fault file x.loc)

end Symbol

namespace Scope

variable (s : Scope)

def localNames : List String :=
  (s.symbols.filter (·.resolution = .localName)).map (·.name)

/-- The names that scopes inside can take from around them, where `outer` are those of the functions
around this scope. A class offers nothing but itself. -/
def offered (outer : List String) : List String :=
  match s.kind with
  | .module => outer
  | .classBody => "__class__" :: outer
  | .function => s.localNames ++ outer

def ownFree : List String :=
  (s.symbols.filter (·.resolution = .free)).map (·.name)

/-- Of the names that scopes inside need, those that this scope does not have for them. -/
def passedOn (needed : List String) : List String :=
  match s.kind with
  | .module => needed
  | .classBody => needed.filter (· ≠ "__class__")
  | .function => needed.filter fun n => !s.localNames.contains n

/-- A name of the scope, given what scopes inside need. A variable they need is a cell; a class does
not keep the name for them. -/
def settleSymbol (needed : List String) (x : Symbol) : Symbol :=
  if !needed.contains x.name then x
  else match s.kind with
    | .module => x
    | .classBody =>
      if x.name ≠ "__class__" && (x.usage.isBinding || x.usage.declaredGlobal) then
        { x with usage := { x.usage with freeThroughClass := true } }
      else x
    | .function => if x.resolution = .localName then { x with resolution := .cell } else x

/-- The names that the scope does not use and only hands on to scopes inside it. -/
def handedThrough (outer needed : List String) : List String :=
  sortNames ((s.passedOn needed).eraseDups.filter fun n =>
    (s.lookup n).isNone && outer.contains n)

def settle (outer needed : List String) : Scope :=
  { s with
    symbols := s.symbols.map (s.settleSymbol needed) ++
      (s.handedThrough outer needed).map fun n => { name := n, resolution := .free, loc := s.loc }
    needsClassCell := s.kind = .classBody && needed.contains "__class__" }

def needs (needed : List String) : List String :=
  (s.ownFree ++ s.passedOn needed).eraseDups

end Scope

structure PlacedScope where
  scope : Scope
  outer : List String

/-- What each scope can take from around it, and what its names stand for. A scope comes after the
one around it. -/
def placeScopes (file : String) (scopes : List Scope) : Result (Array PlacedScope) :=
  scopes.foldlM (fun placed s => do
    let outer := match s.parent.bind (placed[·]?) with
      | some p => p.scope.offered p.outer
      | none => []
    let symbols ← s.symbols.mapM (·.resolved file outer)
    return placed.push ⟨{ s with symbols := symbols }, outer⟩) #[]

/-- The scopes from a given number on once they are settled, with the names that each needs. -/
structure SettledScopes where
  scopes : List Scope := []
  needs : List (ScopeId × List String) := []

namespace SettledScopes

def neededBy (t : SettledScopes) (s : Scope) : List String :=
  s.children.flatMap fun child => (t.needs.lookup child).getD []

def add (placed : PlacedScope × ScopeId) (t : SettledScopes) : SettledScopes :=
  let (p, id) := placed
  let needed := t.neededBy p.scope
  ⟨p.scope.settle p.outer needed :: t.scopes, (id, p.scope.needs needed) :: t.needs⟩

end SettledScopes

def resolveScopes (file : String) (scopes : ScopeTable) : Result ScopeTable := do
  let placed ← placeScopes file scopes.toList
  return (placed.toList.zipIdx.foldr SettledScopes.add {}).scopes.toArray

structure ScopedModule where
  body : Body ScopeId
  scopes : ScopeTable

def ScopedModule.ofBody (file : String) (body : Body Unit) : Result ScopedModule := do
  let (body, scopes) ← collect file body
  return ⟨body, ← resolveScopes file scopes⟩

end Bytecode
