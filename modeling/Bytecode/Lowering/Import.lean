import Bytecode.Lowering.Names
import Bytecode.Scope.Collect

/-!
# Imports
-/

namespace Bytecode

open Gen

def innerParts (name : String) : List String :=
  (name.splitOn ".").drop 1

def descend (loc : Location) : List String → Gen Unit
  | [] => pure ()
  | [part] => emitFullName .importFrom part loc
  | part :: rest => do
    emitFullName .importFrom part loc
    emit .swap 2 loc
    emit .popTop 0 loc
    descend loc rest

/-- Imports a module: under a name of its own, or as its outermost part. -/
def lowerImport (loc : Location) (a : Alias) : Gen Unit := do
  emitConst (.int 0) loc
  emitNone loc
  emitFullName .importName a.name loc
  match a.asName with
  | none => storeName (Collect.headPart a.name) loc
  | some asName =>
    let parts := innerParts a.name
    descend loc parts
    storeName asName loc
    if !parts.isEmpty then emit .popTop 0 loc

def importMember (loc : Location) (a : Alias) : Gen Unit := do
  emitFullName .importFrom a.name loc
  storeName (a.asName.getD a.name) loc

def lowerImportFrom (loc : Location) (module : Option String) (names : List Alias) (level : Nat) :
    Gen Unit := do
  emitConst (.int level) loc
  emitConst (.tuple (names.map fun a => .str a.name)) loc
  emitFullName .importName (module.getD "") loc
  if names.head?.any (·.name.startsWith "*") then
    emitIntrinsic .importStar loc
    emit .popTop 0 .none
  else
    names.forM (importMember loc)
    emit .popTop 0 loc

end Bytecode
