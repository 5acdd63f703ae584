import Bytecode.Lowering.Gen

/-!
# Names

How a name is loaded, stored and deleted depends on what it stands for in its scope and on the kind
of the unit.
-/

namespace Bytecode

inductive NameAccess where
  | slot
  | global
  | cell
  | named
deriving DecidableEq, Repr

/-- Where a name of a unit is kept. The name is in its full form. -/
def UnitInfo.access (u : UnitInfo) (name : String) : NameAccess :=
  match u.scope.resolution? name with
  | some .free => .cell
  | some .cell => .cell
  | some .declaredGlobal => .global
  | some .localName => if u.kind.isFunctionLike then .slot else .named
  | some .defaultGlobal => if u.kind.isFunctionLike then .global else .named
  | none => .named

namespace Gen

def debugName : String := "__debug__"

def loadName (name : String) (loc : Location) : Gen Unit := do
  if name = debugName then emitConst (.bool !(← stripsAsserts)) loc
  else
    let full ← mangled name
    match (← info).access full with
    | .slot => emit .loadFast (← localIndex full) loc
    | .global => emit .loadGlobal (2 * (← nameIndex full)) loc
    | .cell =>
      let op := if (← kind) = .classBody then .loadClassderef else .loadDeref
      emit op (← cellIndex full) loc
    | .named => emitName .loadName full loc

def change : TargetUse → NameAccess → Opcode
  | .store, .slot => .storeFast
  | .store, .global => .storeGlobal
  | .store, .cell => .storeDeref
  | .store, .named => .storeName
  | .delete, .slot => .deleteFast
  | .delete, .global => .deleteGlobal
  | .delete, .cell => .deleteDeref
  | .delete, .named => .deleteName

def changeName (use : TargetUse) (name : String) (loc : Location) : Gen Unit := do
  if name = debugName then
    refuse (match use with | .store => .assignDebug | .delete => .deleteDebug) loc
  else
    let full ← mangled name
    match (← info).access full with
    | .slot => emit (change use .slot) (← localIndex full) loc
    | .global => emitName (change use .global) full loc
    | .cell => emit (change use .cell) (← cellIndex full) loc
    | .named => emitName (change use .named) full loc

abbrev storeName := changeName .store

abbrev deleteName := changeName .delete

def unbindName (name : String) (loc : Location) : Gen Unit := do
  emitNone loc
  storeName name loc
  deleteName name loc

def isImported (name : String) : Gen Bool :=
  return (((← read).scopes.scope 0).lookup name).any (·.usage.imported)

end Gen

end Bytecode
