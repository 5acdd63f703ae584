import Bytecode.Lowering.ExprCode

/-!
# Targets

Attributes, subscripts and the unpacking of sequences.
-/

namespace Bytecode

open Gen

/-- For an attribute that stands on a later line than the start of the expression, the place of the
attribute's name. The expression with the attribute ends at `whole`. -/
def Location.atAttribute (loc whole : Location) (attr : String) : Location :=
  if loc.line = whole.endLine then loc
  else
    let line := whole.endLine
    let endLine := max loc.endLine line
    let fits : Bool := attr.length ≤ whole.endCol
    let col := if fits then whole.endCol - attr.length else -1
    let endCol := if fits then loc.endCol else -1
    ⟨line, col, endLine, if line = endLine then max endCol col else endCol⟩

/-! ### Names -/

def nameCode (loc : Location) (id : String) : ExprCode :=
  { ExprCode.ofLoad (.name loc id) (loadName id loc) with
    store := storeName id loc
    delete := deleteName id loc
    update := some ⟨loadName id loc, storeName id loc⟩ }

/-! ### Attributes -/

def memberCode (source : Expr ScopeId) (value : ExprCode) (attr : String) : ExprCode :=
  let loc := source.loc
  let attrLoc := loc.atAttribute loc attr
  let load (asMethod : Bool) : Gen Unit := do
    value.load
    emitAttr attr asMethod attrLoc
  { ExprCode.ofLoad source (load false) with
    store := do
      value.load
      emitFullName .storeAttr attr attrLoc
    delete := do
      value.load
      emitFullName .deleteAttr attr attrLoc
    loadMethod := some (load true)
    update := some {
      read := do
        value.load
        emit .copy 1 loc
        emitAttr attr false loc
      write := do
        emit .swap 2 loc
        emitFullName .storeAttr attr loc }
    probeTarget := some value.probe }

/-! ### Subscripts -/

/-- Warns of a subscript of a value without items, or by an index of a wrong type. -/
def warnSubscript (value index : ExprCode) (loc : Location) : Gen Unit := do
  match value.source.typeName? with
  | none => pure ()
  | some type =>
    if value.source.isUnsubscriptable then warn (.notSubscriptable type) loc
    match index.source.typeName? with
    | none => pure ()
    | some indexType =>
      if value.source.isIndexedByNumber && indexType ≠ "int" && indexType ≠ "bool" then
        warn (.badIndex type indexType) loc

def updateSubscript (value index : ExprCode) (loc : Location) : UpdateCode :=
  match index.loadBounds with
  | some loadBounds => {
      read := do
        value.load
        loadBounds
        emit .copy 3 loc
        emit .copy 3 loc
        emit .copy 3 loc
        emit .binarySlice 0 loc
      write := do
        emit .swap 4 loc
        emit .swap 3 loc
        emit .swap 2 loc
        emit .storeSlice 0 loc }
  | none => {
      read := do
        value.load
        index.load
        emit .copy 2 loc
        emit .copy 2 loc
        emit .binarySubscr 0 loc
      write := do
        emit .swap 3 loc
        emit .swap 2 loc
        emit .storeSubscr 0 loc }

/-- Accesses a part of a value. Slices without a step have instructions of their own. -/
def accessPart (value index : ExprCode) (bySlice byIndex : Opcode) (loc : Location) : Gen Unit := do
  value.load
  match index.loadBounds with
  | some loadBounds =>
    loadBounds
    emit bySlice 0 loc
  | none =>
    index.load
    emit byIndex 0 loc

def subscriptCode (source : Expr ScopeId) (value index : ExprCode) : ExprCode :=
  let loc := source.loc
  let load : Gen Unit := do
    warnSubscript value index loc
    accessPart value index .binarySlice .binarySubscr loc
  { ExprCode.ofLoad source load with
    store := accessPart value index .storeSlice .storeSubscr loc
    delete := do
      value.load
      index.load
      emit .deleteSubscr 0 loc
    update := some (updateSubscript value index loc)
    probeTarget := some do
      value.probe
      index.probeIndex }

def sliceCode (source : Expr ScopeId) (load : Gen Unit) (lower upper step : Option ExprCode) :
    ExprCode :=
  { ExprCode.ofLoad source load with
    loadBounds :=
      if step.isNone then
        some do
          loadOptional lower source.loc
          loadOptional upper source.loc
      else none
    probeIndex := do
      lower.forM (·.probe)
      upper.forM (·.probe)
      step.forM (·.probe) }

/-! ### Sequences -/

/-- The most targets that can come before a target with a star, and those that can come after. -/
def maxBeforeStar : Nat := 0x100

def maxAfterStar : Nat := 0x7FFFFF

def unpackOperand (before after : Nat) : Nat :=
  before + 0x100 * after

def positions {α : Type} (p : α → Bool) (xs : List α) : List Nat :=
  (xs.zipIdx.filter (p ·.1)).map (·.2)

/-- Assigns the items of the value on top of the stack to targets, at most one of them with a
star. -/
def storeSequence (items : List ExprCode) (loc : Location) : Gen Unit := do
  let locAt (i : Nat) : Location := (items[i]?.map (·.loc)).getD .none
  match positions (·.isStarred) items with
  | [] => emit .unpackSequence items.length loc
  | star :: more =>
    let after := items.length - star - 1
    if maxBeforeStar ≤ star || maxAfterStar ≤ after then
      refuse .starredTargetTooLate (locAt star)
    match more with
    | second :: _ => refuse .twoStarredTargets (locAt second)
    | [] => emit .unpackEx (unpackOperand star after) loc
  items.forM (·.storeUnderStar)

def sequenceCode (source : Expr ScopeId) (load : Gen Unit) (items : List ExprCode) : ExprCode :=
  { ExprCode.ofLoad source load with
    store := storeSequence items source.loc
    delete := items.forM (·.delete)
    loadOnly := match items with
      | [item] => if item.isStarred then none else some item.load
      | _ => none }

/-- The code of a tuple. As an index, its items are indices. -/
def tupleCode (source : Expr ScopeId) (load : Gen Unit) (items : List ExprCode) : ExprCode :=
  { sequenceCode source load items with
    probeIndex := items.forM (·.probeIndex) }

/-- The code of an expression with a star, which only a sequence or a call takes. -/
def starredCode (source : Expr ScopeId) (value : ExprCode) : ExprCode :=
  { ExprCode.ofLoad source (refuse .starredHere source.loc) with
    store := refuse .starredTarget source.loc
    delete := refuse .starredHere source.loc
    starred := some ⟨value.load, value.store⟩ }

end Bytecode
