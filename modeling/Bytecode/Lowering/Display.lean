import Bytecode.Lowering.ExprCode

/-!
# Displays

Lists, tuples, sets, dictionaries and formatted strings. A display with many items is built item by
item, so that the stack does not grow with it.
-/

namespace Bytecode

open Gen

/-- The most values that a display or a call puts on the stack at once. -/
def stackUseLimit : Nat := 30

/-! ### Sequences -/

inductive SequenceKind where
  | list
  | tuple
  | set
deriving DecidableEq, Repr

namespace SequenceKind

/-- How an unfinished sequence is begun. A tuple is a list until it is finished. -/
def begin : SequenceKind → Opcode
  | list => .buildList
  | tuple => .buildList
  | set => .buildSet

def build : SequenceKind → Opcode
  | list => .buildList
  | tuple => .buildTuple
  | set => .buildSet

def add : SequenceKind → Opcode
  | list => .listAppend
  | tuple => .listAppend
  | set => .setAdd

def extend : SequenceKind → Opcode
  | list => .listExtend
  | tuple => .listExtend
  | set => .setUpdate

def finish (k : SequenceKind) (loc : Location) : Gen Unit := do
  if k = .tuple then emitIntrinsic .listToTuple loc

end SequenceKind

/-- The items as one constant, if there are more than two and all of them are constants. Items of a
set are not in order. -/
def foldedItems? (kind : SequenceKind) (items : List ExprCode) : Option Constant :=
  if kind ≠ .set && 2 < items.length then (items.mapM ExprCode.constant?).map .tuple else none

def addItem (kind : SequenceKind) (loc : Location) (item : ExprCode) : Gen Unit := do
  item.loadUnderStar
  emit (if item.isStarred then kind.extend else kind.add) 1 loc

/-- A sequence of the given items after as many values as are on the stack already. -/
def buildSequence (kind : SequenceKind) (pushed : Nat) (items : List ExprCode) (loc : Location) :
    Gen Unit :=
  match foldedItems? kind items with
  | some folded => do
    if kind = .tuple && pushed = 0 then emitConst folded loc
    else
      emit kind.begin pushed loc
      emitConst folded loc
      emit kind.extend 1 loc
      kind.finish loc
  | none => do
    let big : Bool := stackUseLimit < items.length + pushed
    if !big && !items.any (·.isStarred) then
      loadAll items
      emit kind.build (items.length + pushed) loc
    else
      let atOnce := if big then [] else items.takeWhile (!·.isStarred)
      loadAll atOnce
      emit kind.begin (atOnce.length + pushed) loc
      (items.drop atOnce.length).forM (addItem kind loc)
      kind.finish loc

/-! ### Mappings -/

structure KeyCode where
  constant? : Option Constant
  load : Gen Unit

inductive MappingPart where
  | items (items : List (KeyCode × ExprCode))
  | unpacked (value : ExprCode)

def itemsPart (items : List (KeyCode × ExprCode)) : List MappingPart :=
  if items.isEmpty then [] else [.items items]

/-- The parts of a mapping, where `waiting` are items that belong to no part yet. A part is full
once it has more items than the limit says. -/
def mappingParts (limit : Option Nat) (waiting : List (KeyCode × ExprCode)) :
    List (Option KeyCode × ExprCode) → List MappingPart
  | [] => itemsPart waiting
  | (none, value) :: rest => itemsPart waiting ++ .unpacked value :: mappingParts limit [] rest
  | (some key, value) :: rest =>
    if limit.any (· < waiting.length) then
      .items (waiting ++ [(key, value)]) :: mappingParts limit [] rest
    else mappingParts limit (waiting ++ [(key, value)]) rest

/-- A mapping of some items, with the keys as one constant if they are known and not too many. -/
def buildItems (items : List (KeyCode × ExprCode)) (loc : Location) : Gen Unit := do
  let n := items.length
  let big : Bool := stackUseLimit < 2 * n
  match if 1 < n && !big then items.mapM (fun item => item.1.constant?) else none with
  | some keys =>
    loadAll (items.map (·.2))
    emitConst (.tuple keys) loc
    emit .buildConstKeyMap n loc
  | none =>
    if big then emit .buildMap 0 loc
    items.forM fun (key, value) => do
      key.load
      value.load
      if big then emit .mapAdd 1 loc
    if !big then emit .buildMap n loc

def mergePart (merge : Opcode) (loc : Location) (part : MappingPart) : Gen Unit := do
  match part with
  | .items items => buildItems items loc
  | .unpacked value => value.load
  emit merge 1 loc

def buildMapping (merge : Opcode) (parts : List MappingPart) (loc : Location) : Gen Unit :=
  match parts with
  | .items items :: rest => do
    buildItems items loc
    rest.forM (mergePart merge loc)
  | parts => do
    emit .buildMap 0 loc
    parts.forM (mergePart merge loc)

def loadDict (loc : Location) (keys : List (Option ExprCode)) (values : List ExprCode) :
    Gen Unit := do
  if keys.length ≠ values.length then fault .mismatchedKeys
  let keys := keys.map (·.map fun k => KeyCode.mk k.constant? k.load)
  buildMapping .dictUpdate (mappingParts (some 15) [] (keys.zip values)) loc

/-! ### Strings -/

def loadJoined (loc : Location) (values : List ExprCode) : Gen Unit := do
  if stackUseLimit < values.length then
    emitConst (.str "") loc
    emitAttr "join" true loc
    emit .buildList 0 loc
    values.forM fun value => do
      value.load
      emit .listAppend 1 loc
    emit .call 1 loc
  else
    loadAll values
    if values.length ≠ 1 then emit .buildString values.length loc

def loadFormatted (loc : Location) (value : ExprCode) (conversion : Conversion)
    (spec : Option ExprCode) : Gen Unit := do
  value.load
  spec.forM (·.load)
  emit .formatValue (conversion.code + if spec.isSome then 4 else 0) loc

def loadSlice (loc : Location) (lower upper step : Option ExprCode) : Gen Unit := do
  loadOptional lower loc
  loadOptional upper loc
  step.forM (·.load)
  emit .buildSlice (if step.isSome then 3 else 2) loc

end Bytecode
