import Bytecode.Graph.Depth

/-!
# Frames

What a code object says about its scope besides the instructions, and the slots of the scope's
frame. The locals come first, parameters at their start; then the cells that are no locals, and the
free variables. A cell that is also a local has the slot of the local.
-/

namespace Bytecode

structure Frame where
  name : String := ""
  qualifiedName : String := ""
  file : String := ""
  firstLine : Int := 1
  positionalCount : Nat := 0
  positionalOnlyCount : Nat := 0
  keywordOnlyCount : Nat := 0
  flags : CodeFlags := {}
  names : List String := []
  locals : List String := []
  cells : List String := []
  frees : List String := []
deriving DecidableEq, Repr

namespace Frame

variable (f : Frame)

/-- The number of parameters, those that collect arguments included. -/
def paramCount : Nat :=
  f.positionalCount + f.keywordOnlyCount + (if f.flags.varArgs then 1 else 0) +
    (if f.flags.varKeywords then 1 else 0)

def paramKind (slot : Nat) : SlotKind :=
  let named := f.positionalCount + f.keywordOnlyCount
  if slot < f.positionalOnlyCount then { positional := true }
  else if slot < f.positionalCount then { positional := true, keyword := true }
  else if slot < named then { keyword := true }
  else if slot = named ∧ f.flags.varArgs then { positional := true, variadic := true }
  else { keyword := true, variadic := true }

def localKind (slot : Nat) (name : String) : SlotKind :=
  let kind := if slot < f.paramCount then f.paramKind slot else {}
  { kind with isLocal := true, isCell := f.cells.contains name }

def ownCells : List String :=
  f.cells.filter fun c => !f.locals.contains c

def slotNames : List String :=
  f.locals ++ f.ownCells ++ f.frees

def slotKinds : List SlotKind :=
  f.locals.mapIdx f.localKind ++ f.ownCells.map (fun _ => { isCell := true }) ++
    f.frees.map fun _ => { isFree := true }

/-- The slots of cells, where `next` is the first slot not in use. -/
def cellSlotsFrom (next : Nat) : List String → List Nat
  | [] => []
  | c :: cs =>
    match f.locals.idxOf? c with
    | some slot => slot :: cellSlotsFrom next cs
    | none => next :: cellSlotsFrom (next + 1) cs

def cellSlots : List Nat :=
  let free := f.locals.length + f.ownCells.length
  f.cellSlotsFrom f.locals.length f.cells ++ (List.range f.frees.length).map (free + ·)

/-- The instructions that set up the frame: the closure is copied, cells are made by increasing
slot, and a scope that can be suspended becomes a generator. -/
def setup : List Instr :=
  let copy :=
    if f.frees.isEmpty then []
    else [{ op := .real .copyFreeVars, arg := f.frees.length : Instr }]
  let slots := f.cellSlots
  let cells := (List.range f.cells.length).mergeSort fun a b => slots.getD a 0 ≤ slots.getD b 0
  let make := cells.map fun c => { op := .real .makeCell, arg := c : Instr }
  let suspend :=
    if f.flags.suspends then
      [{ op := .real .returnGenerator, loc := .ofLine f.firstLine : Instr },
        { op := .real .popTop }]
    else []
  copy ++ make ++ suspend

end Frame

end Bytecode
