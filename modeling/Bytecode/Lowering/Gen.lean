import Bytecode.Assembly
import Bytecode.Graph.Optimize
import Bytecode.Operation.Operand
import Bytecode.Scope
import Bytecode.Scope.Mangle

/-!
# Generation of code

Every scope is lowered to a unit: a graph with the tables that its instructions refer to. What is
fixed when a unit is opened stands in `UnitInfo`, and what grows while instructions are added stands
in `UnitState`. Code objects of finished units are entries of one code table.
-/

namespace Bytecode

inductive UnitKind where
  | module
  | classBody
  | function
  | asyncFunction
  | lambda
  | comprehension
deriving DecidableEq, Repr

namespace UnitKind

def isFunctionLike : UnitKind → Bool
  | module => false
  | classBody => false
  | _ => true

def canAwait : UnitKind → Bool
  | asyncFunction => true
  | comprehension => true
  | _ => false

def storesAnnotations (k : UnitKind) : Bool :=
  !k.isFunctionLike

end UnitKind

structure UnitInfo where
  kind : UnitKind
  scope : ScopeView
  name : String
  qualifiedName : String
  className : Option String := none
  firstLine : Int := 1
  positionalCount : Nat := 0
  positionalOnlyCount : Nat := 0
  keywordOnlyCount : Nat := 0
  flags : CodeFlags := {}

namespace UnitInfo

variable (u : UnitInfo)

def cells : List String :=
  (if u.scope.needsClassCell then ["__class__"] else []) ++ u.scope.cells

def frees : List String :=
  u.scope.freeNames

end UnitInfo

structure UnitState where
  graph : Graph := {}
  constants : List Constant := []
  names : List String := []
  /-- The parameters, and then other variables by their first use. -/
  locals : List String := []

def intern {α : Type} [DecidableEq α] (xs : List α) (x : α) : List α × Nat :=
  match xs.idxOf? x with
  | some i => (xs, i)
  | none => (xs ++ [x], xs.length)

structure GenContext where
  options : CompileOptions
  scopes : ScopeViews
  unit : UnitInfo

structure GenState where
  unit : UnitState := {}
  codes : Array CodeObject := #[]
  warnings : List Warning := []

abbrev Gen := ReaderT GenContext (StateT GenState (Except CompileError))

namespace Gen

/-! ### Stops and warnings -/

def fault {α : Type} (f : Fault) : Gen α :=
  throw (.internal f)

def exceed {α : Type} (l : Limit) : Gen α :=
  throw (.limit l)

def refuse {α : Type} (f : SourceFault) (loc : Location) : Gen α := do
  throw (.source f (← read).options.file loc)

def warn (c : Caution) (loc : Location) : Gen Unit := do
  let options := (← read).options
  let w : Warning := ⟨c, options.file, loc⟩
  if options.warningsAsErrors then throw w.toError
  else modify fun s => { s with warnings := s.warnings ++ [w] }

/-! ### The unit -/

def info : Gen UnitInfo :=
  return (← read).unit

def kind : Gen UnitKind :=
  return (← info).kind

def mangled (name : String) : Gen String :=
  return mangle (← info).className name

def defersAnnotations : Gen Bool :=
  return (← read).options.features.annotations

def stripsAsserts : Gen Bool :=
  return (← read).options.optimize.stripsAsserts

def modifyUnit (f : UnitState → UnitState) : Gen Unit :=
  modify fun s => { s with unit := f s.unit }

/-! ### Instructions -/

def editGraph (f : Graph → Result Graph) : Gen Unit := do
  let g ← f (← get).unit.graph
  modifyUnit fun u => { u with graph := g }

def emit (op : Opcode) (arg : Nat) (loc : Location) : Gen Unit :=
  editGraph (·.addOp op arg loc)

def emitPseudo (op : PseudoOp) (arg : Nat) (loc : Location) : Gen Unit :=
  editGraph (·.addOp op arg loc)

def emitJump (op : Operation) (label : Label) (loc : Location) : Gen Unit :=
  editGraph (·.addJump op label loc)

def newLabel : Gen Label := do
  let (g, label) := (← get).unit.graph.addLabel
  modifyUnit fun u => { u with graph := g }
  return label

def bindLabel (label : Label) : Gen Unit :=
  editGraph (·.bindLabel label)

def popBlock (loc : Location) : Gen Unit :=
  emitPseudo .popBlock 0 loc

def emitIntrinsic (i : Intrinsic) (loc : Location) : Gen Unit :=
  emit .callIntrinsic1 i.code loc

/-! ### Tables -/

def constantIndex (c : Constant) : Gen Nat := do
  let (constants, i) := intern (← get).unit.constants c
  modifyUnit fun u => { u with constants := constants }
  return i

def nameIndex (name : String) : Gen Nat := do
  let (names, i) := intern (← get).unit.names name
  modifyUnit fun u => { u with names := names }
  return i

def localIndex (name : String) : Gen Nat := do
  let (locals, i) := intern (← get).unit.locals name
  modifyUnit fun u => { u with locals := locals }
  return i

/-- The number of a cell or free variable; the cells come first. -/
def cellIndex (name : String) : Gen Nat := do
  let u ← info
  match (u.cells ++ u.frees).idxOf? name with
  | some i => return i
  | none => fault (.notClosureVariable name u.qualifiedName)

def emitConst (c : Constant) (loc : Location) : Gen Unit := do
  emit .loadConst (← constantIndex c) loc

def emitNone (loc : Location) : Gen Unit :=
  emitConst .none loc

def emitName (op : Opcode) (name : String) (loc : Location) : Gen Unit := do
  emit op (← nameIndex name) loc

def emitFullName (op : Opcode) (name : String) (loc : Location) : Gen Unit := do
  emitName op (← mangled name) loc

def emitAttr (attr : String) (asMethod : Bool) (loc : Location) : Gen Unit := do
  let i ← nameIndex (← mangled attr)
  emit .loadAttr (2 * i + if asMethod then 1 else 0) loc

/-! ### Finished units -/

def frame : Gen Frame := do
  let u ← info
  let s := (← get).unit
  return {
    name := u.name
    qualifiedName := u.qualifiedName
    file := (← read).options.file
    firstLine := u.firstLine
    positionalCount := u.positionalCount
    positionalOnlyCount := u.positionalOnlyCount
    keywordOnlyCount := u.keywordOnlyCount
    flags := { u.flags with noFree := u.cells.isEmpty && u.frees.isEmpty }
    names := s.names
    locals := s.locals
    cells := u.cells
    frees := u.frees }

def assembleUnit : Gen CodeObject := do
  let f ← frame
  let s := (← get).unit
  let shape : UnitShape := ⟨f.locals.length, f.paramCount, f.firstLine⟩
  let (g, constants) ← s.graph.optimizeUnit (← read).options.passConfig shape s.constants
  assemble g constants f

def addCode (c : CodeObject) : Gen Constant := do
  let index := (← get).codes.size
  modify fun s => { s with codes := s.codes.push c }
  return .code index c.name

/-- Whether an end of iteration that leaves the unit has to become an error. -/
def convertsStop (u : UnitInfo) : Bool :=
  match u.kind with
  | .function | .asyncFunction => u.flags.suspends
  | .comprehension => u.flags.generator || u.flags.asyncGenerator
  | .module | .classBody | .lambda => false

def convertStop : Gen Unit := do
  let handler ← newLabel
  editGraph fun g => .ok <| g.modify g.entry fun b =>
    { b with instrs := { op := .pseudo .setupCleanup, arg := handler } :: b.instrs }
  emitNone .none
  emit .returnValue 0 .none
  bindLabel handler
  emitIntrinsic .stopToError .none
  emit .reraise 1 .none

/-- The code of a unit from its start to its end, around that of its body. -/
def unitCode (start : Location) (body : Gen Unit) : Gen Unit := do
  emit .resume 0 start
  body
  if convertsStop (← info) then convertStop
  emitNone .none
  emit .returnValue 0 .none

/-- Runs a generator in a unit of its own, and assembles the unit. The unit around stays as it
is. -/
def inUnit (u : UnitInfo) (body : Gen Unit) : Gen CodeObject := do
  let outer := (← get).unit
  modifyUnit fun _ => { locals := u.scope.params }
  let code ← withReader (fun c => { c with unit := u }) do
    unitCode (.atLine u.firstLine) body
    assembleUnit
  modifyUnit fun _ => outer
  return code

end Gen

end Bytecode
