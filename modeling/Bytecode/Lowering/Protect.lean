import Bytecode.Lowering.Open

/-!
# Protected regions
-/

namespace Bytecode

open Gen

/-- Restores the fault that was handled before, and raises the current one again. -/
def reraise (loc : Location) : Gen Unit := do
  emit .copy 3 loc
  emit .popExcept 0 loc
  emit .reraise 1 loc

/-! ### Handlers -/

abbrev HandlerCode := Handler ExprCode StmtCode

def lowerNamedHandler (name : String) (body : StmtCode) (done : Label) (loc : Location) :
    StmtCode := fun blocks => do
  let cleanup ← newLabel
  let start ← newLabel
  storeName name loc
  emitJump PseudoOp.setupCleanup cleanup loc
  bindLabel start
  body (← blocks.enter (.handler (some name)))
  popBlock .none
  popBlock .none
  emit .popExcept 0 .none
  unbindName name .none
  emitJump PseudoOp.jump done .none
  bindLabel cleanup
  unbindName name .none
  emit .reraise 1 .none

def lowerPlainHandler (body : StmtCode) (done : Label) (loc : Location) : StmtCode :=
  fun blocks => do
    let start ← newLabel
    emit .popTop 0 loc
    bindLabel start
    body (← blocks.enter (.handler none))
    popBlock .none
    emit .popExcept 0 .none
    emitJump PseudoOp.jump done .none

/-- Handlers in turn. One that handles everything must be the last. -/
def lowerHandlers (done : Label) : List HandlerCode → StmtCode
  | [], _ => pure ()
  | h :: rest, blocks => do
    if h.type.isNone && !rest.isEmpty then refuse .defaultHandlerNotLast h.loc
    let next ← newLabel
    h.type.forM fun type => do
      type.load
      emit .checkExcMatch 0 h.loc
      emitJump PseudoOp.popJumpIfFalse next h.loc
    match h.name with
    | some name => lowerNamedHandler name h.body done h.loc blocks
    | none => lowerPlainHandler h.body done h.loc blocks
    bindLabel next
    lowerHandlers done rest blocks

/-- A region, what follows it without a fault, and what handles a fault. A fault that is left over
is raised again. -/
def lowerGuarded (loc : Location) (block : OpenBlock) (region after : StmtCode)
    (handle : Label → StmtCode) : StmtCode := fun blocks => do
  let start ← newLabel
  let onFault ← newLabel
  let done ← newLabel
  let cleanup ← newLabel
  emitJump PseudoOp.setupFinally onFault loc
  bindLabel start
  region (← blocks.enter block)
  popBlock .none
  after blocks
  emitJump PseudoOp.jump done .none
  bindLabel onFault
  emitJump PseudoOp.setupCleanup cleanup .none
  emit .pushExcInfo 0 .none
  handle done blocks
  emit .reraise 0 .none
  bindLabel cleanup
  reraise .none
  bindLabel done

def lowerTryExcept (loc : Location) (body : StmtCode) (handlers : List HandlerCode)
    (orElse : StmtCode) : StmtCode :=
  lowerGuarded loc .tryExcept body orElse fun done blocks => do
    lowerHandlers done handlers (← blocks.enter .handlers)

def lowerTryFinally (loc : Location) (region finalBody : StmtCode) : StmtCode := fun blocks =>
  let leaveKeeping : Gen Unit := do finalBody (← blocks.enter .value)
  lowerGuarded loc (.tryFinally (finalBody blocks) leaveKeeping) region finalBody
    (fun _ blocks => do finalBody (← blocks.enter .finalBody)) blocks

/-- A `try` statement. Without handlers, what follows a body without a fault is left out. -/
def lowerTry (loc : Location) (body : StmtCode) (handlers : List HandlerCode) (orElse : StmtCode)
    (finalBody : Option StmtCode) : StmtCode :=
  match finalBody with
  | none => lowerTryExcept loc body handlers orElse
  | some finalBody =>
    let region := if handlers.isEmpty then body else lowerTryExcept loc body handlers orElse
    lowerTryFinally loc region finalBody

/-! ### Context managers -/

/-- The end of the way out of a context manager after a fault: the fault is raised again unless the
manager has dealt with it. -/
def finishWith (cleanup : Label) : Gen Unit := do
  let suppress ← newLabel
  let exit ← newLabel
  emitJump PseudoOp.popJumpIfTrue suppress .none
  emit .reraise 2 .none
  bindLabel suppress
  emit .popTop 0 .none
  popBlock .none
  emit .popExcept 0 .none
  emit .popTop 0 .none
  emit .popTop 0 .none
  emitJump PseudoOp.jump exit .none
  bindLabel cleanup
  reraise .none
  bindLabel exit

def storeContext (target : Option ExprCode) (loc : Location) : Gen Unit :=
  match target with
  | some target => target.store
  | none => emit .popTop 0 loc

/-- A body inside of a context manager. What the manager's methods give is settled before it is
used. -/
def lowerManaged (loc itemLoc popLoc : Location) (before : Opcode) (block : OpenBlock)
    (settle : Nat → Gen Unit) (item : WithItem ExprCode) (body : StmtCode) : StmtCode :=
  fun blocks => do
    let start ← newLabel
    let onFault ← newLabel
    let exit ← newLabel
    let cleanup ← newLabel
    item.context.load
    emit before 0 itemLoc
    settle 1
    emitJump PseudoOp.setupWith onFault itemLoc
    bindLabel start
    let inner ← blocks.enter block
    storeContext item.target itemLoc
    body inner
    popBlock popLoc
    callExit loc
    settle 2
    emit .popTop 0 loc
    emitJump PseudoOp.jump exit loc
    bindLabel onFault
    emitJump PseudoOp.setupCleanup cleanup loc
    emit .pushExcInfo 0 loc
    emit .withExceptStart 0 loc
    settle 2
    finishWith cleanup
    bindLabel exit

def lowerWithItems (loc : Location) (isAsync : Bool) (body : StmtCode) :
    List (WithItem ExprCode) → StmtCode
  | [] => body
  | item :: rest =>
    let inner := lowerWithItems loc isAsync body rest
    if isAsync then
      lowerManaged loc loc loc .beforeAsyncWith (.asyncWith loc) (awaitValue · loc) item inner
    else
      let itemLoc := item.context.loc
      lowerManaged loc itemLoc .none .beforeWith (.withBlock itemLoc) (fun _ => pure ()) item inner

def lowerWith (loc : Location) (items : List (WithItem ExprCode)) (body : StmtCode)
    (isAsync : Bool) : StmtCode := fun blocks => do
  if isAsync then
    if (← kind) ≠ .asyncFunction then refuse .asyncWithOutside loc
    if items.isEmpty then fault .noAsyncWithItems
  else
    if items.isEmpty then fault .noWithItems
  lowerWithItems loc isAsync body items blocks

end Bytecode
