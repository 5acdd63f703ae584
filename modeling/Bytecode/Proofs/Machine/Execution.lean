import Bytecode.Graph.Handlers
import Bytecode.Proofs.Graph.Depth
import Mathlib.Logic.Function.Basic

/-!
# A stack machine

The machine that gives meaning to the instructions of a graph. It knows by itself what moves values
between the stack, the locals and the constants, where jumps go, and which handlers are open. Every
other operation is an arbitrary function of what the frame holds, which may emit events or raise and
changes the height of the stack as its effect says.
-/

namespace Bytecode

open List

/-- The part of an operation that the machine knows by itself. -/
inductive Meaning where
  | idle
  | drop
  | exchange
  | duplicate
  | constant
  | load
  | store
  | unbind
  | tuple
  | unpack
  | identity
  | mark
  | global
  | jump
  | popJump (outcome : Bool)
  | noneJump (onNone : Bool)
  | keepJump (outcome : Bool)
  /-- Goes on or jumps as the outside decides. -/
  | choose
  | answer
  | answerConstant
  | throw
  | guard
  | unguard
  | keywords
  | suspend
  /-- Anything else. -/
  | perform
deriving DecidableEq

def Operation.meaning : Operation → Meaning
  | .real .nop => .idle
  | .real .popTop => .drop
  | .real .swap => .exchange
  | .real .copy => .duplicate
  | .real .loadConst => .constant
  | .real .loadFast | .real .loadFastCheck => .load
  | .real .storeFast => .store
  | .real .deleteFast => .unbind
  | .real .buildTuple => .tuple
  | .real .unpackSequence => .unpack
  | .real .isOp => .identity
  | .real .pushNull => .mark
  | .real .loadGlobal => .global
  | .real .jumpForward | .real .jumpBackward | .real .jumpBackwardNoInterrupt | .pseudo .jump
  | .pseudo .jumpNoInterrupt => .jump
  | .real .popJumpForwardIfTrue | .real .popJumpBackwardIfTrue | .pseudo .popJumpIfTrue =>
    .popJump true
  | .real .popJumpForwardIfFalse | .real .popJumpBackwardIfFalse | .pseudo .popJumpIfFalse =>
    .popJump false
  | .real .popJumpForwardIfNone | .real .popJumpBackwardIfNone | .pseudo .popJumpIfNone =>
    .noneJump true
  | .real .popJumpForwardIfNotNone | .real .popJumpBackwardIfNotNone
  | .pseudo .popJumpIfNotNone => .noneJump false
  | .real .jumpIfTrueOrPop => .keepJump true
  | .real .jumpIfFalseOrPop => .keepJump false
  | .real .forIter | .real .send => .choose
  | .real .returnValue => .answer
  | .real .returnConst => .answerConstant
  | .real .raiseVarargs | .real .reraise => .throw
  | .pseudo .setupFinally | .pseudo .setupCleanup | .pseudo .setupWith => .guard
  | .pseudo .popBlock => .unguard
  | .real .kwNames => .keywords
  | .real .yieldValue => .suspend
  | _ => .perform

namespace Meaning

def isJump : Meaning → Bool
  | .jump | .popJump _ | .noneJump _ | .keepJump _ | .choose => true
  | _ => false

def isScopeExit : Meaning → Bool
  | .answer | .answerConstant | .throw => true
  | _ => false

def fallsThrough (m : Meaning) : Bool :=
  !(m = .jump || m.isScopeExit)

end Meaning

namespace Operation

theorem isJump_eq (op : Operation) : op.isJump = op.meaning.isJump := by
  rcases op with op | op <;> cases op <;> rfl

theorem isScopeExit_eq (op : Operation) : op.isScopeExit = op.meaning.isScopeExit := by
  rcases op with op | op <;> cases op <;> rfl

theorem fallsThrough_eq (op : Operation) : op.fallsThrough = op.meaning.fallsThrough := by
  rcases op with op | op <;> cases op <;> rfl

theorem isUnconditionalJump_eq (op : Operation) :
    op.isUnconditionalJump = decide (op.meaning = .jump) := by
  rcases op with op | op <;> cases op <;> rfl

theorem isBlockPush_eq (op : Operation) : op.isBlockPush = decide (op.meaning = .guard) := by
  rcases op with op | op <;> cases op <;> rfl

def fits (op : Operation) (arg height : Nat) : Bool :=
  match op.effect arg false with
  | .ok e => 0 ≤ height + e
  | .error _ => false

/-- The height that a handler opened at the given one cuts the stack to. One that is opened around
a block leaves out the value that the entry into the block pushed. -/
def guardHeight? (op : Operation) (height : Nat) : Option Nat :=
  if op = .pseudo .setupWith then
    if height = 0 then none else some (height - 1)
  else some height

end Operation

/-- What an operation sees of the frame. -/
structure View (V W : Type) where
  stack : List V
  locals : Nat → Option V
  world : W

/-- What an operation does: it emits events, leaves locals and a world behind, and has a result. -/
structure Reply (V W E α : Type) where
  events : List E
  locals : Nat → Option V
  world : W
  result : α

/-- The values of a machine, and what its operations do. -/
structure Machine (V W E : Type) where
  const : Constant → V
  null : V
  /-- Stands for the position of a fault. -/
  position : V
  /-- The exception for a local without a value. -/
  unbound : Nat → V
  truthy : V → Bool
  /-- Whether two values are one object. -/
  same : V → V → Bool
  tuple : List V → V
  unpack : Nat → V → View V W → Reply V W E (Except V (List V))
  global : Nat → View V W → Reply V W E (Except V V)
  /-- Whether to jump, and the stack for that. -/
  choose : Operation → View V W → Reply V W E (Except V (Bool × List V))
  throw : Operation → Nat → View V W → Reply V W E V
  keywords : V → View V W → Reply V W E (Except V (List V))
  perform : Operation → Nat → View V W → Reply V W E (Except V (List V))
  truthy_const : ∀ c, truthy (const c) = c.isTruthy
  tuple_const : ∀ cs : List Constant, tuple (cs.map const) = const (.tuple cs)
  unpack_tuple : ∀ vs view, unpack vs.length (tuple vs) view = ⟨[], view.locals, view.world, .ok vs⟩
  length_unpack : ∀ n v view vs, (unpack n v view).result = .ok vs → vs.length = n
  length_choose : ∀ op view taken stack e, (choose op view).result = .ok (taken, stack) →
    op.effect 0 taken = .ok e → (stack.length : Int) = view.stack.length + e
  length_keywords : ∀ v view stack, (keywords v view).result = .ok stack →
    stack.length = view.stack.length
  length_perform : ∀ op arg view stack e, (perform op arg view).result = .ok stack →
    op.effect arg false = .ok e → (stack.length : Int) = view.stack.length + e

structure OpenHandler where
  target : BlockId
  /-- The height that the stack is cut to. -/
  height : Nat
  keepsPosition : Bool
deriving DecidableEq

/-- What a frame holds while it runs; the top of the stack and the innermost handler come first. -/
structure State (V W E : Type) where
  stack : List V
  locals : Nat → Option V
  handlers : List OpenHandler
  world : W
  /-- What was emitted up to now. -/
  events : List E

inductive Exit (V : Type) where
  | returned (v : V)
  | raised (e : V)

structure Ending (V W E : Type) where
  outcome : Exit V
  world : W
  events : List E

/-- Where control goes: to the next instruction, to a block, or out of the frame. What makes no
sense goes wrong. -/
inductive Step (V W E : Type) where
  | next (s : State V W E)
  | jump (target : BlockId) (s : State V W E)
  | done (e : Ending V W E)
  | wrong

def Step.andThen {V W E : Type} (f : State V W E → Step V W E) : Step V W E → Step V W E
  | .next s => f s
  | step => step

namespace State

variable {V W E α : Type} (s : State V W E)

def view : View V W :=
  ⟨s.stack, s.locals, s.world⟩

def push (v : V) : State V W E :=
  { s with stack := v :: s.stack }

def after (r : Reply V W E α) : State V W E :=
  { s with locals := r.locals, world := r.world, events := s.events ++ r.events }

def finish (outcome : Exit V) : Step V W E :=
  .done ⟨outcome, s.world, s.events⟩

def leap : Option BlockId → Step V W E
  | some target => .jump target s
  | none => .wrong

end State

/-- The stack with the top and the item that `n` counts from it exchanged. -/
def exchangeTop {V : Type} (n : Nat) (stack : List V) : Option (List V) :=
  match n, stack[0]?, stack[n - 1]? with
  | _ + 1, some v, some w => some ((stack.set 0 w).set (n - 1) v)
  | _, _, _ => none

namespace Machine

variable {V W E α : Type} (M : Machine V W E)

/-- Hands an exception to the innermost handler. -/
def raise (e : V) (s : State V W E) : Step V W E :=
  match s.handlers with
  | [] => s.finish (.raised e)
  | h :: rest =>
    let below := s.stack.drop (s.stack.length - h.height)
    let below := if h.keepsPosition then M.position :: below else below
    .jump h.target { s with stack := e :: below, handlers := rest }

def settle (s : State V W E) (r : Reply V W E (Except V α)) (f : State V W E → α → Step V W E) :
    Step V W E :=
  match r.result with
  | .ok a => f (s.after r) a
  | .error e => M.raise e (s.after r)

/-- Lets the outside do an operation. -/
def carryOut (op : Operation) (arg : Nat) (s : State V W E) : Step V W E :=
  if op.fits arg s.stack.length then
    M.settle s (M.perform op arg s.view) fun s stack => .next { s with stack := stack }
  else .wrong

def exec (constants : List Constant) (i : Instr) (s : State V W E) : Step V W E :=
  match i.op.meaning with
  | .idle => .next s
  | .drop =>
    match s.stack with
    | _ :: rest => .next { s with stack := rest }
    | [] => .wrong
  | .exchange =>
    match exchangeTop i.arg s.stack with
    | some stack => .next { s with stack := stack }
    | none => .wrong
  | .duplicate =>
    match i.arg, s.stack[i.arg - 1]? with
    | _ + 1, some v => .next (s.push v)
    | _, _ => .wrong
  | .constant =>
    match constants[i.arg]? with
    | some c => .next (s.push (M.const c))
    | none => .wrong
  | .load =>
    match s.locals i.arg with
    | some v => .next (s.push v)
    | none => M.raise (M.unbound i.arg) s
  | .store =>
    match s.stack with
    | v :: rest => .next { s with stack := rest, locals := Function.update s.locals i.arg (some v) }
    | [] => .wrong
  | .unbind =>
    match s.locals i.arg with
    | some _ => .next { s with locals := Function.update s.locals i.arg none }
    | none => M.raise (M.unbound i.arg) s
  | .tuple =>
    if i.arg ≤ s.stack.length then
      .next { s with stack := M.tuple (s.stack.take i.arg).reverse :: s.stack.drop i.arg }
    else .wrong
  | .unpack =>
    match s.stack with
    | v :: rest =>
      M.settle s (M.unpack i.arg v s.view) fun s vs => .next { s with stack := vs ++ rest }
    | [] => .wrong
  | .identity =>
    match s.stack with
    | b :: a :: rest =>
      .next { s with stack := M.const (.bool (M.same a b == (i.arg == 0))) :: rest }
    | _ => .wrong
  | .mark => .next (s.push M.null)
  | .global =>
    let s := if i.arg % 2 = 1 then s.push M.null else s
    M.settle s (M.global (i.arg / 2) s.view) fun s v => .next (s.push v)
  | .jump => s.leap i.target
  | .popJump outcome =>
    match s.stack with
    | v :: rest =>
      let s := { s with stack := rest }
      if M.truthy v = outcome then s.leap i.target else .next s
    | [] => .wrong
  | .noneJump onNone =>
    match s.stack with
    | v :: rest =>
      let s := { s with stack := rest }
      if M.same v (M.const .none) = onNone then s.leap i.target else .next s
    | [] => .wrong
  | .keepJump outcome =>
    match s.stack with
    | v :: rest =>
      if M.truthy v = outcome then s.leap i.target else .next { s with stack := rest }
    | [] => .wrong
  | .choose =>
    if s.stack.isEmpty then .wrong
    else M.settle s (M.choose i.op s.view) fun s (taken, stack) =>
      let s := { s with stack := stack }
      if taken then s.leap i.target else .next s
  | .answer =>
    match s.stack with
    | v :: _ => s.finish (.returned v)
    | [] => .wrong
  | .answerConstant =>
    match constants[i.arg]? with
    | some c => s.finish (.returned (M.const c))
    | none => .wrong
  | .throw =>
    if i.op.fits i.arg s.stack.length then
      let r := M.throw i.op i.arg s.view
      M.raise r.result (s.after r)
    else .wrong
  | .guard =>
    match i.target, i.op.guardHeight? s.stack.length with
    | some target, some height =>
      .next { s with handlers := ⟨target, height, i.op.keepsPosition⟩ :: s.handlers }
    | _, _ => .wrong
  | .unguard =>
    match s.handlers with
    | _ :: rest => .next { s with handlers := rest }
    | [] => .wrong
  | .keywords =>
    match constants[i.arg]? with
    | some c =>
      M.settle s (M.keywords (M.const c) s.view) fun s stack => .next { s with stack := stack }
    | none => .wrong
  -- The operand of a suspension is the number of open handlers, whatever is written there.
  | .suspend => M.carryOut i.op s.handlers.length s
  | .perform => M.carryOut i.op i.arg s

def run (constants : List Constant) : List Instr → State V W E → Step V W E
  | [], s => .next s
  | i :: rest, s => (M.exec constants i s).andThen (run constants rest)

@[simp] theorem run_nil (constants : List Constant) (s : State V W E) :
    M.run constants [] s = .next s := rfl

@[simp] theorem run_cons (constants : List Constant) (i : Instr) (is : List Instr)
    (s : State V W E) :
    M.run constants (i :: is) s = (M.exec constants i s).andThen (M.run constants is) := rfl

theorem run_append (constants : List Constant) (is js : List Instr) (s : State V W E) :
    M.run constants (is ++ js) s = (M.run constants is s).andThen (M.run constants js) := by
  induction is generalizing s with
  | nil => rfl
  | cons i is ih =>
    rw [cons_append, run_cons, run_cons]
    cases M.exec constants i s with
    | next s' => exact ih s'
    | jump | done | wrong => rfl

end Machine

/-! ### What an instruction can do -/

/-- What the execution of an instruction can do to control, to the open handlers and to the events
so far. -/
inductive Transition {V W E : Type} (i : Instr) (s : State V W E) : Step V W E → Prop where
  | next {t : State V W E} (hfall : i.op.fallsThrough) (hevents : s.events <+: t.events)
      (hhandlers : t.handlers = s.handlers) : Transition i s (.next t)
  | guard {t : State V W E} {h : OpenHandler} (hpush : i.op.isBlockPush)
      (hfall : i.op.fallsThrough) (htarget : i.target = some h.target)
      (hevents : s.events <+: t.events) (hhandlers : t.handlers = h :: s.handlers) :
      Transition i s (.next t)
  | unguard {t : State V W E} {h : OpenHandler} (hfall : i.op.fallsThrough)
      (hevents : s.events <+: t.events) (hhandlers : s.handlers = h :: t.handlers) :
      Transition i s (.next t)
  | leap {target : BlockId} {t : State V W E} (hjump : i.op.isJump)
      (htarget : i.target = some target) (hevents : s.events <+: t.events)
      (hhandlers : t.handlers = s.handlers) : Transition i s (.jump target t)
  | raise {t : State V W E} {h : OpenHandler} (hevents : s.events <+: t.events)
      (hhandlers : s.handlers = h :: t.handlers) : Transition i s (.jump h.target t)
  | done {e : Ending V W E} (hevents : s.events <+: e.events) : Transition i s (.done e)
  | wrong : Transition i s .wrong

namespace Transition

variable {V W E α : Type} (M : Machine V W E) {i : Instr} {s t : State V W E}

theorem of_raise (e : V) (hevents : s.events <+: t.events) (hhandlers : t.handlers = s.handlers) :
    Transition i s (M.raise e t) := by
  unfold Machine.raise
  cases hh : t.handlers with
  | nil => exact .done hevents
  | cons h rest => exact .raise hevents (hhandlers.symm.trans hh)

theorem of_settle (r : Reply V W E (Except V α)) {f : State V W E → α → Step V W E}
    (hevents : s.events <+: t.events) (hhandlers : t.handlers = s.handlers)
    (hf : ∀ a, Transition i s (f (t.after r) a)) : Transition i s (M.settle t r f) := by
  have hafter : s.events <+: (t.after r).events := hevents.trans (prefix_append ..)
  unfold Machine.settle
  cases r.result with
  | ok a => exact hf a
  | error e => exact of_raise M e hafter hhandlers

theorem of_carryOut (op : Operation) (arg : Nat) (hfall : i.op.fallsThrough) :
    Transition i s (M.carryOut op arg s) := by
  unfold Machine.carryOut
  split_ifs
  · exact of_settle M _ prefix_rfl rfl fun _ => .next hfall (prefix_append ..) rfl
  · exact .wrong

theorem of_leap (hjump : i.op.isJump) (hevents : s.events <+: t.events)
    (hhandlers : t.handlers = s.handlers) : Transition i s (t.leap i.target) := by
  cases ht : i.target with
  | none => exact .wrong
  | some target => exact .leap hjump ht hevents hhandlers

end Transition

namespace Machine

variable {V W E : Type} (M : Machine V W E)

theorem exec_transition (constants : List Constant) (i : Instr) (s : State V W E) :
    Transition i s (M.exec constants i s) := by
  have hjump := i.op.isJump_eq
  have hfall := i.op.fallsThrough_eq
  have hpush := i.op.isBlockPush_eq
  unfold exec
  cases hm : i.op.meaning <;> rw [hm] at hjump hfall hpush
  case idle | mark => exact .next hfall prefix_rfl rfl
  case drop | exchange | duplicate | constant | store | tuple | identity =>
    dsimp only; split
    exacts [.next hfall prefix_rfl rfl, .wrong]
  case load | unbind =>
    dsimp only; split
    exacts [.next hfall prefix_rfl rfl, .of_raise M _ prefix_rfl rfl]
  case unpack | keywords =>
    dsimp only; split
    · exact .of_settle M _ prefix_rfl rfl fun _ => .next hfall (prefix_append ..) rfl
    · exact .wrong
  case global =>
    dsimp only; split
    all_goals
      exact .of_settle M _ prefix_rfl rfl fun _ => .next hfall (prefix_append ..) rfl
  case jump => exact .of_leap hjump prefix_rfl rfl
  case popJump | noneJump | keepJump =>
    dsimp only; split
    · split; exacts [.of_leap hjump prefix_rfl rfl, .next hfall prefix_rfl rfl]
    · exact .wrong
  case choose =>
    dsimp only; split
    · exact .wrong
    · refine .of_settle M _ prefix_rfl rfl fun (taken, stack) => ?_
      dsimp only; split
      exacts [.of_leap hjump (prefix_append ..) rfl, .next hfall (prefix_append ..) rfl]
  case answer | answerConstant => dsimp only; split; exacts [.done prefix_rfl, .wrong]
  case throw =>
    dsimp only; split
    exacts [.of_raise M _ (prefix_append ..) rfl, .wrong]
  case guard =>
    dsimp only; split
    · rename_i htarget _
      exact .guard (by simpa using hpush) hfall htarget prefix_rfl rfl
    · exact .wrong
  case unguard =>
    dsimp only; split
    · rename_i hh
      exact .unguard hfall prefix_rfl hh
    · exact .wrong
  case suspend | perform => exact .of_carryOut M _ _ hfall

/-- Execution does not look at the place of an instruction, nor at the handler written on it. -/
theorem exec_congr {i j : Instr} (hop : i.op = j.op) (harg : i.arg = j.arg)
    (htarget : i.target = j.target) (constants : List Constant) (s : State V W E) :
    M.exec constants i s = M.exec constants j s := by
  unfold exec
  rw [hop, harg, htarget]

theorem exec_of_isNop {i : Instr} (hi : i.isNop) (cs : List Constant) (s : State V W E) :
    M.exec cs i s = .next s := by
  have hop : i.op = .real .nop := by simpa [Instr.isNop] using hi
  simp only [exec, hop, Operation.meaning]

@[simp] theorem exec_toNop (i : Instr) (cs : List Constant) (s : State V W E) :
    M.exec cs i.toNop s = .next s :=
  M.exec_of_isNop (by simp [Instr.isNop, Instr.toNop]) cs s

end Machine

end Bytecode
