import Bytecode.Proofs.Machine.Execution

/-!
# Renaming blocks

Execution does not look at the numbers of blocks, and so it commutes with renaming the blocks that
instructions and handlers refer to.
-/

namespace Bytecode

open State

variable {V W E α : Type} (f : BlockId → BlockId)

def OpenHandler.rename (h : OpenHandler) : OpenHandler :=
  { h with target := f h.target }

def State.rename (s : State V W E) : State V W E :=
  { s with handlers := s.handlers.map (·.rename f) }

def Step.rename : Step V W E → Step V W E
  | .next s => .next (s.rename f)
  | .jump target s => .jump (f target) (s.rename f)
  | .done e => .done e
  | .wrong => .wrong

def Instr.rename (i : Instr) : Instr :=
  { i with target := i.target.map f }

@[simp] theorem Instr.op_rename (i : Instr) : (i.rename f).op = i.op := rfl

@[simp] theorem Instr.arg_rename (i : Instr) : (i.rename f).arg = i.arg := rfl

@[simp] theorem Instr.target_rename (i : Instr) : (i.rename f).target = i.target.map f := rfl

namespace State

variable (s : State V W E)

@[simp] theorem stack_rename : (s.rename f).stack = s.stack := rfl

@[simp] theorem locals_rename : (s.rename f).locals = s.locals := rfl

@[simp] theorem handlers_rename : (s.rename f).handlers = s.handlers.map (·.rename f) := rfl

end State

theorem State.leap_rename (s : State V W E) (target : Option BlockId) :
    (s.rename f).leap (target.map f) = (s.leap target).rename f := by
  cases target <;> rfl

namespace Machine

variable (M : Machine V W E)

theorem raise_rename (e : V) (s : State V W E) :
    M.raise e (s.rename f) = (M.raise e s).rename f := by
  unfold raise rename
  cases s.handlers <;> rfl

theorem settle_rename (s : State V W E) (r : Reply V W E (Except V α))
    {k k' : State V W E → α → Step V W E} (hk : ∀ s a, k' (s.rename f) a = (k s a).rename f) :
    M.settle (s.rename f) r k' = (M.settle s r k).rename f := by
  unfold settle
  cases r.result with
  | ok a => exact hk (s.after r) a
  | error e => exact M.raise_rename f e (s.after r)

theorem carryOut_rename (op : Operation) (arg : Nat) (s : State V W E) :
    M.carryOut op arg (s.rename f) = (M.carryOut op arg s).rename f := by
  unfold carryOut
  show (if op.fits arg s.stack.length then _ else _) = _
  split_ifs
  · exact M.settle_rename f s _ fun _ _ => rfl
  · rfl

theorem exec_rename (cs : List Constant) (i : Instr) (s : State V W E) :
    M.exec cs (i.rename f) (s.rename f) = (M.exec cs i s).rename f := by
  unfold exec
  rw [Instr.op_rename, Instr.arg_rename, Instr.target_rename]
  cases i.op.meaning <;> dsimp only
  case idle => rfl
  case drop | store | answer =>
    rw [stack_rename]
    cases s.stack <;> rfl
  case identity | duplicate =>
    rw [stack_rename]
    split <;> rfl
  case exchange =>
    rw [stack_rename]
    cases exchangeTop i.arg s.stack <;> rfl
  case constant | answerConstant => cases cs[i.arg]? <;> rfl
  case load | unbind =>
    rw [locals_rename]
    cases s.locals i.arg with
    | none => exact M.raise_rename f _ s
    | some v => rfl
  case tuple =>
    show (if i.arg ≤ s.stack.length then _ else _) = _
    split_ifs <;> rfl
  case unpack =>
    rw [stack_rename]
    cases s.stack with
    | nil => rfl
    | cons v rest => exact M.settle_rename f s _ fun _ _ => rfl
  case mark => rfl
  case global =>
    by_cases h : i.arg % 2 = 1
    · simp only [h, ↓reduceIte]
      exact M.settle_rename f (s.push M.null) _ fun _ _ => rfl
    · simp only [h, ↓reduceIte]
      exact M.settle_rename f s _ fun _ _ => rfl
  case jump => exact s.leap_rename f i.target
  case popJump outcome | noneJump outcome =>
    rw [stack_rename]
    cases s.stack with
    | nil => rfl
    | cons v rest =>
      dsimp only
      split
      · exact leap_rename f { s with stack := rest } i.target
      · rfl
  case keepJump outcome =>
    rw [stack_rename]
    cases s.stack with
    | nil => rfl
    | cons v rest =>
      dsimp only
      split
      · exact s.leap_rename f i.target
      · rfl
  case choose =>
    show (if s.stack.isEmpty then _ else _) = _
    split_ifs
    · rfl
    · refine M.settle_rename f s _ fun t a => ?_
      split
      · exact leap_rename f { t with stack := a.2 } i.target
      · rfl
  case throw =>
    show (if i.op.fits i.arg s.stack.length then _ else _) = _
    split_ifs
    · exact M.raise_rename f _ (s.after _)
    · rfl
  case guard =>
    rw [stack_rename]
    cases i.target <;> cases i.op.guardHeight? s.stack.length <;> rfl
  case unguard =>
    rw [handlers_rename]
    cases s.handlers <;> rfl
  case keywords =>
    cases cs[i.arg]? with
    | none => rfl
    | some c => exact M.settle_rename f s _ fun _ _ => rfl
  case suspend =>
    rw [handlers_rename, List.length_map]
    exact M.carryOut_rename f _ _ s
  case perform => exact M.carryOut_rename f _ _ s

theorem run_rename (cs : List Constant) (is : List Instr) (s : State V W E) :
    M.run cs (is.map (·.rename f)) (s.rename f) = (M.run cs is s).rename f := by
  induction is generalizing s with
  | nil => rfl
  | cons i is ih =>
    rw [List.map_cons, run_cons, run_cons, M.exec_rename f]
    cases M.exec cs i s with
    | next t => exact ih t
    | jump target t => rfl
    | done e => rfl
    | wrong => rfl

end Machine

end Bytecode
