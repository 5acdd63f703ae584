import Bytecode.Proofs.Machine.Passage

/-!
# Evaluation of conditions

Conditions are evaluated one operand after the other. What the operands and the comparisons give is
left open: it may depend on all that was asked before, and it may be lacking, which ends the
evaluation. So two evaluations are the same only if they ask the same, in the same order. The same
is said of code.
-/

namespace Bytecode

/-- What an evaluation asks for. -/
inductive Query (V : Type) where
  | value (source : Expr ScopeId)
  | comparison (op : Opcode) (arg : Nat) (left right : V)

/-- What was asked, with what was answered. -/
abbrev History (V : Type) :=
  List (Query V × Option V)

/-- What operands and comparisons give, and which values are true. -/
structure Oracle (V : Type) where
  truthy : V → Bool
  negate : V → V
  truthy_negate : ∀ v, truthy (negate v) = !truthy v
  answer : History V → Query V → Option V

/-- A computation that asks. -/
abbrev Evaluation (V : Type) :=
  OptionT (StateM (History V))

namespace Oracle

variable {V : Type} (D : Oracle V) {decisive : Bool}

def ask (q : Query V) : Evaluation V V :=
  OptionT.mk fun past =>
    let v := D.answer past q
    (v, past ++ [(q, v)])

/-! ### Expressions -/

/-- The value of the first operand that decides, or of the last. -/
def firstOf (decisive : Bool) : List (Evaluation V V) → Evaluation V V
  | [] => failure
  | [m] => m
  | m :: ms => do
    let v ← m
    if D.truthy v = decisive then pure v else firstOf decisive ms

def compare (op : CompareOp) (left right : V) : Evaluation V V :=
  D.ask (.comparison op.opcode op.code left right)

/-- The value of the first comparison that fails, or of the last. -/
def chain (left : V) : List (CompareOp × Evaluation V V) → Evaluation V V
  | [] => failure
  | [(op, m)] => do D.compare op left (← m)
  | (op, m) :: steps => do
    let right ← m
    let v ← D.compare op left right
    if D.truthy v then chain right steps else pure v

mutual

def eval : Expr ScopeId → Evaluation V V
  | .unary _ .not operand => return D.negate (← eval operand)
  | .boolOp _ op values => D.firstOf (op = .or) (evalAll values)
  | .conditional _ test body orElse => do
    if D.truthy (← eval test) then eval body else eval orElse
  | .compare _ left ops comparators => do
    D.chain (← eval left) (ops.zip (evalAll comparators))
  | e => D.ask (.value e)

def evalAll : List (Expr ScopeId) → List (Evaluation V V)
  | [] => []
  | e :: es => eval e :: evalAll es

end

theorem evalAll_eq_map (es : List (Expr ScopeId)) : D.evalAll es = es.map D.eval := by
  induction es with
  | nil => rfl
  | cons e es ih => rw [evalAll, ih, List.map_cons]

/-- Of operands that are not the last, the value of the first that decides. -/
def decider? (decisive : Bool) : List (Evaluation V V) → Evaluation V (Option V)
  | [] => pure none
  | m :: ms => do
    let v ← m
    if D.truthy v = decisive then pure (some v) else decider? decisive ms

/-- What is done with the value that decides need only be known for such values. -/
theorem decider?_congr {α : Type} {ms : List (Evaluation V V)} {f g : Option V → Evaluation V α}
    (hnone : f none = g none) (hsome : ∀ v, D.truthy v = decisive → f (some v) = g (some v)) :
    D.decider? decisive ms >>= f = D.decider? decisive ms >>= g := by
  induction ms with
  | nil => simp [decider?, hnone]
  | cons m ms ih =>
    simp only [decider?, bind_assoc]
    refine bind_congr fun v => ?_
    split
    · next hv => simp [hsome v hv]
    · exact ih

theorem firstOf_append (ms : List (Evaluation V V)) (m : Evaluation V V) :
    D.firstOf decisive (ms ++ [m]) = (D.decider? decisive ms >>= fun r => r.elim m pure) := by
  induction ms with
  | nil => simp [firstOf, decider?]
  | cons m₀ ms ih =>
    have hcons : D.firstOf decisive (m₀ :: (ms ++ [m])) = (m₀ >>= fun v =>
        if D.truthy v = decisive then pure v else D.firstOf decisive (ms ++ [m])) := by
      cases ms <;> rfl
    rw [List.cons_append, hcons, decider?, bind_assoc]
    refine bind_congr fun v => ?_
    split
    · simp
    · exact ih

/-- Of comparisons that are not the last, the value of the first that fails. With it comes the
right operand of the comparison that was made last. -/
def links (left : V) : List (CompareOp × Evaluation V V) → Evaluation V (V × Option V)
  | [] => pure (left, none)
  | (op, m) :: steps => do
    let right ← m
    let v ← D.compare op left right
    if D.truthy v then links right steps else pure (right, some v)

theorem links_congr {α : Type} {left : V} {steps : List (CompareOp × Evaluation V V)}
    {f g : V × Option V → Evaluation V α} (hnone : ∀ w, f (w, none) = g (w, none))
    (hsome : ∀ w v, D.truthy v = false → f (w, some v) = g (w, some v)) :
    D.links left steps >>= f = D.links left steps >>= g := by
  induction steps generalizing left with
  | nil => simp [links, hnone]
  | cons step steps ih =>
    simp only [links, bind_assoc]
    refine bind_congr fun right => bind_congr fun v => ?_
    split
    · exact ih
    · next hv => simp [hsome right v (Bool.eq_false_iff.mpr hv)]

theorem chain_append {op : CompareOp} {left : V} (steps : List (CompareOp × Evaluation V V))
    (m : Evaluation V V) :
    D.chain left (steps ++ [(op, m)]) =
      (D.links left steps >>= fun r => r.2.elim (m >>= D.compare op r.1) pure) := by
  induction steps generalizing left with
  | nil => simp [chain, links]
  | cons step steps ih =>
    obtain ⟨op₀, m₀⟩ := step
    have hcons : D.chain left ((op₀, m₀) :: (steps ++ [(op, m)])) = (m₀ >>= fun right =>
        D.compare op₀ left right >>= fun v =>
          if D.truthy v then D.chain right (steps ++ [(op, m)]) else pure v) := by
      cases steps <;> rfl
    rw [List.cons_append, hcons, links, bind_assoc]
    refine bind_congr fun right => ?_
    rw [bind_assoc]
    refine bind_congr fun v => ?_
    split
    · exact ih
    · simp

/-! ### Code -/

/-- Whether a value leads to a jump, and where control is then. -/
def branch (l : Label) (cond : Bool) (stack : List V) (v : V) : Control V :=
  if D.truthy v = cond then .away l stack else .here stack

/-- What an instruction does. Those that no condition needs do not go on. -/
def step (i : Instr) (stack : List V) : Evaluation V (Control V) :=
  match i.op, stack with
  | .real .unaryNot, v :: rest => pure (.here (D.negate v :: rest))
  | .real .popTop, _ :: rest => pure (.here rest)
  | .real .swap, stack => (exchangeTop i.arg stack).elim failure fun stack' => pure (.here stack')
  | .real .copy, stack =>
    if i.arg = 0 then failure
    else stack[i.arg - 1]?.elim failure fun v => pure (.here (v :: stack))
  | .real .compareOp, right :: left :: rest => ask .compareOp left right rest
  | .real .isOp, right :: left :: rest => ask .isOp left right rest
  | .real .containsOp, right :: left :: rest => ask .containsOp left right rest
  | .real .jumpIfFalseOrPop, v :: rest =>
    pure (if D.truthy v then .here rest else .away i.arg (v :: rest))
  | .real .jumpIfTrueOrPop, v :: rest =>
    pure (if D.truthy v then .away i.arg (v :: rest) else .here rest)
  | .pseudo .popJumpIfFalse, v :: rest => pure (D.branch i.arg false rest v)
  | .pseudo .popJumpIfTrue, v :: rest => pure (D.branch i.arg true rest v)
  | .pseudo .jumpNoInterrupt, stack => pure (.away i.arg stack)
  | _, _ => failure
where
  ask (op : Opcode) (left right : V) (rest : List V) : Evaluation V (Control V) := do
    return .here ((← D.ask (.comparison op i.arg left right)) :: rest)

/-- What a piece of code does. The code of an operand asks for its value. -/
def stepPiece : Piece → Control V → Evaluation V (Control V)
  | .entry (.instr i), .here stack => D.step i stack
  | .entry (.label _), .here stack => pure (.here stack)
  | .entry (.label l), .away m stack => pure (if l = m then .here stack else .away m stack)
  | .entry (.instr _), .away m stack => pure (.away m stack)
  | .part (.value e) _, .here stack => return .here ((← D.ask (.value e)) :: stack)
  | .part _ _, .here _ => failure
  | .part _ code, .away m stack => if m ∈ placed code then failure else pure (.away m stack)

def run : List Piece → Control V → Evaluation V (Control V)
  | [], x => pure x
  | p :: ps, x => do run ps (← D.stepPiece p x)

variable {D} {ps qs : List Piece} {l m : Label} {v : V} {stack : List V} {x : Control V}
  {loc : Location}

@[simp] theorem run_nil : D.run [] x = pure x := rfl

@[simp] theorem run_append : D.run (ps ++ qs) x = D.run ps x >>= D.run qs := by
  induction ps generalizing x with
  | nil => simp
  | cons p ps ih => simp only [List.cons_append, run, ih, bind_assoc]

@[simp] theorem run_label_here : D.run [.label l] (.here stack) = pure (.here stack) := by
  simp [run, Piece.label, stepPiece]

@[simp] theorem run_label_away :
    D.run [.label l] (.away m stack) = pure (if l = m then .here stack else .away m stack) := by
  simp [run, Piece.label, stepPiece]

theorem run_away (h : l ∉ placed (transcript ps)) :
    D.run ps (.away l stack) = pure (.away l stack) := by
  induction ps with
  | nil => rfl
  | cons p ps ih =>
    rw [transcript_cons, placed_append, List.mem_append, not_or] at h
    have hp : D.stepPiece p (.away l stack) = pure (.away l stack) := by
      match p, h.1 with
      | .entry (.instr i), _ => rfl
      | .entry (.label m), hm =>
        have hne : m ≠ l := fun hml => hm (hml ▸ List.mem_singleton.mpr rfl)
        simp [stepPiece, hne]
      | .part k code, hm => cases k <;> exact if_neg hm
    rw [run, hp, pure_bind, ih h.2]

/-- Control is at hand, or on its way to one of the first `n` labels. -/
def Within (n : Nat) : Control V → Prop
  | .here _ => True
  | .away l _ => l < n

theorem within_branch {n : Nat} {cond : Bool} (h : l < n) : Within n (D.branch l cond stack v) := by
  unfold branch
  split
  · exact h
  · trivial

theorem run_label_of_within {n : Nat} (h : Within n x) (hl : n ≤ l) :
    D.run [.label l] x = pure x := by
  cases x with
  | here stack => exact run_label_here
  | away m stack =>
    have hne : l ≠ m := Nat.ne_of_gt (Nat.lt_of_lt_of_le h hl)
    rw [run_label_away, if_neg hne]

/-! ### Single instructions -/

theorem run_instr {i : Instr} : D.run [.instr i] (.here stack) = D.step i stack := by
  simp [run, Piece.instr, stepPiece]

@[simp] theorem run_instr_away {i : Instr} :
    D.run [.instr i] (.away l stack) = pure (.away l stack) :=
  run_away fun h => by cases h

@[simp] theorem run_value {e : Expr ScopeId} {code : List Entry} :
    D.run [.part (.value e) code] (.here stack) =
      (D.ask (.value e) >>= fun v => pure (.here (v :: stack))) := by
  simp [run, stepPiece]

@[simp] theorem run_popJumpIf {cond : Bool} :
    D.run [.instr { op := popJumpIf cond, arg := l, loc := loc }] (.here (v :: stack)) =
      pure (D.branch l cond stack v) := by
  rw [run_instr]
  cases cond <;> rfl

@[simp] theorem run_jumpIfOrPop :
    D.run [.instr { op := jumpIfOrPop decisive, arg := l, loc := loc }] (.here (v :: stack)) =
      pure (if D.truthy v = decisive then .away l (v :: stack) else .here stack) := by
  rw [run_instr]
  cases hv : D.truthy v <;> cases decisive <;> simp [step, jumpIfOrPop, hv]

@[simp] theorem run_jumpNoInterrupt :
    D.run [.instr { op := PseudoOp.jumpNoInterrupt, arg := l, loc := loc }] (.here stack) =
      pure (.away l stack) :=
  run_instr

@[simp] theorem run_unaryNot :
    D.run [.instr { op := Opcode.unaryNot, arg := 0, loc := loc }] (.here (v :: stack)) =
      pure (.here (D.negate v :: stack)) :=
  run_instr

@[simp] theorem run_popTop :
    D.run [.instr { op := Opcode.popTop, arg := 0, loc := loc }] (.here (v :: stack)) =
      pure (.here stack) :=
  run_instr

@[simp] theorem run_swap {w : V} :
    D.run [.instr { op := Opcode.swap, arg := 2, loc := loc }] (.here (v :: w :: stack)) =
      pure (.here (w :: v :: stack)) :=
  run_instr

@[simp] theorem run_copy {w : V} :
    D.run [.instr { op := Opcode.copy, arg := 2, loc := loc }] (.here (v :: w :: stack)) =
      pure (.here (w :: v :: w :: stack)) :=
  run_instr

@[simp] theorem run_compare {op : CompareOp} {w : V} :
    D.run [.instr { op := op.opcode, arg := op.code, loc := loc }] (.here (v :: w :: stack)) =
      (D.compare op w v >>= fun u => pure (.here (u :: stack))) := by
  rw [run_instr]
  cases op <;> rfl

end Oracle

end Bytecode
