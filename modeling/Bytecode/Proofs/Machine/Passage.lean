import Bytecode.Proofs.Composition.Transcripts
import Bytecode.Proofs.Lowering.Instructions

/-!
# Passages through code

Code that jumps only forward is passed through once. At each entry control either is there, with
values on the stack, or is on its way to a label further on. So the meaning of a transcript is put
together from that of its entries.
-/

namespace Bytecode

/-- Code that is passed through as a whole. -/
inductive Part where
  /-- Puts the value of an expression on the stack. -/
  | value (source : Expr ScopeId)
  /-- Waits for the value on top of the stack. -/
  | wait
  /-- Crosses statements, which leave the stack as it was. -/
  | body

inductive Piece where
  | entry (e : Entry)
  | part (p : Part) (code : List Entry)

namespace Piece

def label (l : Label) : Piece :=
  entry (.label l)

def instr (i : Instr) : Piece :=
  entry (.instr i)

def entries : Piece → List Entry
  | entry e => [e]
  | part _ code => code

end Piece

def transcript (ps : List Piece) : List Entry :=
  ps.flatMap Piece.entries

@[simp] theorem transcript_nil : transcript [] = [] := rfl

@[simp] theorem transcript_cons (p : Piece) (ps : List Piece) :
    transcript (p :: ps) = p.entries ++ transcript ps := rfl

@[simp] theorem transcript_append (ps qs : List Piece) :
    transcript (ps ++ qs) = transcript ps ++ transcript qs :=
  List.flatMap_append ..

/-- How many values an instruction takes from the stack, at how many below them it only looks, and
how many it puts above these. -/
def Opcode.reach? (op : Opcode) (arg : Nat) : Option (Nat × Nat × Nat) :=
  match op with
  | .getLen | .matchSequence | .matchMapping => some (0, 1, 1)
  | .matchKeys => some (0, 2, 1)
  | .dictUpdate => some (1, arg, 0)
  | .returnValue | .reraise | .raiseVarargs => none
  | op => (op.arity? arg).map fun x => (x.1, 0, x.2)

def CompareOp.opcode : CompareOp → Opcode
  | .is | .isNot => .isOp
  | .contained | .notContained => .containsOp
  | _ => .compareOp

/-- Whether the instruction works on values, and does more than move them. -/
def Opcode.isActive : Opcode → Bool
  | .nop | .popTop | .swap | .copy | .loadConst => false
  | _ => true

/-- What code can do with values, apart from moving them. -/
structure Interpretation (V : Type) where
  const : Constant → V
  truthy : V → Bool
  /-- The expression can have the value. -/
  value : Expr ScopeId → V → Prop
  /-- Waiting for the first value can give the second. -/
  waits : V → V → Prop
  /-- The instruction can take some values and put others in their place, where it looks at those
  that are seen. -/
  does : Opcode → (arg : Nat) → (taken seen put : List V) → Prop
  reach : ∀ op arg taken seen put, does op arg taken seen put →
    op.reach? arg = some (taken.length, seen.length, put.length)

/-- Where control is: at hand, or on its way to a label. The top of the stack comes first. -/
inductive Control (V : Type) where
  | here (stack : List V)
  | away (l : Label) (stack : List V)

variable {V : Type}

/-- Where an instruction leads. -/
def Instr.Goes (D : Interpretation V) (consts : List Constant) (i : Instr) (stack : List V)
    (y : Control V) : Prop :=
  match i.op with
  | .real .nop | .pseudo .popBlock => y = .here stack
  | .real .popTop => ∃ v rest, stack = v :: rest ∧ y = .here rest
  | .real .swap => ∃ stack', exchangeTop i.arg stack = some stack' ∧ y = .here stack'
  | .real .copy => 1 ≤ i.arg ∧ ∃ v, stack[i.arg - 1]? = some v ∧ y = .here (v :: stack)
  | .real .loadConst => ∃ k, consts[i.arg]? = some k ∧ y = .here (D.const k :: stack)
  | .pseudo .jump => y = .away i.arg stack
  | .pseudo .popJumpIfFalse =>
    ∃ v rest, stack = v :: rest ∧ y = if D.truthy v then .here rest else .away i.arg rest
  | .real op => ∃ taken seen put rest, stack = taken ++ (seen ++ rest) ∧
    D.does op i.arg taken seen put ∧ y = .here (put ++ (seen ++ rest))
  | .pseudo _ => False

theorem Instr.goes_of_isActive {D : Interpretation V} {consts : List Constant} {op : Opcode}
    (hop : op.isActive) {arg : Nat} {loc : Location} {stack : List V} {y : Control V} :
    Instr.Goes D consts { op := .real op, arg := arg, loc := loc } stack y ↔
      ∃ taken seen put rest, stack = taken ++ (seen ++ rest) ∧ D.does op arg taken seen put ∧
        y = .here (put ++ (seen ++ rest)) := by
  cases op <;> first | exact .rfl | cases hop

/-- Where code that is passed through as a whole leads. -/
def Part.Goes (D : Interpretation V) (p : Part) (stack : List V) (y : Control V) : Prop :=
  match p with
  | .value e => ∃ v, D.value e v ∧ y = .here (v :: stack)
  | .wait => ∃ v w rest, stack = v :: rest ∧ D.waits v w ∧ y = .here (w :: rest)
  | .body => y = .here stack

/-- Where a piece leads. What is on its way to a label goes past everything but the label. -/
def Piece.Goes (D : Interpretation V) (consts : List Constant) :
    Piece → Control V → Control V → Prop
  | .entry (.instr i), .here stack, y => i.Goes D consts stack y
  | .entry (.label _), .here stack, y => y = .here stack
  | .entry (.label l), .away m stack, y => y = if l = m then .here stack else .away m stack
  | .entry (.instr _), .away m stack, y => y = .away m stack
  | .part p _, .here stack, y => p.Goes D stack y
  | .part _ code, .away m stack, y => m ∉ placed code ∧ y = .away m stack

/-- Where pieces lead, one after the other. -/
def Crosses (D : Interpretation V) (consts : List Constant) :
    List Piece → Control V → Control V → Prop
  | [], x, y => y = x
  | p :: ps, x, y => ∃ z, p.Goes D consts x z ∧ Crosses D consts ps z y

section

variable {D : Interpretation V} {consts : List Constant} {ps qs : List Piece} {x y : Control V}
  {l : Label} {stack : List V}

theorem crosses_append :
    Crosses D consts (ps ++ qs) x y ↔ ∃ z, Crosses D consts ps x z ∧ Crosses D consts qs z y := by
  induction ps generalizing x with
  | nil => simp [Crosses]
  | cons p ps ih => simp only [List.cons_append, Crosses, ih]; grind

theorem crosses_away (h : l ∉ placed (transcript ps)) :
    Crosses D consts ps (.away l stack) y ↔ y = .away l stack := by
  induction ps with
  | nil => rfl
  | cons p ps ih =>
    rw [transcript_cons, placed_append, List.mem_append, not_or] at h
    have hp : ∀ z, p.Goes D consts (.away l stack) z ↔ z = .away l stack := by
      intro z
      match p, h.1 with
      | .entry (.instr i), _ => rfl
      | .entry (.label m), hm =>
        have hne : m ≠ l := fun hml => hm (hml ▸ List.mem_singleton.mpr rfl)
        simp [Piece.Goes, hne]
      | .part k code, hm => exact and_iff_right hm
    simp only [Crosses, hp, exists_eq_left, ih h.2]

end

end Bytecode
