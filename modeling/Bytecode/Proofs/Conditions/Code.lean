import Bytecode.Proofs.Conditions.Evaluation
import Bytecode.Proofs.Matching.Tests

/-!
# Code of conditions

The code of a condition is made of instructions, of labels of its own, and of the code of the
operands that are no conditions themselves.
-/

namespace Bytecode

open List Gen

def Expr.isCondition : Expr ScopeId → Bool
  | .unary _ .not _ | .boolOp .. | .conditional .. | .compare .. => true
  | _ => false

/-- Code that is passed through as a whole is that of an operand. -/
def Piece.IsOperand (c : GenContext) (p : Piece) : Prop :=
  p.Faithful c ∧ ∀ e code, p = .part (.value e) code → e.isCondition = false

/-- The pieces have been added. No label that was there has got its place among them. -/
structure Laid (c : GenContext) (s s' : GenState) (ps : List Piece) : Prop where
  grows : s.unit.Extends s'.unit (transcript ps)
  keeps : ∀ l, s.unit.graph.Waits l → s'.unit.graph.Waits l
  own : ∀ l ∈ placed (transcript ps), s.unit.graph.labels.size ≤ l
  operands : ∀ p ∈ ps, p.IsOperand c

namespace Laid

variable {c : GenContext} {s s' s'' : GenState} {ps qs : List Piece} {l : Label} {loc : Location}
  {a : Unit}

theorem refl (h : s.unit.graph.Chained) : Laid c s s [] where
  grows := .refl h
  keeps _ hl := hl
  own _ hl := by cases hl
  operands := forall_mem_nil _

theorem trans (h : Laid c s s' ps) (h' : Laid c s' s'' qs) : Laid c s s'' (ps ++ qs) where
  grows := transcript_append ps qs ▸ h.grows.trans h'.grows
  keeps l hl := h'.keeps l (h.keeps l hl)
  own l hl := by
    rw [transcript_append, placed_append] at hl
    rcases mem_append.mp hl with hl | hl
    · exact h.own l hl
    · exact Nat.le_trans h.grows.size (h'.own l hl)
  operands := forall_mem_append.mpr ⟨h.operands, h'.operands⟩

theorem chained (h : Laid c s s' ps) : s'.unit.graph.Chained :=
  h.grows.chained

theorem known (h : Laid c s s' ps) (hl : l < s.unit.graph.labels.size) :
    l < s'.unit.graph.labels.size :=
  Nat.lt_of_lt_of_le hl h.grows.size

theorem free (h : Laid c s s' ps) (hl : l < s.unit.graph.labels.size) :
    l ∉ placed (transcript ps) :=
  fun hplaced => Nat.not_le_of_lt hl (h.own l hplaced)

theorem addInstr (h : s.unit.graph.Chained) (i : Instr) : Laid c s (s.addInstr i) [.instr i] where
  grows := .addInstr h i
  keeps l hl := (Graph.waits_addInstr l).mpr hl
  own _ hl := by cases hl
  operands := forall_mem_singleton.mpr ⟨trivial, fun _ _ h => nomatch h⟩

theorem bind (h : Laid c s s' ps) (hl : s.unit.graph.labels.size ≤ l)
    (hwaits : s'.unit.graph.Waits l) (hrun : bindLabel l c s' = .ok (a, s'')) :
    Laid c s s'' (ps ++ [.label l]) := by
  obtain ⟨hgrows, hkeeps⟩ := extends_bindLabel h.chained hwaits hrun
  refine ⟨?_, fun m hm => ?_, fun m hm => ?_, ?_⟩
  · rw [transcript_append]
    exact h.grows.trans hgrows
  · exact hkeeps m (Nat.ne_of_lt (Nat.lt_of_lt_of_le hm.lt hl)) (h.keeps m hm)
  · rw [transcript_append, placed_append] at hm
    rcases mem_append.mp hm with hm | hm
    · exact h.own m hm
    · exact mem_singleton.mp hm ▸ hl
  · exact forall_mem_append.mpr
      ⟨h.operands, forall_mem_singleton.mpr ⟨trivial, fun _ _ h => nomatch h⟩⟩

end Laid

section

variable {c : GenContext} {s s' : GenState} {op : Opcode} {arg : Nat} {l : Label} {loc : Location}
  {a : Unit}

theorem laid_emit (h : s.unit.graph.Chained) (hrun : emit op arg loc c s = .ok (a, s')) :
    Laid c s s' [.instr { op := op, arg := arg, loc := loc }] := by
  obtain rfl := addOp_eq_ok hrun
  exact .addInstr h _

theorem laid_emitJump {op : Operation} (h : s.unit.graph.Chained)
    (hrun : emitJump op l loc c s = .ok (a, s')) :
    Laid c s s' [.instr { op := op, arg := l, loc := loc }] := by
  obtain rfl := emitJump_eq_ok hrun
  exact .addInstr h _

theorem laid_emitCompare {op : CompareOp} (h : s.unit.graph.Chained)
    (hrun : emitCompare op loc c s = .ok (a, s')) :
    Laid c s s' [.instr { op := op.opcode, arg := op.code, loc := loc }] := by
  have hop : emitCompare op loc = emit op.opcode op.code loc := by cases op <;> rfl
  rw [hop] at hrun
  exact laid_emit h hrun

theorem laid_newLabel (h : s.unit.graph.Chained) (hrun : newLabel c s = .ok (l, s')) :
    Laid c s s' [] ∧ s.unit.graph.labels.size ≤ l ∧ s'.unit.graph.Waits l := by
  obtain ⟨hgrown, rfl⟩ := grown_newLabel (.nil h) hrun
  refine ⟨⟨hgrown.grows, hgrown.keeps, ?_, forall_mem_nil _⟩, Nat.le_refl _, ?_⟩
  · intro m hm
    cases hm
  · exact hgrown.awaits.waits _ (mem_singleton.mpr rfl)

theorem laid_operand {site : Site} (hc : site.Met c.scopes c) {e : Expr ScopeId}
    (he : e.isCondition = false) (h : s.unit.graph.Chained)
    (hrun : (lowerExpr e).load c s = .ok (a, s')) :
    ∃ code, Laid c s s' [.part (.value e) code] := by
  obtain ⟨code, hgrown⟩ := grown_insert (inserts_lowerExpr hc e) (.nil h) hrun
  have hcode : transcript [.part (.value e) code] = code := by simp [transcript, Piece.entries]
  refine ⟨code, ?_, hgrown.keeps, fun l hl => ?_, forall_mem_singleton.mpr ⟨?_, ?_⟩⟩
  · rw [hcode]
    exact hgrown.grows
  · -- A label that was there still waits, or had its place before.
    rw [hcode] at hl
    by_contra hlt
    rcases Graph.waits_or_hasPlace (Nat.lt_of_not_le hlt) with hwaits | hplace
    · exact (hgrown.keeps l hwaits).not_hasPlace (hgrown.grows.placed l hl)
    · exact hgrown.grows.fresh l hl hplace
  · exact ⟨s, s', hrun, hgrown.grows.entries⟩
  · rintro _ _ ⟨⟩
    exact he

end

end Bytecode
