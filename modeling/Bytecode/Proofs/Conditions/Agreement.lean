import Bytecode.Proofs.Conditions.Connectives
import Bytecode.Proofs.Matching.Patterns

/-!
# Agreement of the two codes of a condition

An expression has one code for its value and another that jumps by it. The second asks what the
first with a test of the value asks, in the same order. It jumps if and only if that does, and
leaves the same on the stack.
-/

namespace Bytecode

open Gen Sample

section

variable {c : GenContext} {site : Site}

theorem computes_compare {loc : Location} {e : Expr ScopeId} {ops : List CompareOp}
    {es : List (Expr ScopeId)} (he : Computes c e) (h : ∀ e ∈ es, Computes c e) :
    Computes c (.compare loc e ops es) := by
  have hcode : lowerExpr (.compare loc e ops es) =
      let code := ExprCode.ofLoad (.compare loc e ops es)
        (loadCompare loc (lowerExpr e) ops (lowerExprs es))
      if 1 < ops.length then
        { code with jumpIf := jumpIfChain loc (lowerExpr e) ops (lowerExprs es) }
      else code := by
    rw [lowerExpr]
  have hload : (lowerExpr (.compare loc e ops es)).load.Does c 0
      (Expr.compare loc e ops es).loads := by
    have heq : (lowerExpr (.compare loc e ops es)).load =
        loadCompare loc (lowerExpr e) ops (lowerExprs es) := by
      rw [hcode]
      dsimp only
      split <;> rfl
    rw [heq]
    exact does_loadCompare he h
  refine ⟨hload, fun {n target} cond htarget => ?_⟩
  by_cases hops : 1 < ops.length
  · rw [hcode, if_pos hops]
    exact does_jumpIfChain htarget he h
  · have heq : (lowerExpr (.compare loc e ops es)).jumpIf target cond = (do
        (lowerExpr (.compare loc e ops es)).load
        emitJump (popJumpIf cond) target loc) := by
      rw [hcode, if_neg hops]
      rfl
    rw [heq]
    exact does_load_jump hload cond

mutual

theorem computes_lowerExpr (hc : site.Met c.scopes c) : (e : Expr ScopeId) → Computes c e
  | .unary _ op e => by
    cases op with
    | not => exact computes_not (computes_lowerExpr hc e)
    | _ => exact computes_operand hc rfl
  | .boolOp _ _ es =>
    have h := computes_lowerExprs hc es
    ⟨does_loadBoolOp h, fun _ htarget => does_jumpIfBoolOp htarget h⟩
  | .conditional _ test body orElse =>
    have htest := computes_lowerExpr hc test
    have hbody := computes_lowerExpr hc body
    have horElse := computes_lowerExpr hc orElse
    ⟨does_chooseBy htest hbody.load horElse.load fun _ _ _ _ => trivial,
      fun cond htarget => does_chooseBy htest (hbody.jumpIf cond htarget)
        (horElse.jumpIf cond htarget) fun _ _ _ _ => Oracle.within_branch htarget⟩
  | .compare _ e _ es => computes_compare (computes_lowerExpr hc e) (computes_lowerExprs hc es)
  | .named .. | .binary .. | .lambda .. | .dict .. | .set .. | .list .. | .tuple ..
  | .comprehension .. | .await .. | .yield .. | .yieldFrom .. | .call .. | .formatted ..
  | .joined .. | .constant .. | .member .. | .subscript .. | .starred .. | .name .. | .slice .. =>
    computes_operand hc rfl

theorem computes_lowerExprs (hc : site.Met c.scopes c) :
    (es : List (Expr ScopeId)) → ∀ e ∈ es, Computes c e
  | [] => List.forall_mem_nil _
  | e :: es => List.forall_mem_cons.mpr ⟨computes_lowerExpr hc e, computes_lowerExprs hc es⟩

end

/-- An expression is lowered as a condition, and for its value with a test of it. Whatever the
operands and the comparisons give, both codes ask for the same in the same order, and both go on as
the evaluation of the expression says: to the target if the value is as it should be, or to what
follows. The stack is then what it was. -/
theorem jumpIf_agrees (hc : site.Met c.scopes c) (e : Expr ScopeId) (target : Label) (cond : Bool)
    (loc : Location) {s s₁ s₂ : GenState} (hs : s.unit.graph.Chained)
    (htarget : target < s.unit.graph.labels.size)
    (hjump : (lowerExpr e).jumpIf target cond c s = .ok ((), s₁))
    (htest : (do
      (lowerExpr e).load
      emitJump (popJumpIf cond) target loc : Gen Unit) c s = .ok ((), s₂)) :
    ∃ ps qs, Laid c s s₁ ps ∧ Laid c s s₂ qs ∧ ∀ V (D : Oracle V) stack,
      D.run ps (.here stack) = D.run qs (.here stack) ∧
      D.run ps (.here stack) = (do return D.branch target cond stack (← D.eval e)) := by
  have he := computes_lowerExpr hc e
  obtain ⟨ps, hps, heffect⟩ := he.jumpIf cond htarget hs (Nat.le_refl _) hjump
  obtain ⟨qs, hqs, heffect'⟩ := does_load_jump he.load cond hs (Nat.le_refl _) htest
  refine ⟨ps, qs, hps, hqs, fun V D stack => ?_⟩
  exact ⟨(heffect V D stack).trans (heffect' V D stack).symm, heffect V D stack⟩

end

namespace Sample

/-- Negations, both boolean operations and a chain of comparisons, in a choice. -/
def nestedCondition : Expr ScopeId :=
  let leaf (k : Int) : Expr ScopeId := .constant (.ofLine 1) (.int k)
  let chain := Expr.compare (.ofLine 1) (leaf 3) [.less, .is] [leaf 4, leaf 5]
  let either := Expr.boolOp (.ofLine 1) .or [leaf 2, chain]
  let both := Expr.boolOp (.ofLine 1) .and [leaf 1, .unary (.ofLine 1) .not either]
  .conditional (.ofLine 1) (leaf 0) (.unary (.ofLine 1) .not both) (leaf 6)

def withLabel : GenState where
  unit := { graph := ({} : Graph).addLabel.1 }

theorem chained_withLabel : withLabel.unit.graph.Chained :=
  have h : ({} : UnitState).Extends withLabel.unit [] := .addLabel .empty
  h.chained

end Sample

/-- The nested condition is lowered in both ways, and the codes agree. -/
theorem jumpIf_agrees_nestedCondition : ∃ s₁ s₂ ps qs,
    Laid moduleContext withLabel s₁ ps ∧
    Laid moduleContext withLabel s₂ qs ∧ ∀ V (D : Oracle V) stack,
      D.run ps (.here stack) = D.run qs (.here stack) ∧
      D.run ps (.here stack) = (do return D.branch 0 true stack (← D.eval nestedCondition)) := by
  have hjump : ((lowerExpr nestedCondition).jumpIf 0 true moduleContext
      withLabel).isOk := by
    decide +kernel
  have htest : ((do
      (lowerExpr nestedCondition).load
      emitJump (popJumpIf true) 0 (.ofLine 1) : Gen Unit) moduleContext
      withLabel).isOk := by
    decide +kernel
  obtain ⟨⟨_, s₁⟩, hjump⟩ := Result.exists_of_isOk hjump
  obtain ⟨⟨_, s₂⟩, htest⟩ := Result.exists_of_isOk htest
  obtain ⟨ps, qs, hps, hqs, hagree⟩ := jumpIf_agrees met_moduleContext _ 0 true (.ofLine 1)
    chained_withLabel (by decide) hjump htest
  exact ⟨s₁, s₂, ps, qs, hps, hqs, hagree⟩

end Bytecode
