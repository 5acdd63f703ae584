import Bytecode.Proofs.Graph.Relates
import Bytecode.Proofs.Optimizer.Preservation

/-!
# Annotations

Passes that write down what the machine does not look at keep the links and the handlers of a graph,
and its instructions do one by one what they did before.
-/

namespace Bytecode

variable {V W E : Type} {M : Machine V W E} {g h : Graph}

namespace Machine

/-- The second graph differs from the first in annotations only. -/
abbrev Annotates (M : Machine V W E) (g h : Graph) : Prop :=
  Graph.Relates M.Mimics g h

namespace Annotates

variable {g h : Graph}

theorem closed (hg : M.Annotates g h) (hc : g.Closed) : h.Closed := by
  refine hc.rewrite hg.links (fun id hid => (hg.handler id).trans hid) fun id hid j hj => ?_
  obtain ⟨i, hi, hij⟩ := Result.exists_of_mem_forall₂ (hg.instrs id) hj
  exact (hc.admits id hid i hi).congr hij.2.1 hij.2.2

theorem preserves (hg : M.Annotates g h) (cs : List Constant) : M.Preserves ⟨g, cs⟩ ⟨h, cs⟩ :=
  preserves_of_refines (Graph.stays_true g) hg.links.entry (fun id _ => hg.links.next id)
    fun id _ => .of_run_eq (M.run_of_mimics (hg.instrs id) cs)

end Annotates

namespace Mimics

variable {i j : Instr}

theorem of_eq_self (h : i = j) : M.Mimics i j :=
  h ▸ .refl i

theorem of_places (h : i.Places j) : M.Mimics i j := by
  obtain ⟨loc, rfl, _⟩ := h
  exact .of_eq rfl rfl rfl

theorem of_checks (h : i.Checks j) : M.Mimics i j := by
  rcases h with rfl | ⟨hi, rfl⟩
  · exact .refl _
  · refine ⟨fun cs s => ?_, rfl, fun h => ?_⟩
    · simp only [Machine.exec, hi, Operation.meaning]
    · cases h

/-- The machine looks neither at a recorded handler nor at the operand of a yield. -/
theorem of_labels (h : i.Labels j) : M.Mimics i j := by
  obtain ⟨handler, arg, rfl, rfl | hi⟩ := h
  · exact .of_eq rfl rfl rfl
  · refine ⟨fun cs s => ?_, rfl, id⟩
    simp only [Machine.exec, hi, Operation.meaning]

end Mimics

end Machine

theorem annotates_labelHandlers (hg : g.labelHandlers = .ok h) : M.Annotates g h :=
  (relates_labelHandlers hg).mono fun _ _ => .of_labels

theorem annotates_checkUnboundLoads (g : Graph) (localCount paramCount : Nat) :
    M.Annotates g (g.checkUnboundLoads localCount paramCount) :=
  (relates_checkUnboundLoads g localCount paramCount).mono fun _ _ => .of_checks

theorem annotates_places (hg : Graph.Relates Instr.Places g h) : M.Annotates g h :=
  hg.mono fun _ _ => .of_places

theorem annotates_eq (hg : Graph.Relates Eq g h) : M.Annotates g h :=
  hg.mono fun _ _ => .of_eq_self

end Bytecode
