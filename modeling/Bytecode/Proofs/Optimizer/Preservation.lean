import Bytecode.Proofs.Graph.Layout
import Bytecode.Proofs.Machine.Rewriting

/-!
# Runs of closed graphs

The layout of a closed graph bounds its runs, and nothing but falling through leads to a private
block. Instructions can be put in place of others if from behind them the program comes to where it
came before.
-/

namespace Bytecode

variable {V W E : Type} {M : Machine V W E} {cs : List Constant} {g : Graph} {is js : List Instr}

/-- The blocks of a closed graph, and those of them that are handlers, bound its runs. -/
theorem Graph.Closed.stays (hg : g.Closed) :
    g.Stays (· ∈ g.order) (fun t => t ∈ g.order ∧ (g.block t).isHandler) where
  entry := hg.layout.entry_mem
  handler _ ht := ht.1
  push id hid i hi hpush t ht := by
    obtain ⟨hmem, hhandler⟩ := hg.admits id hid i hi t ht
    exact ⟨hmem, hhandler hpush⟩
  jump id hid i hi _ t ht := (hg.admits id hid i hi t ht).1
  fall id hid _ n hn := hg.next_mem hid hn

/-- Nothing but falling through leads to the block. -/
def Graph.Private (g : Graph) (id : BlockId) : Prop :=
  (∀ j ∈ g.order, ∀ i ∈ (g.block j).instrs, i.target ≠ some id) ∧ (g.block id).isHandler = false

/-- Neither a jump nor an exception leads to a private block. -/
theorem Graph.Closed.not_private (hg : g.Closed) {id t : BlockId} (hid : id ∈ g.order)
    {is : List Instr} (his : is ⊆ (g.block id).instrs) {s s' : State V W E}
    (hs : ∀ h ∈ s.handlers, h.target ∈ g.order ∧ (g.block h.target).isHandler)
    (hrun : M.run cs is s = .jump t s') : ¬ g.Private t := by
  rintro ⟨htarget, hhandler⟩
  have hleaves := M.run_leaves cs (fun i hi => hg.stays.push id hid i (his hi)) hs
  rw [hrun] at hleaves
  cases hleaves with
  | leap hi _ ht _ => exact htarget id hid _ (his hi) ht
  | raise ht _ => rw [hhandler] at ht; exact absurd ht.2 (by simp)

/-- Other instructions at the end of a block, after which the old program comes to where the new
one is at once. -/
theorem Machine.preserves_setInstrs_append {id : BlockId} (hid : id < g.blocks.size)
    {pre : List Instr} (hblock : (g.block id).instrs = pre ++ is)
    (h : ∀ s : State V W E, ∃ n, (M.step ⟨g, cs⟩)^[n] ((M.run cs is s).follow (g.block id).next) =
      (M.run cs js s).follow (g.block id).next) :
    M.Preserves ⟨g, cs⟩ ⟨g.setInstrs id (pre ++ js), cs⟩ := by
  have hlinks : g.SameLinks (g.setInstrs id (pre ++ js)) := .setInstrs id _
  refine preserves_of_join (Graph.stays_true g) rfl fun a s _ _ => ?_
  by_cases ha : a = id
  · subst ha
    have hp : M.step ⟨g, cs⟩ (.running a s) =
        ((M.run cs pre s).andThen (M.run cs is)).follow (g.block a).next := by
      simp only [step, hop, Program.instrs, hblock, M.run_append]
    have hq : M.step ⟨g.setInstrs a (pre ++ js), cs⟩ (.running a s) =
        ((M.run cs pre s).andThen (M.run cs js)).follow (g.block a).next := by
      simp only [step, hop, Program.instrs, hlinks.next]
      rw [Graph.block_setInstrs, if_pos ⟨rfl, hid⟩, M.run_append]
    cases hrun : M.run cs pre s with
    | next t =>
      obtain ⟨n, hn⟩ := h t
      refine ⟨n, 0, .inr ?_⟩
      rw [hrun] at hp hq
      rw [Function.iterate_succ_apply, hp, Nat.zero_add, Function.iterate_one, hq]
      exact hn
    | jump | done | wrong =>
      refine ⟨0, 0, .inr ?_⟩
      simp only [Nat.zero_add, Function.iterate_one]
      rw [hp, hq, hrun]
      rfl
  · refine ⟨0, 0, .inr ?_⟩
    simp only [Nat.zero_add, Function.iterate_one, step, hop, Program.instrs]
    rw [Graph.block_setInstrs_of_ne _ _ (Ne.symm ha)]

/-- The second instruction does what the first does, and refers to the same block. -/
def Machine.Mimics (M : Machine V W E) (i j : Instr) : Prop :=
  (∀ cs s, M.exec cs j s = M.exec cs i s) ∧ j.target = i.target ∧
    (j.op.isBlockPush → i.op.isBlockPush)

theorem Machine.Mimics.of_eq {i j : Instr} (hop : j.op = i.op) (harg : j.arg = i.arg)
    (htarget : j.target = i.target) : M.Mimics i j :=
  ⟨fun cs s => M.exec_congr hop harg htarget cs s, htarget, by rw [hop]; exact id⟩

theorem Machine.Mimics.refl (i : Instr) : M.Mimics i i :=
  .of_eq rfl rfl rfl

theorem Machine.run_of_mimics (h : List.Forall₂ M.Mimics is js) (cs : List Constant)
    (s : State V W E) : M.run cs js s = M.run cs is s := by
  induction h generalizing s with
  | nil => rfl
  | @cons i j is js hij _ ih =>
    rw [Machine.run_cons, Machine.run_cons, hij.1 cs s]
    congr 1
    exact funext ih

end Bytecode
