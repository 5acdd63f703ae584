import Bytecode.Proofs.Optimizer.Edits

/-!
# Shuffles

Runs of exchanges that are made shorter can stand in place of the old ones, and so can instructions
from which exchanges are left out.
-/

namespace Bytecode

open List

variable {V W E : Type} {M : Machine V W E} {is js : List Instr} {i : Instr}

theorem Replaces.refines (h : Replaces is js) (cs : List Constant) : M.Refines cs is cs js := by
  intro s hs
  rw [M.run_eq_runWith] at hs ⊢
  rw [M.run_eq_runWith, h V W E _ s hs]

theorem Instr.isPlain_of_shuffles (h : i.shuffles) : i.op.isPlain := by
  rcases h with ⟨hop, _⟩ | hnop
  · rw [hop]; rfl
  · rw [isNop_iff.mp hnop]; rfl

theorem edits_fuseRun {run : List Instr} (hrun : ∀ i ∈ run, i.shuffles) (hi : i ∈ run)
    (hswap : i.isSwap) : Edits run (fuseRun run) := by
  have hlength := (fuseRun_spec hrun hi hswap).1
  have hplain : ∀ j ∈ run, j.op.isPlain := fun j hj => j.isPlain_of_shuffles (hrun j hj)
  unfold fuseRun
  rw [← deepestSwap]
  dsimp only
  rw [← length_reverse] at hlength
  generalize (exchanges (permute _ run)).reverse = places at hlength ⊢
  conv => arg 1; rw [← take_append_drop (run.length - places.length) run]
  refine .recast (rel_append (Recasts.map_toNop fun j hj => hplain j (mem_of_mem_take hj)) ?_)
  refine forall₂_iff_get.mpr ⟨by simp; omega, fun k hk hk' => ?_⟩
  simp only [get_eq_getElem, getElem_zipWith]
  exact .plain _ (.inl (hplain _ (mem_of_mem_drop (getElem_mem hk)))) rfl

theorem rewrites_fuseSwaps (cs : List Constant) (instrs : List Instr) :
    Rewrites cs instrs cs ((fuseSwaps instrs).1 ++ (fuseSwaps instrs).2) := by
  rw [fuseSwaps_append]
  split_ifs with hleave
  · rw [swapRun_append_drop]
    exact .refl cs instrs
  · obtain ⟨hrun, i, hmem, hswap⟩ := shuffles_swapRun hleave
    conv => arg 2; rw [← swapRun_append_drop instrs]
    obtain ⟨-, -, -, -, hreplaces⟩ := fuseRun_spec hrun hmem hswap
    have hfused : Rewrites cs (swapRun instrs) cs (fuseRun (swapRun instrs)) :=
      ⟨edits_fuseRun hrun hmem hswap, fun _ _ _ _ => hreplaces.refines cs⟩
    exact hfused.append (.refl cs _)

theorem Unswaps.edits (h : Unswaps is js) : Edits is js := by
  induction h with
  | refl is => exact .refl is
  | @idle i hi => exact .recast (.cons (.toNop (.inl (i.isPlain_of_isSwap hi))) .nil)
  | exchange hi _ hpre ha hmid hb hcan => exact .exchange hi hpre ha hmid hb hcan
  | append _ _ ih ih' => exact ih.append ih'
  | trans _ _ ih ih' => exact ih.trans ih'

theorem Unswaps.rewrites (h : Unswaps is js) (cs : List Constant) : Rewrites cs is cs js :=
  ⟨h.edits, fun _ _ _ _ => h.replaces.refines cs⟩

end Bytecode
