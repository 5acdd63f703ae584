import Bytecode.Graph.Unbound
import Mathlib.Data.Finset.Card
import Mathlib.Data.Finset.Prod

/-!
# The spread of unbound locals

Every round of the analysis lets the sets grow, and there are only finitely many bits to set. So the
rounds come to an end within the fuel that they have, at sets that no block has anything to add to.
-/

namespace Bytecode

open Finset

variable {sets sets' sets'' : Array UnboundSet} {s : UnboundSet} {id dest x : Nat}

structure Grows (sets sets' : Array UnboundSet) : Prop where
  size : sets'.size = sets.size
  bits : ∀ id x, (sets.getD id 0).getLsbD x → (sets'.getD id 0).getLsbD x

theorem getD_modify (sets : Array UnboundSet) (dest id : Nat) (f : UnboundSet → UnboundSet) :
    (sets.modify dest f).getD id 0 =
      if dest = id ∧ id < sets.size then f (sets.getD id 0) else sets.getD id 0 := by
  by_cases hid : id < sets.size
  · simp [Array.getD, hid, Array.getElem_modify]
  · simp [Array.getD, hid]

namespace Grows

theorem refl (sets : Array UnboundSet) : Grows sets sets :=
  ⟨rfl, fun _ _ h => h⟩

theorem trans (h : Grows sets sets') (h' : Grows sets' sets'') : Grows sets sets'' :=
  ⟨h'.size.trans h.size, fun id x hx => h'.bits id x (h.bits id x hx)⟩

theorem antisymm (h : Grows sets sets') (h' : Grows sets' sets) : sets = sets' := by
  refine Array.ext h'.size fun id hid hid' => ?_
  have heq : sets.getD id 0 = sets'.getD id 0 :=
    BitVec.eq_of_getLsbD_eq fun x _ => Bool.eq_iff_iff.mpr ⟨h.bits id x, h'.bits id x⟩
  simpa [Array.getD, hid, hid'] using heq

theorem modify (sets : Array UnboundSet) (dest : Nat) (s : UnboundSet) :
    Grows sets (sets.modify dest (· ||| s)) := by
  refine ⟨Array.size_modify, fun id x hx => ?_⟩
  rw [getD_modify]
  split_ifs
  · rw [BitVec.getLsbD_or, hx, Bool.true_or]
  · exact hx

variable {α : Type} {step : Array UnboundSet → α → Array UnboundSet}
  (hstep : ∀ sets a, Grows sets (step sets a))

include hstep

theorem foldl (as : List α) (sets : Array UnboundSet) : Grows sets (as.foldl step sets) := by
  induction as generalizing sets with
  | nil => exact .refl sets
  | cons a as ih => exact (hstep sets a).trans (ih _)

/-- If a sweep over all elements adds nothing, no step of it does. -/
theorem step_eq_of_foldl_eq {as : List α} (h : as.foldl step sets = sets) {a : α} (ha : a ∈ as) :
    step sets a = sets := by
  induction as with
  | nil => cases ha
  | cons b as ih =>
    have hback : Grows (step sets b) sets := by
      have hgrows := Grows.foldl hstep as (step sets b)
      rwa [← List.foldl_cons, h] at hgrows
    have hfirst : step sets b = sets := hback.antisymm (hstep sets b)
    rcases List.mem_cons.mp ha with rfl | ha
    · exact hfirst
    · rw [List.foldl_cons, hfirst] at h
      exact ih h ha

end Grows

def bitsOf (sets : Array UnboundSet) : Finset (Nat × Nat) :=
  (range sets.size ×ˢ range 64).filter fun p => (sets.getD p.1 0).getLsbD p.2

theorem card_bitsOf_le (sets : Array UnboundSet) : (bitsOf sets).card ≤ 64 * sets.size := by
  refine (card_filter_le _ _).trans ?_
  rw [card_product, card_range, card_range, Nat.mul_comm]

theorem Grows.card_lt (h : Grows sets sets') (hne : sets' ≠ sets) :
    (bitsOf sets).card < (bitsOf sets').card := by
  have hsub : bitsOf sets ⊆ bitsOf sets' := by
    intro p hp
    simp only [bitsOf, mem_filter, mem_product, mem_range] at hp ⊢
    exact ⟨⟨h.size.symm ▸ hp.1.1, hp.1.2⟩, h.bits _ _ hp.2⟩
  refine card_lt_card (hsub.ssubset_of_ne fun heq => hne ?_)
  refine (h.antisymm ⟨h.size.symm, fun id x hx => ?_⟩).symm
  have hid : id < sets'.size := by
    by_contra hid
    simp [Array.getD, hid] at hx
  have hx64 : x < 64 := by
    by_contra hx64
    rw [BitVec.getLsbD_of_ge _ _ (by omega)] at hx
    cases hx
  have hmem : (id, x) ∈ bitsOf sets' :=
    mem_filter.mpr ⟨mem_product.mpr ⟨mem_range.mpr hid, mem_range.mpr hx64⟩, hx⟩
  rw [← heq] at hmem
  exact (mem_filter.mp hmem).2

namespace Graph

variable {g : Graph} {order : List BlockId}

theorem grows_send (ms : List (BlockId × UnboundSet)) (sets : Array UnboundSet) :
    Grows sets (ms.foldl (fun sets (dest, s) => sets.modify dest (· ||| s)) sets) :=
  .foldl (fun sets m => .modify sets m.1 m.2) ms sets

theorem grows_spreadOnce (g : Graph) (order : List BlockId) (sets : Array UnboundSet) :
    Grows sets (g.spreadOnce order sets) := by
  refine .foldl (fun sets id => ?_) _ sets
  split_ifs
  · exact grows_send _ _
  · exact .refl _

/-- The rounds end at sets that do not grow any more. -/
theorem spread_spec (g : Graph) (order : List BlockId) {fuel : Nat}
    (hfuel : 64 * sets.size < fuel + (bitsOf sets).card) :
    Grows sets (g.spread order fuel sets) ∧
      g.spreadOnce order (g.spread order fuel sets) = g.spread order fuel sets := by
  induction fuel generalizing sets with
  | zero =>
    have hcard := card_bitsOf_le sets
    omega
  | succ fuel ih =>
    rw [spread]
    split_ifs with heq
    · exact ⟨.refl sets, heq⟩
    · have hgrows := g.grows_spreadOnce order sets
      have hlt := hgrows.card_lt heq
      obtain ⟨hrest, hfixed⟩ := ih (by rw [hgrows.size]; omega)
      exact ⟨hgrows.trans hrest, hfixed⟩

theorem bits_of_send (hfixed : g.spreadOnce order sets = sets) (hid : id ∈ order)
    (hlt : id < sets.size) (hm : (dest, s) ∈ g.sendUnbound id (sets.getD id 0))
    (hdest : dest < sets.size) (hx : s.getLsbD x) : (sets.getD dest 0).getLsbD x := by
  have hblock := Grows.step_eq_of_foldl_eq (fun sets id => ?_) hfixed (List.mem_range.mpr hlt)
  · have hactive : (order.contains id || decide (sets.getD id 0 ≠ 0)) = true := by
      rw [List.contains_iff_mem.mpr hid, Bool.true_or]
    rw [if_pos hactive] at hblock
    have hsend := Grows.step_eq_of_foldl_eq (fun sets m => .modify sets m.1 m.2) hblock hm
    rw [← hsend, getD_modify, if_pos ⟨rfl, hdest⟩, BitVec.getLsbD_or, hx, Bool.or_true]
  · split_ifs
    · exact grows_send _ _
    · exact .refl _

end Graph

end Bytecode
