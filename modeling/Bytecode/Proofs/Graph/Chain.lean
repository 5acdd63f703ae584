import Bytecode.Proofs.Graph.Layout

/-!
# Graphs that grow

While a graph is built, its blocks stand in the order of their numbers, and the last of them is the
one that grows.
-/

namespace Bytecode.Graph

variable {g : Graph} {l : Label}

/-! ### New blocks -/

theorem block_appendBlock (g : Graph) (hcur : g.blocks.size = g.current + 1) (id : Nat) :
    g.appendBlock.block id =
      if id = g.blocks.size then { next := (g.block g.current).next }
      else if id = g.current then { g.block id with next := some g.blocks.size }
      else g.block id := by
  have hblock : g.appendBlock.block id =
      ((g.addBlock { next := (g.block g.current).next }).1.modify g.current
        fun b => { b with next := some g.blocks.size }).block id := rfl
  rw [hblock, block_modify, block_addBlock]
  have hsize : (g.addBlock { next := (g.block g.current).next }).1.blocks.size =
      g.blocks.size + 1 := Array.size_push ..
  rw [hsize]
  by_cases hnew : id = g.blocks.size
  · rw [if_neg (fun h => by have : @Eq Nat g.current id := h.1; omega), if_pos hnew, if_pos hnew]
  · rw [if_neg hnew, if_neg hnew]
    by_cases hid : id = g.current
    · have hlt : id < g.blocks.size := by
        rw [hcur, hid]
        exact Nat.lt_succ_self _
      rw [if_pos ⟨hid.symm, Nat.lt_succ_of_lt hlt⟩, if_pos hid]
    · rw [if_neg (fun h => hid h.1.symm), if_neg hid]

@[simp] theorem size_appendBlock (g : Graph) : g.appendBlock.blocks.size = g.blocks.size + 1 := by
  simp [appendBlock, addBlock, modify]

theorem labels_addInstr (g : Graph) (i : Instr) : (g.addInstr i).labels = g.labels := by
  unfold addInstr
  split <;> rfl

/-! ### Labels -/

def nameCurrent (g : Graph) (l : Label) : Graph :=
  { g.modify g.current fun b => { b with label := some l } with
    labels := g.labels.setIfInBounds l (some g.current) }

theorem block_nameCurrent (hsize : g.blocks.size = g.current + 1) (l : Label) (id : Nat) :
    (g.nameCurrent l).block id =
      if id = g.current then { g.block id with label := some l } else g.block id := by
  have hblock : (g.nameCurrent l).block id =
      (g.modify g.current fun b => { b with label := some l }).block id := rfl
  rw [hblock, block_modify]
  by_cases hid : id = g.current
  · rw [if_pos hid, if_pos]
    refine ⟨hid.symm, ?_⟩
    rw [hsize, hid]
    exact Nat.lt_succ_self _
  · rw [if_neg hid, if_neg fun h => hid h.1.symm]

theorem labelBlock?_nameCurrent (hl : l < g.labels.size) (m : Label) :
    (g.nameCurrent l).labelBlock? m = if m = l then some g.current else g.labelBlock? m := by
  show (g.labels.setIfInBounds l (some g.current))[m]?.join = _
  rw [Array.getElem?_setIfInBounds]
  by_cases hm : m = l
  · subst hm
    simp [hl]
  · rw [if_neg (Ne.symm hm), if_neg hm]
    rfl

theorem labelBlock?_addLabel (g : Graph) (l : Label) :
    g.addLabel.1.labelBlock? l = g.labelBlock? l := by
  show (g.labels.push none)[l]?.join = g.labels[l]?.join
  rw [Array.getElem?_push]
  split_ifs with hl
  · rw [hl, Array.getElem?_eq_none (Nat.le_refl _)]
    rfl
  · rfl

/-- A label that is bound now has the last block or an empty new one. -/
theorem bindLabel_eq_ok {h : Graph} (hg : g.bindLabel l = .ok h) : h = g ∧
    (∃ id, g.labelBlock? l = some id) ∨ g.labels[l]? = some none ∧
      ((g.block g.current).instrs = [] ∧ (g.block g.current).label = none ∧ h = g.nameCurrent l ∨
        h = g.appendBlock.nameCurrent l) := by
  unfold bindLabel at hg
  split at hg
  · cases hg
  · rename_i id hbound
    refine .inl ⟨(Except.ok.inj hg).symm, id, ?_⟩
    rw [labelBlock?, hbound]
    rfl
  · rename_i hlabel
    obtain rfl := Except.ok.inj hg
    refine .inr ⟨hlabel, ?_⟩
    split_ifs with hcond
    · obtain ⟨hempty, hunnamed⟩ := Bool.and_eq_true_iff.mp hcond
      exact .inl ⟨List.isEmpty_iff.mp hempty, Option.isNone_iff_eq_none.mp hunnamed, rfl⟩
    · exact .inr rfl

theorem label_lt_of_getElem? {b : Option BlockId} (h : g.labels[l]? = some b) :
    l < g.labels.size := by
  by_contra hge
  rw [Array.getElem?_eq_none (Nat.le_of_not_lt hge)] at h
  cases h

/-! ### Chains -/

/-- The blocks stand in the order of their numbers, and the last one is current. -/
structure Chained (g : Graph) : Prop where
  entry : g.entry = 0
  size : g.blocks.size = g.current + 1
  next : ∀ id : Nat, (g.block id).next = if id < g.current then some (id + 1) else none

namespace Chained

theorem empty : ({} : Graph).Chained where
  entry := rfl
  size := rfl
  next id := by rcases id with _ | id <;> rfl

section

variable (h : g.Chained)
include h

theorem current_lt : g.current < g.blocks.size := by
  rw [h.size]
  exact Nat.lt_succ_self _

theorem appendBlock : g.appendBlock.Chained where
  entry := h.entry
  size := size_appendBlock g
  next id := by
    have hsize := h.size
    have hcurrent : g.appendBlock.current = g.blocks.size := rfl
    have hlast := h.next g.current
    rw [if_neg (Nat.lt_irrefl _)] at hlast
    rw [block_appendBlock g h.size, hcurrent]
    by_cases hnew : id = g.blocks.size
    · rw [if_pos hnew, if_neg (by omega)]
      exact hlast
    · rw [if_neg hnew]
      by_cases hid : id = g.current
      · rw [if_pos hid, if_pos (by omega), hsize, hid]
      · rw [if_neg hid, h.next]
        simp only [show id < g.current ↔ id < g.blocks.size by omega]

theorem modify (id : BlockId) {f : Block → Block} (hf : ∀ b, (f b).next = b.next) :
    (g.modify id f).Chained where
  entry := h.entry
  size := (size_modify g id f).trans h.size
  next j := ((SameLinks.modify id hf).next j).trans (h.next j)

theorem nameCurrent (l : Label) : (g.nameCurrent l).Chained :=
  have hnamed := h.modify g.current (f := fun b => { b with label := some l }) fun _ => rfl
  ⟨hnamed.entry, hnamed.size, hnamed.next⟩

theorem linked {start count : Nat} (hcount : start + count = g.current) :
    g.Linked (List.range' start (count + 1)) := by
  induction count generalizing start with
  | zero =>
    have hnext := h.next start
    have hge : ¬start < g.current := hcount ▸ Nat.lt_irrefl _
    rwa [if_neg hge] at hnext
  | succ count ih =>
    have hnext := h.next start
    have hlt : start < g.current := hcount ▸ Nat.lt_add_of_pos_right (Nat.succ_pos count)
    rw [if_pos hlt] at hnext
    exact ⟨hnext, ih (by rw [← hcount]; omega)⟩

theorem laysOut : g.LaysOut (List.range' 0 g.blocks.size) where
  head := by
    rw [h.size, h.entry]
    rfl
  linked := by
    rw [h.size]
    exact h.linked (Nat.zero_add _)
  nodup := List.nodup_range'
  bound id hid := by
    obtain ⟨-, hlt⟩ := List.mem_range'_1.mp hid
    rwa [Nat.zero_add] at hlt

theorem mem_order_iff {id : BlockId} : id ∈ g.order ↔ id < g.blocks.size := by
  rw [h.laysOut.order, List.mem_range'_1, Nat.zero_add]
  exact and_iff_right (Nat.zero_le _)

end

end Chained

end Bytecode.Graph
