import Bytecode.Assembly.Directions
import Bytecode.Proofs.Assembly.Offsets
import Bytecode.Proofs.Graph.Nops

/-!
# Instructions in their final form

Between the graph and the layout an instruction changes its operation and its operand, and idle ones
go. The blocks and their order stay, and the instructions that are left do what they did.
-/

namespace Bytecode

open List Result

variable {seen : List BlockId} {j i : Instr}

/-! ### Directions -/

theorem direction?_of_directed? {op : Operation} {direction : Direction} {op' : Opcode}
    (h : directed? op direction = some op') : op'.direction? = some direction := by
  simp only [directed?] at h
  split at h <;> cases direction <;> simp_all <;> subst h <;> rfl

theorem directed?_ne_none {op : Opcode} (h : op.direction? = some .backward)
    (direction : Direction) : directed? (.real op) direction ≠ none := by
  unfold Opcode.direction? at h
  split at h <;> simp_all [directed?]

theorem mem_backwardOrPop {target : BlockId} {op : Opcode} (hj : j ∈ backwardOrPop i target op) :
    (j.op = .real op ∧ j.target = some target ∧ j.arg = 0) ∨ j.op = .real .copy ∨
      j.op = .real .popTop := by
  simp only [backwardOrPop, mem_cons, not_mem_nil, or_false] at hj
  rcases hj with rfl | rfl | rfl
  · exact Or.inr (Or.inl rfl)
  · exact Or.inl ⟨rfl, rfl, rfl⟩
  · exact Or.inr (Or.inr rfl)

/-- What an instruction can become when jumps get their directions: it stays if it is no jump or has
no target, or it is a jump to its target, backward exactly if that has been seen before, or it helps
such a jump. -/
theorem mem_directInstr {js : List Instr} (h : directInstr seen i = .ok js) (hj : j ∈ js) :
    (j = i ∧ (i.op.isJump → i.target = none)) ∨
    (∃ target op, i.op.isJump ∧ i.target = some target ∧ j.target = some target ∧
      j.op = .real op ∧ op.direction? = some (if target ∈ seen then .backward else .forward) ∧
      (j.arg = i.arg ∨ j.arg = 0)) ∨
    j.op = .real .copy ∨ j.op = .real .popTop := by
  unfold directInstr at h
  split at h
  · rename_i htarget
    obtain rfl := Except.ok.inj h
    exact Or.inl ⟨mem_singleton.mp hj, fun _ => htarget⟩
  rename_i target htarget
  by_cases hjump : i.op.isJump
  swap
  · obtain rfl : [i] = js := by simpa [hjump] using h
    exact Or.inl ⟨mem_singleton.mp hj, fun h => absurd h hjump⟩
  rw [if_neg (by simp [hjump])] at h
  simp only [contains_iff_mem] at h
  generalize hdir : (if target ∈ seen then Direction.backward else .forward) = direction at h
  split at h
  · rename_i op hop
    obtain rfl := Except.ok.inj h
    obtain rfl := mem_singleton.mp hj
    exact Or.inr (Or.inl ⟨target, op, hjump, htarget, htarget, rfl,
      hdir ▸ direction?_of_directed? hop, Or.inl rfl⟩)
  · rename_i op hop hnone
    obtain rfl := Except.ok.inj h
    obtain rfl := mem_singleton.mp hj
    refine Or.inr (Or.inl ⟨target, op, hjump, htarget, htarget, hop, ?_, Or.inl rfl⟩)
    -- a jump that has no counterpart goes forward only
    rw [hdir]
    rw [hop, Operation.isJump] at hjump
    obtain ⟨_ | _, hdir⟩ := Option.isSome_iff_exists.mp hjump
    · exact hdir
    · exact absurd (hop ▸ hnone) (directed?_ne_none hdir .forward)
  iterate 2
    · obtain rfl := Except.ok.inj h
      rcases mem_backwardOrPop hj with ⟨hop, ht, harg⟩ | hop
      · exact Or.inr (Or.inl ⟨target, _, hjump, htarget, ht, hop, by rw [hdir]; rfl, Or.inr harg⟩)
      · exact Or.inr (Or.inr hop)
  · simp at h

namespace Graph

variable {g h : Graph} {ids : List BlockId}

/-- The instructions that stand in a block come from those that stood there, and the blocks seen are
those before it and its own. -/
theorem directFrom_spec (hids : ids.Nodup) (hg : g.directFrom seen ids = .ok h) :
    SameLinks g h ∧ (∀ pre id post, ids = pre ++ id :: post → ∀ j ∈ (h.block id).instrs,
      ∃ i ∈ (g.block id).instrs, ∃ js,
        directInstr (id :: (pre.reverse ++ seen)) i = .ok js ∧ j ∈ js) ∧
    ∀ id ∉ ids, h.block id = g.block id := by
  induction ids generalizing seen g with
  | nil =>
    obtain rfl := Except.ok.inj hg
    exact ⟨SameLinks.refl g, by simp, fun _ _ => rfl⟩
  | cons id ids ih =>
    obtain ⟨jss, hjss, hg⟩ := bind_eq_ok.mp hg
    obtain ⟨hid, hids⟩ := nodup_cons.mp hids
    obtain ⟨hlinks, hall, hother⟩ := ih hids hg
    refine ⟨(SameLinks.setInstrs id _).trans hlinks, ?_, ?_⟩
    · rintro (_ | ⟨a, pre⟩) b post hsplit j hj
      · obtain ⟨rfl, rfl⟩ := List.cons.inj hsplit
        rw [hother id hid, block_setInstrs] at hj
        split_ifs at hj with hlt
        · obtain ⟨js, hjs, hj⟩ := mem_flatten.mp hj
          obtain ⟨i, hi, hdir⟩ := exists_of_mem_mapM hjss hjs
          exact ⟨i, hi, js, hdir, hj⟩
        · rw [block_eq_of_size_le g (by simpa using hlt)] at hj
          cases hj
      · obtain ⟨rfl, rfl⟩ := List.cons.inj hsplit
        obtain ⟨i, hi, js, hjs, hj⟩ := hall pre b post rfl j hj
        rw [block_setInstrs_of_ne g _ (by rintro rfl; simp at hid)] at hi
        exact ⟨i, hi, js, by simpa using hjs, hj⟩
    · intro b hb
      obtain ⟨hne, hb⟩ : b ≠ id ∧ b ∉ ids := by simpa using hb
      rw [hother b hb, block_setInstrs_of_ne g _ (Ne.symm hne)]

theorem SameFrames.directFrom (hg : g.directFrom seen ids = .ok h) : SameFrames g h := by
  induction ids generalizing seen g with
  | nil =>
    obtain rfl := Except.ok.inj hg
    exact .refl g
  | cons id ids ih =>
    obtain ⟨jss, _, hg⟩ := bind_eq_ok.mp hg
    exact (SameFrames.setInstrs id _).trans (ih hg)

end Graph

/-! ### Lowering -/

/-- Whether the operation does nothing at run time. -/
def Operation.isIdle : Operation → Bool
  | .real .nop | .pseudo .setupFinally | .pseudo .setupCleanup | .pseudo .setupWith
  | .pseudo .popBlock => true
  | _ => false

/-- The second instruction is the first in its final form. -/
inductive Instr.LowersTo (i j : Instr) : Prop where
  | same (op : j.op = i.op) (target : j.target = i.target)
      (arg : j.arg = i.arg ∨ i.op.isJump ∨ i.op.hasCell)
  | idle (op : i.op.isIdle) (op' : j.op = .real .nop) (target : j.target = none)
  | closure (op : i.op = .pseudo .loadClosure) (op' : j.op = .real .loadFast)
      (target : j.target = i.target)

namespace Instr.LowersTo

variable {i j k : Instr}

theorem refl (i : Instr) : i.LowersTo i := same rfl rfl (Or.inl rfl)

theorem isIdle (h : i.LowersTo j) (hj : j.op.isIdle) : i.op.isIdle := by
  cases h with
  | same op _ _ => exact op ▸ hj
  | idle op _ _ => exact op
  | closure _ op' _ => simp [op', Operation.isIdle] at hj

theorem trans (hij : i.LowersTo j) (hjk : j.LowersTo k) : i.LowersTo k := by
  cases hjk with
  | same op target arg =>
    cases hij with
    | same op₁ target₁ arg₁ =>
      refine same (op.trans op₁) (target.trans target₁) ?_
      rcases arg with arg | arg
      · rw [arg]
        exact arg₁
      · exact Or.inr (op₁ ▸ arg)
    | idle op₁ op' target₁ => exact idle op₁ (op.trans op') (target.trans target₁)
    | closure op₁ op' target₁ => exact closure op₁ (op.trans op') (target.trans target₁)
  | idle op op' target => exact idle (hij.isIdle op) op' target
  | closure op op' target =>
    cases hij with
    | same op₁ target₁ _ => exact closure (op₁ ▸ op) op' (target.trans target₁)
    | idle _ op₁ _ => simp [op₁] at op
    | closure _ op₁ _ => simp [op₁] at op

end Instr.LowersTo

theorem relocateCell_spec {slots : Array Nat} (h : relocateCell slots i = .ok j) :
    i.LowersTo j := by
  unfold relocateCell at h
  split_ifs at h with hcell
  · split at h
    · obtain rfl := Except.ok.inj h
      exact .same rfl rfl (Or.inr (Or.inr hcell))
    · simp at h
  · obtain rfl := Except.ok.inj h
    exact .refl i

theorem lowerPseudo_spec (h : lowerPseudo i = .ok j) : i.LowersTo j := by
  unfold lowerPseudo at h
  split at h
  · obtain rfl := Except.ok.inj h
    exact .refl i
  iterate 4
    · rename_i hop
      obtain rfl := Except.ok.inj h
      exact .idle (by simp [hop, Operation.isIdle]) rfl rfl
  · rename_i hop
    obtain rfl := Except.ok.inj h
    exact .closure hop rfl rfl
  · simp at h

theorem Layout.SameButDistance.lowersTo (h : Layout.SameButDistance i j) : i.LowersTo j :=
  .same h.op h.target (h.2.imp_right Or.inl)

/-- The second list is the first in its final form, with some idle instructions dropped. -/
inductive Lowered : List Instr → List Instr → Prop where
  | nil : Lowered [] []
  | keep {i j : Instr} {is js : List Instr} (hij : i.LowersTo j) (h : Lowered is js) :
      Lowered (i :: is) (j :: js)
  | drop {i : Instr} {is js : List Instr} (hi : i.op.isIdle) (h : Lowered is js) :
      Lowered (i :: is) js

namespace Lowered

variable {is js ks : List Instr}

theorem of_forall₂ (h : Forall₂ Instr.LowersTo is js) : Lowered is js := by
  induction h with
  | nil => exact nil
  | cons hij _ ih => exact keep hij ih

theorem trans (h₁ : Lowered is js) (h₂ : Lowered js ks) : Lowered is ks := by
  induction h₁ generalizing ks with
  | nil => exact h₂
  | keep hij _ ih =>
    cases h₂ with
    | keep hjk h₂ => exact keep (hij.trans hjk) (ih h₂)
    | drop hj h₂ => exact drop (hij.isIdle hj) (ih h₂)
  | drop hi _ ih => exact drop hi (ih h₂)

theorem exists_of_mem (h : Lowered is js) (hj : j ∈ js) : ∃ i ∈ is, i.LowersTo j := by
  induction h with
  | nil => simp at hj
  | @keep i j' is js hij _ ih =>
    rcases mem_cons.mp hj with rfl | hj
    · exact ⟨i, by simp, hij⟩
    · obtain ⟨i', hi', hij'⟩ := ih hj
      exact ⟨i', by simp [hi'], hij'⟩
  | drop _ _ ih =>
    obtain ⟨i', hi', hij'⟩ := ih hj
    exact ⟨i', by simp [hi'], hij'⟩

end Lowered

theorem Thinned.lowered {is js : List Instr} (h : Thinned is js) : Lowered is js := by
  induction h with
  | nil => exact .nil
  | keep i loc _ ih => exact .keep (.same rfl rfl (Or.inl rfl)) ih
  | drop hi _ ih =>
    refine .drop ?_ ih
    simp only [Instr.isNop, decide_eq_true_eq] at hi
    simp [hi, Operation.isIdle]

namespace Graph

variable {g h : Graph}

theorem lowerPseudos_spec (hnodup : g.order.Nodup) (hg : g.lowerPseudos = .ok h) :
    SameLinks g h ∧ (∀ id ∈ g.order, Lowered (g.block id).instrs (h.block id).instrs) ∧
      ∀ id ∉ g.order, h.block id = g.block id := by
  refine foldlM_setInstrs (fun g id h hstep => ?_) (fun _ _ => .nil) hnodup hg
  obtain ⟨instrs, hi, hstep⟩ := bind_eq_ok.mp hstep
  obtain rfl := Except.ok.inj hstep
  refine ⟨dropNops ((g.setInstrs id instrs).lineAfter id)
    ((g.setInstrs id instrs).block id).instrs, by rw [dropNopsAt, setInstrs_setInstrs], ?_⟩
  have hlow : Lowered (g.block id).instrs ((g.setInstrs id instrs).block id).instrs := by
    rw [block_setInstrs]
    split_ifs with hlt
    · exact .of_forall₂ ((mapM_eq_ok.mp hi).imp fun _ _ => lowerPseudo_spec)
    · rw [block_eq_of_size_le g (by simpa using hlt)]
      exact .nil
  exact hlow.trans (thinned_dropNops _ _).lowered

theorem SameFrames.lowerPseudos (hg : g.lowerPseudos = .ok h) : SameFrames g h := by
  refine foldlM_induction (P := SameFrames g) (fun s id t _ hstep hs => ?_) hg (.refl g)
  obtain ⟨instrs, _, hstep⟩ := bind_eq_ok.mp hstep
  obtain rfl := Except.ok.inj hstep
  exact (hs.trans (.setInstrs id instrs)).trans (.setInstrs id _)

end Graph

end Bytecode
