import Bytecode.Assembly.Offsets
import Bytecode.Proofs.Code.Decoding

/-!
# Offsets that settled

Once the offsets of a layout settle, the operand of every jump is the distance to its target by the
sizes of the final instructions. Aiming changes nothing but operands.
-/

namespace Bytecode.Layout

open List Result Forall₂

variable {is js : List Instr} {l r : Layout} {offsets : List (BlockId × Nat)} {k : Nat}

@[simp] theorem instrs_nil : instrs [] = [] := rfl

@[simp] theorem instrs_cons (b : BlockId × List Instr) (l : Layout) :
    instrs (b :: l) = b.2 ++ instrs l := rfl

@[simp] theorem instrs_append (l m : Layout) : instrs (l ++ m) = instrs l ++ instrs m := by
  simp [instrs]

theorem unitsOf_append (is js : List Instr) : unitsOf (is ++ js) = unitsOf is + unitsOf js := by
  induction is with
  | nil => simp [unitsOf]
  | cons i is ih => simp [unitsOf, ih, Nat.add_assoc]

theorem unitsOf_eq_of_sizes (h : is.map (unitCount ·.arg) = js.map (unitCount ·.arg)) :
    unitsOf is = unitsOf js := by
  induction is generalizing js with
  | nil =>
    rcases js with _ | ⟨j, js⟩
    · rfl
    · simp at h
  | cons i is ih =>
    rcases js with _ | ⟨j, js⟩
    · simp at h
    · obtain ⟨hi, hrest⟩ := List.cons.inj h
      simp only [unitsOf, hi, ih hrest]

theorem unitsOf_take_succ_pos (hk : k < is.length) : 0 < unitsOf (is.take (k + 1)) := by
  rcases is with _ | ⟨i, is⟩
  · simp at hk
  · have hpos := unitCount_pos i.arg
    simp only [take_succ_cons, unitsOf]
    omega

theorem unitsOf_take_succ {i : Instr} (hi : is[k]? = some i) :
    unitsOf (is.take (k + 1)) = unitsOf (is.take k) + unitCount i.arg := by
  rw [take_add_one, unitsOf_append, hi]
  simp [unitsOf]

theorem unitsOf_take_inj {k' : Nat} (hk : k ≤ is.length) (hk' : k' ≤ is.length)
    (h : unitsOf (is.take k) = unitsOf (is.take k')) : k = k' := by
  induction is generalizing k k' with
  | nil =>
    simp only [length_nil, Nat.le_zero_eq] at hk hk'
    omega
  | cons i is ih =>
    have hpos := unitCount_pos i.arg
    rcases k with _ | k <;> rcases k' with _ | k' <;>
      simp only [take_zero, take_succ_cons, unitsOf, length_cons] at h hk hk'
    · rfl
    · omega
    · omega
    · have heq : k = k' := ih (by omega) (by omega) (by omega)
      rw [heq]

def before (l : Layout) (id : BlockId) : List Instr :=
  instrs (l.takeWhile (·.1 ≠ id))

theorem before_isPrefix (l : Layout) (id : BlockId) : l.before id <+: l.instrs := by
  obtain ⟨rest, hrest⟩ := List.takeWhile_prefix (l := l) (fun b => decide (b.1 ≠ id))
  refine ⟨instrs rest, ?_⟩
  rw [before, ← instrs_append, hrest]

theorem take_length_before (l : Layout) (id : BlockId) :
    l.instrs.take (l.before id).length = l.before id :=
  (List.prefix_iff_eq_take.mp (l.before_isPrefix id)).symm

theorem lookup_offsetsFrom (l : Layout) (start : Nat) (id : BlockId) :
    (l.offsetsFrom start).lookup id =
      if id ∈ l.map (·.1) then some (start + unitsOf (l.before id)) else none := by
  induction l generalizing start with
  | nil => rfl
  | cons b l ih =>
    rw [offsetsFrom, lookup_cons]
    by_cases hb : b.1 = id
    · simp [before, hb, unitsOf]
    · have hne : id ≠ b.1 := fun h => hb h.symm
      have hmem : id ∈ (b :: l).map (·.1) ↔ id ∈ l.map (·.1) := by simp [hne]
      rw [beq_false_of_ne hne, ih]
      simp only [hmem, before, takeWhile_cons, hb, not_false_eq_true, decide_true, if_true,
        ne_eq, instrs_cons, unitsOf_append, Nat.add_assoc]

theorem offsetOf_offsetsFrom {id : BlockId} (hid : id ∈ l.map (·.1)) :
    offsetOf (l.offsetsFrom 0) id = unitsOf (l.before id) := by
  rw [offsetOf, lookup_offsetsFrom, if_pos hid, Option.getD_some, Nat.zero_add]

theorem before_append (l m : Layout) (id : BlockId) :
    before (l ++ m) id = if id ∈ l.map (·.1) then l.before id else l.instrs ++ m.before id := by
  induction l with
  | nil => rfl
  | cons b l ih =>
    by_cases hb : b.1 = id
    · simp [before, hb]
    · simp only [before] at ih
      simp only [before, cons_append, takeWhile_cons, ne_eq, hb, not_false_eq_true, decide_true,
        if_true, instrs_cons, ih, map_cons, mem_cons, Ne.symm hb, false_or]
      split_ifs <;> simp

theorem before_of_split {pre post : Layout} {b : BlockId × List Instr}
    (hnodup : (l.map (·.1)).Nodup) (hl : l = pre ++ b :: post) : l.before b.1 = pre.instrs := by
  rw [hl, map_append, nodup_append] at hnodup
  have hpre : b.1 ∉ pre.map (·.1) := fun h => hnodup.2.2 _ h b.1 (by simp) rfl
  rw [hl, before_append, if_neg hpre]
  simp [before]

theorem mem_of_offsetOf_ne_zero {id : BlockId} (h : offsetOf (l.offsetsFrom 0) id ≠ 0) :
    id ∈ l.map (·.1) := by
  by_contra hid
  rw [offsetOf, lookup_offsetsFrom, if_neg hid] at h
  exact h rfl

theorem distance_eq_ok {op : Opcode} {direction : Direction} {stop target d : Nat} :
    distance op direction stop target = .ok d ↔ match direction with
      | .forward => stop + d = target
      | .backward => target + d = stop := by
  cases direction <;> simp only [distance] <;> split_ifs <;> simp <;> omega

/-- The second instruction is the first one with another operand, if that is a jump. -/
def SameButDistance (i j : Instr) : Prop :=
  j = { i with arg := j.arg } ∧ (j.arg = i.arg ∨ i.op.isJump)

namespace SameButDistance

variable {i j k : Instr}

theorem refl (i : Instr) : SameButDistance i i := ⟨rfl, Or.inl rfl⟩

theorem op (h : SameButDistance i j) : j.op = i.op := by rw [h.1]

theorem target (h : SameButDistance i j) : j.target = i.target := by rw [h.1]

theorem trans (hij : SameButDistance i j) (hjk : SameButDistance j k) : SameButDistance i k := by
  refine ⟨?_, ?_⟩
  · rw [hjk.1, hij.1]
  · rcases hjk.2 with hk | hk
    · rw [hk]
      exact hij.2
    · exact Or.inr (hij.op ▸ hk)

end SameButDistance

/-- The second layout has the same blocks, and in them the same instructions but for the operands
of jumps. -/
def SameButDistances (l r : Layout) : Prop :=
  Forall₂ (fun a b => b.1 = a.1 ∧ Forall₂ SameButDistance a.2 b.2) l r

namespace SameButDistances

variable {l m r : Layout}

theorem refl (l : Layout) : SameButDistances l l :=
  forall₂_same.mpr fun _ _ => ⟨rfl, forall₂_same.mpr fun i _ => .refl i⟩

theorem trans (h₁ : SameButDistances l m) (h₂ : SameButDistances m r) : SameButDistances l r :=
  Result.forall₂_trans h₁ h₂ fun _ _ _ ha hb =>
    ⟨hb.1.trans ha.1, Result.forall₂_trans ha.2 hb.2 fun _ _ _ => .trans⟩

theorem map_fst (h : SameButDistances l r) : r.map (·.1) = l.map (·.1) := by
  induction h with
  | nil => rfl
  | cons hb _ ih => simp [hb.1, ih]

theorem instrs (h : SameButDistances l r) : Forall₂ SameButDistance l.instrs r.instrs := by
  induction h with
  | nil => exact nil
  | cons hb _ ih => exact rel_append hb.2 ih

theorem offsetsFrom (h : SameButDistances l r)
    (hsizes : r.instrs.map (unitCount ·.arg) = l.instrs.map (unitCount ·.arg)) (start : Nat) :
    r.offsetsFrom start = l.offsetsFrom start := by
  induction h generalizing start with
  | nil => rfl
  | @cons a b l r hb hrest ih =>
    simp only [instrs_cons, map_append] at hsizes
    obtain ⟨hhead, htail⟩ := append_inj hsizes (by simp [hb.2.length_eq])
    simp only [Layout.offsetsFrom, hb.1, unitsOf_eq_of_sizes hhead, ih htail]

end SameButDistances

theorem aim_spec {stop : Nat} {i j : Instr} (h : aim offsets stop i = .ok j) : SameButDistance i j ∧
      ∀ op direction target, j.op = .real op → op.direction? = some direction →
        j.target = some target →
          distance op direction stop (offsetOf offsets target) = .ok j.arg := by
  unfold aim at h
  split at h
  · rename_i target op htarget hop
    split at h
    · rename_i direction hdir
      obtain ⟨arg, harg, h⟩ := bind_eq_ok.mp h
      obtain rfl := Except.ok.inj h
      exact ⟨⟨rfl, Or.inr (by simp [hop, Operation.isJump, hdir])⟩, by
        rintro _ _ _ hop' hdir' htarget'
        simp_all⟩
    · obtain rfl := Except.ok.inj h
      exact ⟨.refl i, by
        rintro _ _ _ hop' hdir' htarget'
        simp_all⟩
  · rename_i hnone
    obtain rfl := Except.ok.inj h
    exact ⟨.refl i, fun _ _ _ hop _ htarget => (hnone _ _ htarget hop).elim⟩

theorem aimAll_spec {start : Nat} (h : aimAll offsets start is = .ok js) :
    Forall₂ SameButDistance is js ∧
      ∀ k i j, is[k]? = some i → js[k]? = some j →
        aim offsets (start + unitsOf (is.take (k + 1))) i = .ok j := by
  induction is generalizing start js with
  | nil =>
    obtain rfl := Except.ok.inj h
    exact ⟨nil, by simp⟩
  | cons i is ih =>
    obtain ⟨j, hj, h⟩ := bind_eq_ok.mp h
    obtain ⟨js', hjs, h⟩ := bind_eq_ok.mp h
    obtain rfl := Except.ok.inj h
    obtain ⟨hsame, hall⟩ := ih hjs
    refine ⟨cons (aim_spec hj).1 hsame, ?_⟩
    rintro (_ | k) i' j' hi hj'
    · obtain rfl : i = i' := by simpa using hi
      obtain rfl : j = j' := by simpa using hj'
      simpa [unitsOf] using hj
    · have := hall k i' j' (by simpa using hi) (by simpa using hj')
      simpa [unitsOf, Nat.add_assoc] using this

/-- Aiming the blocks after a part of the layout, by the offsets of the whole. -/
theorem mapM_aimAll_spec (pre : Layout) {post : Layout} (hl : l = pre ++ post)
    (hnodup : (l.map (·.1)).Nodup)
    (h : post.mapM (fun b : BlockId × List Instr => do
      return (b.1, ← aimAll (l.offsetsFrom 0) (offsetOf (l.offsetsFrom 0) b.1) b.2)) = .ok r) :
    SameButDistances post r ∧ ∀ k i j, post.instrs[k]? = some i → r.instrs[k]? = some j →
      aim (l.offsetsFrom 0) (unitsOf pre.instrs + unitsOf (post.instrs.take (k + 1))) i =
        .ok j := by
  induction post generalizing pre r with
  | nil =>
    obtain rfl := Except.ok.inj h
    exact ⟨nil, by simp⟩
  | cons b post ih =>
    rw [mapM_eq_ok, forall₂_cons_left_iff] at h
    obtain ⟨c, r, hb, h, rfl⟩ := h
    obtain ⟨js, hjs, hb⟩ := bind_eq_ok.mp hb
    obtain rfl := Except.ok.inj hb
    obtain ⟨hsame, hall⟩ := ih (pre ++ [b]) (by simp [hl]) (mapM_eq_ok.mpr h)
    have hstart : offsetOf (l.offsetsFrom 0) b.1 = unitsOf pre.instrs := by
      rw [offsetOf_offsetsFrom (by simp [hl]), before_of_split hnodup hl]
    obtain ⟨hsame', hall'⟩ := aimAll_spec hjs
    refine ⟨cons ⟨rfl, hsame'⟩ hsame, ?_⟩
    intro k i j hi hj
    simp only [instrs_cons] at hi hj ⊢
    -- the instruction stands in the first block or in one of those after it
    by_cases hk : k < b.2.length
    · rw [getElem?_append_left hk] at hi
      rw [getElem?_append_left (hsame'.length_eq ▸ hk)] at hj
      rw [take_append_of_le_length (by omega), ← hstart]
      exact hall' k i j hi hj
    · rw [getElem?_append_right (by omega)] at hi
      rw [getElem?_append_right (by rw [← hsame'.length_eq]; omega), ← hsame'.length_eq] at hj
      have := hall (k - b.2.length) i j hi hj
      rw [instrs_append, unitsOf_append] at this
      rw [take_append, take_of_length_le (by omega), unitsOf_append,
        show k + 1 - b.2.length = k - b.2.length + 1 by omega]
      simpa [Nat.add_assoc] using this

theorem aimOnce_spec (hnodup : (l.map (·.1)).Nodup) (h : l.aimOnce = .ok r) :
    SameButDistances l r ∧ ∀ k i j, l.instrs[k]? = some i → r.instrs[k]? = some j →
      aim (l.offsetsFrom 0) (unitsOf (l.instrs.take (k + 1))) i = .ok j := by
  simpa [unitsOf] using mapM_aimAll_spec [] rfl hnodup h

/-- The last round of aiming found all sizes as they are now. -/
theorem settle_spec {fuel : Nat} (hnodup : (l.map (·.1)).Nodup) (h : settle fuel l = .ok r) :
    ∃ m, SameButDistances l m ∧ m.aimOnce = .ok r ∧
      r.instrs.map (unitCount ·.arg) = m.instrs.map (unitCount ·.arg) := by
  induction fuel generalizing l with
  | zero => simp [settle] at h
  | succ fuel ih =>
    obtain ⟨aimed, haimed, h⟩ := bind_eq_ok.mp h
    split_ifs at h with hsizes
    · obtain rfl := Except.ok.inj h
      exact ⟨l, SameButDistances.refl l, haimed, hsizes⟩
    · obtain ⟨hsame, _⟩ := aimOnce_spec hnodup haimed
      obtain ⟨m, hm, hr⟩ := ih (hsame.map_fst ▸ hnodup) h
      exact ⟨m, hsame.trans hm, hr⟩

/-- In a resolved layout the operand of a jump is the distance from its end to its target. -/
theorem resolve_spec (hnodup : (l.map (·.1)).Nodup) (h : l.resolve = .ok r) :
    SameButDistances l r ∧ ∀ k j op direction target, r.instrs[k]? = some j → j.op = .real op →
      op.direction? = some direction → j.target = some target →
        distance op direction (unitsOf (r.instrs.take (k + 1)))
          (offsetOf (r.offsetsFrom 0) target) = .ok j.arg := by
  obtain ⟨m, hm, haimed, hsizes⟩ := settle_spec hnodup h
  obtain ⟨hsame, hall⟩ := aimOnce_spec (hm.map_fst ▸ hnodup) haimed
  refine ⟨hm.trans hsame, ?_⟩
  intro k j op direction target hj hop hdir htarget
  have hk : k < m.instrs.length := by
    rw [hsame.instrs.length_eq]
    exact (List.getElem?_eq_some_iff.mp hj).1
  have haim := (aim_spec (hall k _ j (getElem?_eq_getElem hk) hj)).2 op direction target
    hop hdir htarget
  have hstop : unitsOf (m.instrs.take (k + 1)) = unitsOf (r.instrs.take (k + 1)) :=
    unitsOf_eq_of_sizes (by rw [map_take, map_take, hsizes])
  rwa [hstop, ← hsame.offsetsFrom hsizes] at haim

end Bytecode.Layout
