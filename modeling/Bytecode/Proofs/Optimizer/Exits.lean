import Bytecode.Graph.Inline
import Bytecode.Proofs.Optimizer.Annotations

/-!
# Exits of the scope

Control never goes on behind a block that leaves the scope. Such a block can be copied: in place of
a jump to it, or as a block of its own that the jump goes to instead.
-/

namespace Bytecode

open List Bytecode.Graph Machine Operation

variable {V W E : Type} {M : Machine V W E} {is : List Instr} {id : BlockId} {i : Instr} {g : Graph}

namespace Machine

theorem exec_jump (hi : i.op.isUnconditionalJump) (cs : List Constant) (s : State V W E) :
    M.exec cs i s = s.leap i.target := by
  have hm : i.op.meaning = .jump := by simpa [isUnconditionalJump_eq] using hi
  simp only [exec, hm]

theorem run_exit {b : Block} (hb : b.exitsScope) (cs : List Constant) (s t : State V W E) :
    M.run cs b.instrs s ≠ .next t := by
  intro hrun
  have hleaves : Leaves (fun _ => True) b.instrs (M.run cs b.instrs s) :=
    M.run_leaves cs (by simp) (by simp)
  rw [hrun] at hleaves
  cases hleaves with
  | next hfall _ =>
    simp only [Block.exitsScope, Block.last?, Option.any_eq_true] at hb
    obtain ⟨i, hi, hexit⟩ := hb
    rw [hi] at hfall
    simp [fallsThrough, hexit] at hfall

/-- Behind a block that leaves the scope, the layout makes no difference. -/
theorem follow_exit {b : Block} (hb : b.exitsScope) (cs : List Constant) (s : State V W E)
    (next next' : Option BlockId) :
    (M.run cs b.instrs s).follow next = (M.run cs b.instrs s).follow next' := by
  have hne := fun t => M.run_exit hb cs s t
  cases hrun : M.run cs b.instrs s with
  | next t => exact absurd hrun (hne t)
  | jump target t => rfl
  | done e => rfl
  | wrong => rfl

end Machine

/-! ### Copies in place of a jump -/

namespace Graph

variable {g : Graph} {maxSize : Nat} {id : BlockId} {exit : List Instr}

theorem exitToCopy?_eq_some (h : g.exitToCopy? maxSize id = some exit) :
    ∃ is i target, (g.block id).instrs = is ++ [i] ∧ i.op.isUnconditionalJump ∧
      i.target = some target ∧ (g.block target).exitsScope ∧ exit = (g.block target).instrs := by
  unfold exitToCopy? at h
  obtain ⟨i, hlast, h⟩ := Option.bind_eq_some_iff.mp h
  by_cases hjump : i.op.isUnconditionalJump
  · simp only [hjump, ↓reduceIte] at h
    obtain ⟨target, htarget, h⟩ := Option.bind_eq_some_iff.mp h
    split_ifs at h with hexit
    rw [Bool.and_eq_true] at hexit
    exact ⟨_, i, target, Block.instrs_of_last? hlast, hjump, htarget, hexit.1,
      (Option.some.inj h).symm⟩
  · simp [hjump] at h

/-- A block that jumps to an exit gets a copy of it, or nothing happens. -/
theorem copyExit_cases (g : Graph) (maxSize : Nat) (id : BlockId) : g.copyExit maxSize id = g ∨
    ∃ is i t, (g.block id).instrs = is ++ [i] ∧ i.op.isUnconditionalJump ∧ i.target = some t ∧
      (g.block t).exitsScope ∧
      g.copyExit maxSize id = g.setInstrs id (is ++ i.toNop :: (g.block t).instrs) := by
  cases hcopy : g.exitToCopy? maxSize id with
  | none => exact .inl (by simp [copyExit, hcopy])
  | some exit =>
    obtain ⟨is, i, t, hinstrs, hjump, ht, hexit, rfl⟩ := exitToCopy?_eq_some hcopy
    refine .inr ⟨is, i, t, hinstrs, hjump, ht, hexit, ?_⟩
    have hlast : (g.block id).last? = some i := by simp [Block.last?, hinstrs]
    simp only [copyExit, hcopy]
    refine modify_eq_setInstrs ?_
    simp [Block.modifyLast, hlast, hinstrs]

theorem sameLinks_copyExit (g : Graph) (maxSize : Nat) (id : BlockId) :
    g.SameLinks (g.copyExit maxSize id) := by
  rcases g.copyExit_cases maxSize id with heq | ⟨is, i, t, _, _, _, _, heq⟩ <;> rw [heq]
  exacts [.refl g, .setInstrs id _]

theorem lt_size_of_instrs (h : (g.block id).instrs = is ++ [i]) : id < g.blocks.size := by
  by_contra hid
  rw [block_eq_of_size_le g (Nat.le_of_not_lt hid)] at h
  simp at h

end Graph

/-- The exit can stand in place of the jump to it: the old program runs one block more. -/
theorem preserves_copyExit {t : BlockId} (hblock : (g.block id).instrs = is ++ [i])
    (hjump : i.op.isUnconditionalJump) (ht : i.target = some t) (hexit : (g.block t).exitsScope)
    (cs : List Constant) :
    M.Preserves ⟨g, cs⟩ ⟨g.setInstrs id (is ++ i.toNop :: (g.block t).instrs), cs⟩ := by
  refine M.preserves_setInstrs_append (lt_size_of_instrs hblock) hblock fun s => ⟨1, ?_⟩
  simp only [M.run_cons, M.exec_jump hjump, ht, State.leap, Step.andThen, Step.follow,
    exec_toNop, Function.iterate_one, step, hop, Program.instrs]
  exact M.follow_exit hexit cs s _ _

/-! ### Blocks that end where they should -/

/-- No instruction but the last one ends the block. -/
def TerminatorsLast (is : List Instr) : Prop :=
  ∀ i ∈ is.dropLast, i.op.isTerminator = false

def Graph.WellEnded (g : Graph) : Prop :=
  ∀ id ∈ g.order, TerminatorsLast (g.block id).instrs

theorem terminatorsLast_of_checkInstrs (h : checkInstrs id is = .ok ()) : TerminatorsLast is := by
  induction is with
  | nil => simp [TerminatorsLast]
  | cons i is ih =>
    rw [checkInstrs] at h
    split_ifs at h with hlast hresolved
    · simp at h
    · simp at h
    cases is with
    | nil => simp [TerminatorsLast]
    | cons j is =>
      have hi : i.op.isTerminator = false := by simpa using hlast
      intro k hk
      rw [dropLast_cons_cons] at hk
      rcases mem_cons.mp hk with rfl | hk
      · exact hi
      · exact ih h k hk

theorem Graph.wellEnded_of_check (h : g.check = .ok ()) : g.WellEnded := by
  intro id hid
  have hall : ∀ ids : List BlockId, ids.forM (fun id => checkInstrs id (g.block id).instrs) =
      (.ok () : Result Unit) → ∀ id ∈ ids, checkInstrs id (g.block id).instrs = .ok () := by
    intro ids
    induction ids with
    | nil => simp
    | cons a ids ih =>
      intro h
      obtain ⟨⟨⟩, ha, h⟩ := Result.bind_eq_ok.mp h
      exact forall_mem_cons.mpr ⟨ha, ih h⟩
  exact terminatorsLast_of_checkInstrs (hall g.order h id hid)

/-! ### Copies that a jump goes to -/

/-- A jump with another target goes there instead, and does the same otherwise. -/
theorem Machine.exec_retarget (hi : i.op.isJump) (target : Option BlockId) (cs : List Constant)
    (s : State V W E) :
    M.exec cs { i with target := target } s = M.exec cs i s ∨
      ∃ t : State V W E, M.exec cs i s = t.leap i.target ∧
        M.exec cs { i with target := target } s = t.leap target := by
  rw [isJump_eq] at hi
  unfold exec
  cases hm : i.op.meaning <;> rw [hm] at hi <;> try (cases hi; done)
  case jump => exact .inr ⟨s, rfl, rfl⟩
  case popJump | noneJump | keepJump =>
    dsimp only
    split
    · split
      · exact .inr ⟨_, rfl, rfl⟩
      · exact .inl rfl
    · exact .inl rfl
  case choose =>
    dsimp only
    split
    · exact .inl rfl
    · unfold settle
      split
      · dsimp only
        split
        · exact .inr ⟨_, rfl, rfl⟩
        · exact .inl rfl
      · exact .inl rfl

namespace Graph

variable {g : Graph} {id exit : BlockId} {loc : Location}

/-- A block that ends in a jump to an exit without a line which others share. -/
theorem sharedExit?_eq_some (h : g.sharedExit? id = some (exit, loc)) :
    ∃ is i, (g.block id).instrs = is ++ [i] ∧ i.op.isJump ∧ i.target = some exit ∧
      (g.block exit).exitsScope ∧ (∀ j ∈ (g.block exit).instrs, j.line < 0) ∧
      1 < (g.block exit).predecessors := by
  unfold sharedExit? at h
  obtain ⟨i, hlast, h⟩ := Option.bind_eq_some_iff.mp h
  by_cases hjump : i.op.isJump
  · simp only [hjump, ↓reduceIte] at h
    obtain ⟨target, htarget, h⟩ := Option.bind_eq_some_iff.mp h
    split_ifs at h with hexit
    obtain rfl : target = exit := congrArg Prod.fst (Option.some.inj h)
    simp only [Block.isExitWithoutLine, Bool.and_eq_true, all_eq_true, decide_eq_true_eq] at hexit
    exact ⟨_, i, Block.instrs_of_last? hlast, hjump, htarget, hexit.1.1, hexit.1.2, hexit.2⟩
  · simp [hjump] at h

theorem exitsScope_of_jump {b : Block} (hb : b.instrs = is ++ [i]) (hjump : i.op.isJump) :
    b.exitsScope = false := by
  simp only [Block.exitsScope, Block.last?, hb, getLast?_append, getLast?_singleton,
    Option.some_or, Option.any_some, isScopeExit_eq]
  rw [isJump_eq] at hjump
  cases hm : i.op.meaning <;> rw [hm] at hjump <;> first | cases hjump; done | rfl

theorem ne_of_sharedExit? (h : g.sharedExit? id = some (exit, loc)) : id ≠ exit := by
  rintro rfl
  obtain ⟨is, i, hinstrs, hjump, _, hexit, _⟩ := sharedExit?_eq_some h
  rw [exitsScope_of_jump hinstrs hjump] at hexit
  cases hexit

theorem exit_lt_size (h : (g.block exit).exitsScope) : exit < g.blocks.size := by
  by_contra hlt
  rw [block_eq_of_size_le g (Nat.le_of_not_lt hlt)] at h
  cases h

theorem block_splitExit (h : g.sharedExit? id = some (exit, loc)) (j : BlockId) :
    (g.splitExit id).block j =
      if j = g.blocks.size then
        Block.modifyHead
          { instrs := (g.block exit).instrs
            next := (g.block exit).next
            predecessors := 1 }
          fun i => { i with loc := loc }
      else if j = id then
        (g.block id).modifyLast fun i => { i with target := some g.blocks.size }
      else if j = exit then
        { g.block exit with
          predecessors := (g.block exit).predecessors - 1, next := some g.blocks.size }
      else g.block j := by
  obtain ⟨is, i, hinstrs, _, _, hexit, _⟩ := sharedExit?_eq_some h
  have hid := lt_size_of_instrs hinstrs
  have hexit := exit_lt_size hexit
  have hne := ne_of_sharedExit? h
  simp only [splitExit, h]
  rw [block_modify, block_modify, block_addBlock]
  by_cases hsize : j = g.blocks.size
  · have hjid : id ≠ j := Nat.ne_of_lt (hsize ▸ hid)
    have hjexit : exit ≠ j := Nat.ne_of_lt (hsize ▸ hexit)
    simp [hsize, hsize ▸ hjid, hsize ▸ hjexit]
  · by_cases hjid : j = id
    · subst hjid
      have hlt : j < g.blocks.size + 1 := Nat.lt_succ_of_lt hid
      simp [hsize, hne.symm, addBlock, hlt]
    · by_cases hjexit : j = exit
      · subst hjexit
        have hlt : j < g.blocks.size + 1 := Nat.lt_succ_of_lt hexit
        simp [hsize, hne, hjid, addBlock, hlt]
      · simp [hsize, hjid, hjexit, Ne.symm hjid, Ne.symm hjexit]

end Graph

theorem Agree.refl {R : BlockId → State V W E → BlockId → State V W E → Prop}
    (hR : ∀ a s, R a s a s) (x : Point V W E) : Agree R x x := by
  cases x with
  | running a s => exact hR a s
  | ended e => rfl
  | wrong => trivial

/-- The jump goes to the copy and from there on as it went from the exit. -/
theorem preserves_splitExit (cs : List Constant) (g : Graph) (id : BlockId) :
    M.Preserves ⟨g, cs⟩ ⟨g.splitExit id, cs⟩ := by
  cases hshared : g.sharedExit? id with
  | none =>
    rw [show g.splitExit id = g by simp [splitExit, hshared]]
    exact .refl M _
  | some found =>
    obtain ⟨exit, loc⟩ := found
    obtain ⟨is, i, hinstrs, hjump, htarget, hexit, hline, _⟩ :=
      sharedExit?_eq_some hshared
    have hblock := block_splitExit hshared
    have hne := ne_of_sharedExit? hshared
    have hidlt := Nat.ne_of_lt (lt_size_of_instrs hinstrs)
    have hexitlt := Nat.ne_of_lt (exit_lt_size hexit)
    have hentry : (g.splitExit id).entry = g.entry := by simp [splitExit, hshared]; rfl
    let R : BlockId → State V W E → BlockId → State V W E → Prop :=
      fun a s b t => s = t ∧ (b = a ∨ a = exit ∧ b = g.blocks.size)
    have hR : ∀ a s, R a s a s := fun a s => ⟨rfl, .inl rfl⟩
    refine M.preserves_of_meet R (fun s _ => ⟨rfl, .inl hentry⟩) ?_ ?_
    · rintro a s b _ ⟨rfl, _⟩
      rfl
    rintro a s b _ ⟨rfl, hab⟩
    refine ⟨0, 0, ?_⟩
    simp only [Nat.zero_add, Function.iterate_one, step, hop, Program.instrs]
    rcases hab with rfl | ⟨rfl, rfl⟩
    · by_cases hsize : b = g.blocks.size
      · rw [block_eq_of_size_le g (Nat.le_of_eq hsize.symm)]
        trivial
      · by_cases hid : b = id
        · subst hid
          rw [hblock b, if_neg hidlt, if_pos rfl]
          have hlast : (g.block b).last? = some i := by simp [Block.last?, hinstrs]
          rw [Block.instrs_modifyLast hlast, hinstrs, dropLast_concat, Block.next_modifyLast,
            M.run_append, M.run_append]
          cases M.run cs is s with
          | next t =>
            simp only [Step.andThen, M.run_cons]
            obtain heq | ⟨u, hold, hnew⟩ := M.exec_retarget hjump (some g.blocks.size) cs t
            · rw [heq]
              exact .refl hR _
            · rw [hold, hnew, htarget]
              exact ⟨rfl, .inr ⟨rfl, rfl⟩⟩
          | jump t s' => exact hR _ _
          | done e => rfl
          | wrong => trivial
        · rw [hblock b, if_neg hsize, if_neg hid]
          split_ifs with hb
          · subst hb
            rw [M.follow_exit hexit cs s _ (some g.blocks.size)]
            exact .refl hR _
          · exact .refl hR _
    · have hplaces := fun b hb => (Relates.places_modifyHead b hb loc).imp
        fun _ _ h => Mimics.of_places (M := M) h
      rw [hblock g.blocks.size, if_pos rfl, M.run_of_mimics (hplaces _ ?_), Block.next_modifyHead]
      · exact .refl hR _
      · exact hline

theorem preserves_resolveLines (cs : List Constant) (g : Graph) (firstLine : Int) :
    M.Preserves ⟨g, cs⟩ ⟨g.resolveLines firstLine, cs⟩ := by
  have hsplit : ∀ (ids : List BlockId) (h : Graph),
      M.Preserves ⟨h, cs⟩ ⟨ids.foldl splitExit h, cs⟩ := by
    intro ids
    induction ids with
    | nil => exact fun h => .refl M _
    | cons id ids ih => exact fun h => (preserves_splitExit cs h id).trans (ih _)
  unfold resolveLines
  dsimp only
  refine .trans ((annotates_eq (relates_countPredecessors g)).preserves cs) ?_
  generalize g.countPredecessors = g
  refine .trans (hsplit g.order g) ?_
  generalize g.order.foldl splitExit g = g
  exact (annotates_places (relates_fillLines g firstLine)).preserves cs

end Bytecode
