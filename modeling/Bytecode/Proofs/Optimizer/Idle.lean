import Bytecode.Proofs.Optimizer.Edits

/-!
# Idle instructions and pairs

Idle instructions can go, and so can a push that the next instruction undoes. If the two stand in
different blocks, the stacks of the two programs differ by one value in between.
-/

namespace Bytecode

open List Machine Bytecode.Graph

variable {V W E : Type} {M : Machine V W E} {g : Graph} {i : Instr}

namespace Machine

theorem exec_popTop (hi : i.op = .real .popTop) (cs : List Constant) (s : State V W E) (v : V) :
    M.exec cs i (s.push v) = .next s := by
  simp only [exec, hi, Operation.meaning]
  rfl

/-- A push that a pop can undo does nothing else. -/
theorem exec_purePush (hi : i.isPurePush) (cs : List Constant) (s : State V W E) :
    M.exec cs i s = .wrong ∨ ∃ v, M.exec cs i s = .next (s.push v) := by
  simp only [Instr.isPurePush, Bool.or_eq_true, decide_eq_true_eq, Bool.and_eq_true] at hi
  rcases hi with hi | ⟨hi, harg⟩
  all_goals
    simp only [exec, hi, Operation.meaning]
    split
    · exact .inr ⟨_, rfl⟩
    · exact .inl rfl

end Machine

/-! ### Within a block -/

namespace Thinned

variable {is js : List Instr}

theorem run_eq (h : Thinned is js) (cs : List Constant) (s : State V W E) :
    M.run cs js s = M.run cs is s := by
  induction h generalizing s with
  | nil => rfl
  | keep i loc _ ih =>
    rw [run_cons, run_cons, M.exec_congr (i := { i with loc := loc }) rfl rfl rfl]
    congr 1
    exact funext ih
  | drop hi _ ih =>
    rw [run_cons, M.exec_of_isNop hi]
    exact ih s

end Thinned

/-- A push and the pop that undoes it can both be idle. -/
theorem refines_idlePair {j : Instr} (hi : i.isPurePush) (hj : j.op = .real .popTop)
    (cs : List Constant) (rest : List Instr) :
    M.Refines cs (i :: j :: rest) cs (i.toNop :: j.toNop :: rest) := by
  intro s hs
  rcases M.exec_purePush hi cs s with hw | ⟨v, hv⟩
  · exact absurd (by rw [run_cons, hw]; rfl) hs
  · simp [hv, Step.andThen, exec_popTop hj]

theorem Instr.isPlain_of_isPurePush (h : i.isPurePush) : i.op.isPlain := by
  simp only [Instr.isPurePush, Bool.or_eq_true, Bool.and_eq_true, decide_eq_true_eq] at h
  rcases h with hop | ⟨hop, _⟩ <;> rw [hop] <;> rfl

theorem rewrites_cancelFrom (cs : List Constant) (i : Instr) (is : List Instr) :
    Rewrites cs (i :: is) cs (cancelFrom i is) := by
  fun_induction cancelFrom i is with
  | case1 i => exact .refl cs [i]
  | case2 i j rest hpair ih =>
    obtain ⟨hi, hj⟩ : i.isPurePush ∧ j.op = .real .popTop := by simpa using hpair
    have hidle : Edits (i :: j :: rest) (i.toNop :: j.toNop :: rest) :=
      .recast (.cons (.toNop (.inl (i.isPlain_of_isPurePush hi))) (.cons
        (.toNop (.inl (by rw [hj]; rfl))) (Recasts.refl_list rest)))
    have hpair : Rewrites cs (i :: j :: rest) cs (i.toNop :: j.toNop :: rest) :=
      ⟨hidle, fun _ _ _ _ => refines_idlePair hi hj cs rest⟩
    exact hpair.trans ((Rewrites.refl cs [i.toNop]).append ih)
  | case3 i j rest _ ih => exact (Rewrites.refl cs [i]).append ih

theorem rewrites_cancelPairs (cs : List Constant) (is : List Instr) :
    Rewrites cs is cs (cancelPairs is) := by
  cases is with
  | nil => exact .refl cs []
  | cons i is => exact rewrites_cancelFrom cs i is

/-! ### Across blocks -/

/-- A push at the end of one block and a pop at the start of another, with nothing but private
blocks between, the first ones of them empty. -/
structure Straddle (g : Graph) (b : BlockId) (mid : List BlockId) (id : BlockId) : Prop where
  passes : g.Passes b mid id
  distinct : (b :: (mid ++ [id])).Nodup
  mem : ∀ j ∈ b :: (mid ++ [id]), j ∈ g.order
  empty : ∀ m ∈ mid, (g.block m).instrs = []
  hidden : ∀ m ∈ mid ++ [id], g.Private m
  push : ∃ is i, (g.block b).instrs = is ++ [i] ∧ i.isPurePush
  pop : ∃ i is, (g.block id).instrs = i :: is ∧ i.op = .real .popTop

namespace Straddle

variable {g : Graph} {b id : BlockId} {mid : List BlockId}

theorem ne (h : Straddle g b mid id) : b ≠ id := by
  rintro rfl
  simpa using h.distinct

theorem exists_instrs (h : Straddle g b mid id) : ∃ is i j js,
    (g.block b).instrs = is ++ [i] ∧ i.isPurePush ∧
      (g.block id).instrs = j :: js ∧ j.op = .real .popTop ∧
      g.idleAcross b id = (g.setInstrs b (is ++ [i.toNop])).setInstrs id (j.toNop :: js) := by
  obtain ⟨is, i, hb, hi⟩ := h.push
  obtain ⟨j, js, hid, hj⟩ := h.pop
  refine ⟨is, i, j, js, hb, hi, hid, hj, ?_⟩
  have hfirst : g.modify b (·.modifyLast Instr.toNop) = g.setInstrs b (is ++ [i.toNop]) :=
    modify_eq_setInstrs (by simp [Block.modifyLast, Block.last?, hb])
  rw [idleAcross, hfirst]
  refine modify_eq_setInstrs ?_
  rw [block_setInstrs_of_ne _ _ h.ne]
  simp only [Block.modifyHead, hid]

theorem block_other {j : BlockId} (hb : j ≠ b) (hid : j ≠ id) :
    (g.idleAcross b id).block j = g.block j := by
  rw [idleAcross, block_modify_of_ne _ _ hid.symm, block_modify_of_ne _ _ hb.symm]

section

variable (h : Straddle g b mid id) (hg : g.Closed)
include h hg

/-- A block that is linked to one between the push and the pop is itself there, or has the push. -/
theorem mem_of_next {a n : BlockId} (ha : a ∈ g.order) (hn : (g.block a).next = some n)
    (hmem : n ∈ mid ++ [id]) : a ∈ b :: mid := by
  obtain ⟨c, hc, hcn⟩ := h.passes.exists_prev hmem
  have hc' : c ∈ g.order := by
    apply h.mem c
    rcases mem_cons.mp hc with rfl | hc <;> simp [*]
  obtain rfl := hg.layout.linked.next_inj hg.layout.nodup ha hc' hn hcn
  exact hc

end

/-- The places of the two runs: the same, but for one more value on the first stack between the
push and the pop. -/
def Related (g : Graph) (mid : List BlockId) (id : BlockId) (a : BlockId) (s : State V W E)
    (a' : BlockId) (t : State V W E) : Prop :=
  a' = a ∧ (a ∈ g.order ∧ ∀ h ∈ s.handlers, h.target ∈ g.order ∧ (g.block h.target).isHandler) ∧
    ((a ∉ mid ++ [id] ∧ s = t) ∨ (a ∈ mid ++ [id] ∧ ∃ v, s = t.push v))

/-- The runs come to related places where they leave a block in the same way, and do not fall
through to a place between. -/
theorem agree_of_same (h : Straddle g b mid id) {next : Option BlockId} {out : Step V W E}
    (hjump : ∀ t s', out = .jump t s' → ¬ g.Private t)
    (hnext : ∀ n, next = some n → n ∉ mid ++ [id])
    (hin : (out.follow next).Within (· ∈ g.order) (fun t => t ∈ g.order ∧ (g.block t).isHandler)) :
    Agree (Related g mid id) (out.follow next) (out.follow next) := by
  refine .follow (P := (· ∉ mid ++ [id])) (fun a s hin hout => ⟨rfl, hin, .inl ⟨hout, rfl⟩⟩) ?_
    hnext hin
  exact fun t s' hout hmem => hjump t s' hout (h.hidden t hmem)

theorem preserves (h : Straddle g b mid id) (hg : g.Closed) (cs : List Constant) :
    M.Preserves ⟨g, cs⟩ ⟨g.idleAcross b id, cs⟩ := by
  obtain ⟨is, i, i', is', hpush, hi, hpop, hi', heq⟩ := h.exists_instrs
  have hlinks : g.SameLinks (g.idleAcross b id) := heq ▸ (.trans (.setInstrs _ _) (.setInstrs _ _))
  have hpush' : ((g.idleAcross b id).block b).instrs = is ++ [i.toNop] := by
    rw [heq, block_setInstrs_of_ne _ _ h.ne.symm, block_setInstrs,
      if_pos ⟨rfl, hg.layout.bound b (h.mem b (by simp))⟩]
  have hpop' : ((g.idleAcross b id).block id).instrs = i'.toNop :: is' := by
    have hlt := hg.layout.bound id (h.mem id (by simp))
    rw [heq, block_setInstrs, if_pos ⟨rfl, by simpa using hlt⟩]
  refine M.preserves_of_meet (Related g mid id) (fun s hs => ?_) ?_ ?_
  · refine ⟨rfl, ⟨hg.layout.entry_mem, by simp [hs]⟩, .inl ⟨fun hmem => ?_, rfl⟩⟩
    -- The entry is the first block of the layout, and no link leads to it.
    obtain ⟨c, hc, hn⟩ := h.passes.exists_prev hmem
    have hc' : c ∈ g.order := by
      apply h.mem c
      rcases mem_cons.mp hc with rfl | hc <;> simp [*]
    exact hg.layout.next_ne_entry hc' hn rfl
  · rintro a s _ t ⟨rfl, _, ⟨_, rfl⟩ | ⟨_, v, rfl⟩⟩ <;> rfl
  rintro _ s a t ⟨rfl, hin, hst⟩
  have hstep := hg.stays.step (M := M) (p := ⟨g, cs⟩) (x := .running a s) hin
  refine ⟨0, 0, ?_⟩
  simp only [Nat.zero_add, Function.iterate_one, step, hop, Program.instrs, hlinks.next] at hstep ⊢
  rcases hst with ⟨hout, rfl⟩ | ⟨hmem, v, rfl⟩
  · have hid : a ≠ id := fun he => hout (by simp [he])
    by_cases hb : a = b
    · subst hb
      obtain ⟨f, hf, hn⟩ := h.passes.exists_next (c := a) (by simp)
      rw [hpush, run_append] at hstep ⊢
      rw [hpush', run_append]
      cases hrun : M.run cs is s with
      | next s' =>
        -- The value is on the first stack only from here on.
        simp only [hrun, Step.andThen, run_cons, exec_toNop, run_nil, hn] at hstep ⊢
        rcases M.exec_purePush hi cs s' with hw | ⟨v, hv⟩
        · rw [hw]
          trivial
        · rw [hv] at hstep ⊢
          exact ⟨rfl, hstep, .inr ⟨hf, v, rfl⟩⟩
      | jump t s' =>
        rw [hrun] at hstep
        have his : is ⊆ (g.block a).instrs := by simp [hpush]
        have ht := hg.not_private hin.1 his hin.2 hrun
        exact ⟨rfl, hstep, .inl ⟨fun hmem => ht (h.hidden t hmem), rfl⟩⟩
      | done e => rfl
      | wrong => trivial
    · rw [block_other hb hid]
      refine h.agree_of_same (fun t s' => ?_) (fun n hn hmem => ?_) hstep
      · exact hg.not_private hin.1 (List.Subset.refl _) hin.2
      · rcases mem_cons.mp (h.mem_of_next hg hin.1 hn hmem) with rfl | hmid
        · exact hb rfl
        · exact hout (by simp [hmid])
  · rcases mem_append.mp hmem with hmid | hid
    · have hb : a ≠ b := fun he => by
        have := (nodup_cons.mp h.distinct).1
        exact this (by simp [← he, hmid])
      have hid : a ≠ id := fun he => by
        have := (nodup_append.mp (nodup_cons.mp h.distinct).2).2.2
        exact this a hmid id (by simp) he
      obtain ⟨f, hf, hn⟩ := h.passes.exists_next (c := a) (by simp [hmid])
      rw [h.empty a hmid, hn] at hstep
      rw [block_other hb hid, h.empty a hmid, hn]
      exact ⟨rfl, hstep, .inr ⟨hf, v, rfl⟩⟩
    · obtain rfl : a = id := by simpa using hid
      rw [hpop, run_cons, exec_popTop hi'] at hstep ⊢
      rw [hpop', run_cons, exec_toNop]
      refine h.agree_of_same (fun t' s' => ?_) (fun n hn hmem => ?_) hstep
      · have his : is' ⊆ (g.block a).instrs := by simp [hpop]
        exact hg.not_private hin.1 his hin.2
      · have hmem' := h.mem_of_next hg hin.1 hn hmem
        have := h.distinct
        rw [← cons_append] at this
        exact (nodup_append.mp this).2.2 a hmem' a (by simp) rfl

end Straddle

end Bytecode
