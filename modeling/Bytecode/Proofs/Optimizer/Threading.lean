import Bytecode.Proofs.Optimizer.Peephole
import Bytecode.Proofs.Optimizer.Steps

/-!
# Jumps to jumps

A jump to a block that starts with another jump can go on to where that one goes: the two programs
meet there again.
-/

namespace Bytecode

open List Operation Option Bytecode.Graph

variable {V W E : Type} {M : Machine V W E} {cs cs' : List Constant} {g : Graph} {i j : Instr}

/-! ### One jump -/

/-- The second instruction does what the first does, or goes at once to where the first goes through
another block. -/
def Machine.Threads (M : Machine V W E) (p : Program) (i j : Instr) : Prop :=
  ∀ s : State V W E, M.exec p.constants j s = M.exec p.constants i s ∨
    ∃ (t : BlockId) (s' u : State V W E) (target : Option BlockId),
      M.exec p.constants i s = .jump t s' ∧ M.exec p.constants j s = u.leap target ∧
        M.hop p t s' = (u.leap target).follow none

theorem Machine.Threads.preserves (h : M.Threads ⟨g, cs⟩ i j) {id : BlockId}
    (hid : id < g.blocks.size) {pre rest : List Instr}
    (hblock : (g.block id).instrs = pre ++ i :: rest) :
    M.Preserves ⟨g, cs⟩ ⟨g.setInstrs id (pre ++ j :: rest), cs⟩ := by
  refine M.preserves_setInstrs_append hid hblock fun s => ?_
  simp only [M.run_cons]
  obtain heq | ⟨t, s', u, target, hi, hj, hhop⟩ := h s
  · exact ⟨0, by rw [heq]; rfl⟩
  · -- The old program runs the block that it jumped to.
    refine ⟨1, ?_⟩
    rw [hi, hj, Function.iterate_one]
    simp only [Step.andThen, Step.follow, Machine.step]
    rw [hhop]
    cases target <;> rfl

section

variable {p : Program} {i j dest : Instr} {t : BlockId} {rest : List Instr} {outcome : Bool}

theorem hop_of_leap (hblock : p.instrs t = dest :: rest) {s u : State V W E}
    {target : Option BlockId} (h : M.exec p.constants dest s = u.leap target) :
    M.hop p t s = (u.leap target).follow none := by
  rw [Machine.hop, hblock, M.run_cons, h]
  cases target <;> rfl

/-- A block whose only instruction goes on to the next block. -/
theorem hop_of_next (hblock : p.instrs t = [dest]) {n : BlockId}
    (hnext : (p.graph.block t).next = some n) {s u : State V W E}
    (h : M.exec p.constants dest s = .next u) : M.hop p t s = (u.leap (some n)).follow none := by
  rw [Machine.hop, hblock, M.run_cons, h, hnext]
  rfl

theorem threads_jump (hi : i.op.isJump) (ht : i.target = some t)
    (hblock : p.instrs t = dest :: rest) (hdest : dest.op = .pseudo .jump) :
    M.Threads p i { i with target := dest.target } := by
  intro s
  obtain heq | ⟨u, hold, hnew⟩ := M.exec_retarget hi dest.target p.constants s
  · exact .inl heq
  · rw [ht] at hold
    refine .inr ⟨t, u, u, dest.target, hold, hnew, hop_of_leap hblock ?_⟩
    exact M.exec_jump (by rw [hdest]; rfl) p.constants u

/-- A jump that keeps the top of the stack, and another in its place that tests for the same. -/
theorem threads_keepJump (hi : i.op.meaning = .keepJump outcome) (ht : i.target = some t)
    (hj : j.op.meaning = .popJump outcome ∨ j.op.meaning = .keepJump outcome)
    (hhop : ∀ (s : State V W E) (v : V), M.truthy v = outcome → ∃ (u : State V W E)
      (target : Option BlockId), M.exec p.constants j (s.push v) = u.leap target ∧
        M.hop p t (s.push v) = (u.leap target).follow none) : M.Threads p i j := by
  intro s
  cases hstack : s.stack with
  | nil =>
    left
    rcases hj with hj | hj <;> simp only [Machine.exec, hi, hj, hstack]
  | cons v stack =>
    obtain ⟨s, rfl⟩ : ∃ u : State V W E, s = u.push v :=
      ⟨{ s with stack := stack }, by rw [State.push, ← hstack]⟩
    by_cases htruthy : M.truthy v = outcome
    · obtain ⟨u, target, hexec, hhop⟩ := hhop s v htruthy
      refine .inr ⟨t, s.push v, u, target, ?_, hexec, hhop⟩
      rw [M.exec_keepJump s v hi, if_pos htruthy, ht]
      rfl
    · left
      rw [M.exec_keepJump s v hi, if_neg htruthy]
      rcases hj with hj | hj
      · rw [M.exec_popJump s v hj, if_neg htruthy]
      · rw [M.exec_keepJump s v hj, if_neg htruthy]

end

theorem meaning_popJumpIf (outcome : Bool) : (popJumpIf outcome).meaning = .popJump outcome := by
  cases outcome <;> rfl

theorem meaning_jumpIfOrPop (outcome : Bool) :
    (jumpIfOrPop outcome).meaning = .keepJump outcome := by
  cases outcome <;> rfl

theorem eq_of_threadJump {dest : Instr} {op : Operation} (h : threadJump i dest op = some j) :
    j = { i with target := dest.target, op := op } := by
  unfold threadJump at h
  split_ifs at h
  exact (some.inj h).symm

theorem isJump_of_threaded? {land : Landing} (h : threaded? i land = some j) : i.op.isJump := by
  unfold threaded? at h
  split at h
  · rw [isJump_eq, meaning_of_jumpOrPopOutcome? ‹_›]
    rfl
  all_goals first | (simp only [*]; rfl) | cases h

/-- What comes of sending a jump on. -/
structure Program.SendsOn (p : Program) (i j : Instr) : Prop where
  links : p.graph.Threads i j
  threads : ∀ ⦃V W E : Type⦄ (M : Machine V W E), M.Threads p i j

section

variable {p : Program} {i j : Instr} {land : Landing} {t : BlockId} {rest : List Instr}
  {outcome : Bool}

theorem threadOrPop_spec (hop : jumpOrPopOutcome? i.op = some outcome) (ht : i.target = some t)
    (hblock : p.instrs t = land.first :: rest) (hends : TerminatorsLast (p.instrs t))
    (hnext : (p.graph.block t).next = land.next) (h : threadOrPop outcome i land = some j) :
    p.SendsOn i j := by
  have hi := meaning_of_jumpOrPopOutcome? hop
  have htest := isTest_of_jumpOrPopOutcome? hop
  have hpop := meaning_popJumpIf outcome
  have hkeep := meaning_jumpIfOrPop outcome
  have hpop_test := isTest_popJumpIf outcome
  have hkeep_test := isTest_jumpIfOrPop outcome
  unfold threadOrPop at h
  dsimp only at h
  split_ifs at h with hsame hstay hother _
  · -- The landing takes the value away and jumps as well.
    obtain rfl := eq_of_threadJump h
    refine ⟨.along (.inl htest) ht hblock (.inl (hsame ▸ hpop_test)) (.inr ⟨htest, hpop_test⟩),
      fun V W E M => threads_keepJump hi ht (.inl hpop) fun s v hv => ?_⟩
    refine ⟨s, land.first.target, ?_, hop_of_leap hblock ?_⟩
    · rw [M.exec_popJump s v hpop, if_pos hv]
    · rw [M.exec_popJump s v (by rw [hsame, hpop]), if_pos hv]
  · -- The landing jumps with the value still there.
    obtain rfl := eq_of_threadJump h
    refine ⟨.along (.inl htest) ht hblock ?_ (.inr ⟨htest, hkeep_test⟩),
      fun V W E M => threads_keepJump hi ht (.inr hkeep) fun s v hv => ?_⟩
    · exact hstay.symm.imp_left fun hdest => by rw [hdest]; exact hkeep_test
    refine ⟨s.push v, land.first.target, ?_, hop_of_leap hblock ?_⟩
    · rw [M.exec_keepJump s v hkeep, if_pos hv]
    · rcases hstay with hdest | hdest
      · exact M.exec_jump (by rw [hdest]; rfl) p.constants _
      · rw [M.exec_keepJump s v (by rw [hdest, hkeep]), if_pos hv]
  · -- The landing takes the value away and goes on to the next block.
    split at h
    · rename_i n hn
      obtain rfl := some.inj h
      have hpop' := meaning_popJumpIf !outcome
      have hkeep' := meaning_jumpIfOrPop !outcome
      have hdest_test : land.first.op.isTest := by
        rcases hother with hdest | hdest <;> rw [hdest]
        exacts [isTest_jumpIfOrPop _, isTest_popJumpIf _]
      obtain rfl : rest = [] := by
        rw [hblock, terminatorsLast_cons] at hends
        by_contra hne
        have hend := hends.1 hne
        rw [isTerminator, isJump_of_isTest hdest_test] at hend
        cases hend
      refine ⟨.past htest ht hblock hdest_test (hnext.trans hn) hpop_test,
        fun V W E M => threads_keepJump hi ht (.inl hpop) fun s v hv => ?_⟩
      have hv' : M.truthy v ≠ !outcome := by simp [hv]
      refine ⟨s, some n, ?_, hop_of_next hblock (hnext.trans hn) ?_⟩
      · rw [M.exec_popJump s v hpop, if_pos hv]
      · rcases hother with hdest | hdest
        · rw [M.exec_keepJump s v (by rw [hdest, hkeep']), if_neg hv']
        · rw [M.exec_popJump s v (by rw [hdest, hpop']), if_neg hv']
    · cases h
  · split at h <;> cases h

theorem threaded?_spec (ht : i.target = some t) (hblock : p.instrs t = land.first :: rest)
    (hends : TerminatorsLast (p.instrs t)) (hnext : (p.graph.block t).next = land.next)
    (h : threaded? i land = some j) : p.SendsOn i j := by
  have hplain : i.op.isTest ∨ i.op = .pseudo .jump → (if land.first.op = .pseudo .jump then
      threadJump i land.first i.op else none) = some j → p.SendsOn i j := by
    intro hi h
    split_ifs at h with hdest
    obtain rfl := eq_of_threadJump h
    have hlinks : p.graph.Threads i { i with target := land.first.target, op := i.op } :=
      .along hi ht hblock (.inr hdest) (.inl rfl)
    exact ⟨hlinks, fun _ _ _ _ => threads_jump hlinks.isJump.1 ht hblock hdest⟩
  unfold threaded? at h
  split at h
  · exact threadOrPop_spec ‹_› ht hblock hends hnext h
  iterate 4
    · rename_i hop
      exact hplain (.inl (by rw [hop]; rfl)) h
  · rename_i hop
    exact hplain (.inr hop) h
  · cases h

end

/-! ### One block -/

/-- The program with the instructions of a block as they are in the middle of a pass. -/
def Cursor.program (c : Cursor) (g : Graph) (id : BlockId) : Program :=
  ⟨g.setInstrs id c.instrs, c.constants⟩

namespace Cursor

variable {c c' : Cursor} {g : Graph} {id : BlockId} {i j : Instr} {is ahead : List Instr}

theorem block_program (c : Cursor) (g : Graph) (id k : BlockId) :
    (c.program g id).graph.block k =
      if id = k ∧ k < g.blocks.size then { g.block k with instrs := c.instrs } else g.block k :=
  g.block_setInstrs id c.instrs k

theorem order_program (c : Cursor) (g : Graph) (id : BlockId) :
    (c.program g id).graph.order = g.order :=
  (SameLinks.setInstrs id c.instrs).order

theorem instrs_program (hid : id < g.blocks.size) : (c.program g id).instrs id = c.instrs := by
  rw [Program.instrs, block_program, if_pos ⟨rfl, hid⟩]

theorem program_eq (c c' : Cursor) (g : Graph) (id : BlockId) :
    c'.program g id = ⟨(c.program g id).graph.setInstrs id c'.instrs, c'.constants⟩ := by
  rw [program, program, setInstrs_setInstrs]

theorem Simplifies.becomes (h : c.Simplifies c') (hid : id ∈ g.order) (hlt : id < g.blocks.size) :
    (c.program g id).Becomes (c'.program g id) := by
  rw [program_eq c c']
  have hmem : id ∈ (c.program g id).graph.order := by rwa [order_program]
  have hblock : ((c.program g id).graph.block id).instrs = c.instrs := instrs_program hlt
  have hrewrites : Rewrites c.constants ((c.program g id).graph.block id).instrs c'.constants
      c'.instrs := hblock.symm ▸ h.rewrites
  exact .rewrite hmem h.grows hrewrites

/-- What a jump lands on is the start of its target, in the block as it is now. -/
theorem landing_spec {land : Landing} (hid : id < g.blocks.size)
    (h : g.landing id c i = some land) : ∃ t rest, i.target = some t ∧
      (c.program g id).instrs t = land.first :: rest ∧
      ((c.program g id).graph.block t).next = land.next := by
  unfold landing at h
  dsimp only at h
  split_ifs at h
  · obtain ⟨t, ht, h⟩ := bind_eq_some_iff.mp h
    have hhead : ((c.program g id).instrs t).head? = some land.first ∧
        (g.block t).next = land.next := by
      rw [Program.instrs, block_program]
      split_ifs at h with heq
      · obtain ⟨first, hfirst, h⟩ := bind_eq_some_iff.mp h
        obtain rfl := some.inj h
        rw [if_pos ⟨heq.symm, heq ▸ hid⟩]
        exact ⟨hfirst, rfl⟩
      · obtain ⟨first, hfirst, h⟩ := bind_eq_some_iff.mp h
        obtain rfl := some.inj h
        rw [if_neg fun h => heq h.1.symm]
        exact ⟨hfirst, rfl⟩
    obtain ⟨rest, hrest⟩ := head?_eq_some_iff.mp hhead.1
    refine ⟨t, rest, ht, hrest, ?_⟩
    exact ((SameLinks.setInstrs id c.instrs).next t).trans hhead.2
  · simp at h

theorem becomes_thread (hid : id ∈ g.order) (hlt : id < g.blocks.size)
    (hc : (c.program g id).graph.Closed) (he : (c.program g id).graph.WellEnded)
    (hahead : c.ahead = i :: ahead) (h : (g.landing id c i).bind (threaded? i) = some j) :
    (c.program g id).Becomes (Cursor.program { c with ahead := j :: ahead } g id) := by
  obtain ⟨land, hland, hthreaded⟩ := bind_eq_some_iff.mp h
  obtain ⟨t, rest, ht, hinstrs, hnext⟩ := landing_spec hlt hland
  have hid' : id ∈ (c.program g id).graph.order := by rwa [order_program]
  have hblock : ((c.program g id).graph.block id).instrs = c.passed.reverse ++ i :: ahead := by
    rw [show ((c.program g id).graph.block id).instrs = c.instrs from instrs_program hlt, instrs,
      hahead]
  have hmem := (hc.admits id hid' i (by simp [hblock]) t ht).1
  have hsends := threaded?_spec ht hinstrs (he t hmem) hnext hthreaded
  rw [program_eq c { c with ahead := j :: ahead }]
  exact ⟨.single (.put hid' (.thread hblock hsends.links)), fun _ _ _ M =>
    (hsends.threads M).preserves (by simpa [program] using hlt) hblock⟩

/-- If a constant was pushed last, a copy that is ahead copies it. -/
def Remembers (c : Cursor) (pushed : Option Nat) : Prop :=
  ∀ index, pushed = some index → ∀ k rest, c.ahead = k :: rest → k.op = .real .copy →
    Tops c.constants c.passed.reverse index

theorem Remembers.none (c : Cursor) : c.Remembers none :=
  fun _ hindex => by cases hindex

theorem AfterConstant.remembers {index : Nat} (h : AfterConstant c index is c') :
    c'.Remembers (some index) := by
  intro k hk
  obtain rfl := some.inj hk
  rw [h.constants]
  exact h.tops

theorem becomes_simplifyFrom (hid : id ∈ g.order) (hlt : id < g.blocks.size)
    (hc : (c.program g id).graph.Closed) (he : (c.program g id).graph.WellEnded)
    {fuel threads : Nat} {pushed : Option Nat} (hpushed : c.Remembers pushed)
    (h : g.simplifyFrom id fuel threads pushed c = .ok c') :
    (c.program g id).Becomes (c'.program g id) := by
  induction fuel generalizing threads pushed c with
  | zero =>
    cases h
    exact .refl _
  | succ fuel ih =>
    -- A simplification and what comes after it.
    have hgo : ∀ {c₁ : Cursor} {threads : Nat} {pushed : Option Nat},
        (c.program g id).Becomes (c₁.program g id) → c₁.Remembers pushed →
          g.simplifyFrom id fuel threads pushed c₁ = .ok c' →
            (c.program g id).Becomes (c'.program g id) := fun hfirst hpushed hrest =>
      hfirst.trans (ih (hfirst.steps.closed hc) (hfirst.steps.wellEnded hc he) hpushed hrest)
    rw [simplifyFrom] at h
    split at h
    · cases h
      exact .refl _
    · rename_i i ahead hahead
      split at h
      · rename_i index hcopy
        obtain ⟨hop, harg⟩ : i.op = .real .copy ∧ i.arg = 1 := by simpa using hcopy
        obtain ⟨c₁, hstep, hrest⟩ := Result.bind_eq_ok.mp h
        have hspec : AfterConstant c index (i :: ahead) c₁ := by
          refine afterConstant_spec (by rw [hop]; rfl) (fun V W E M s t hrun => ?_) hstep
          obtain ⟨v, stack, hv, hstack⟩ := hpushed index rfl i ahead hahead hop M s t hrun
          exact M.pushesAt_copy hop harg hv hstack
        exact hgo ((hspec.simplifies hahead).becomes hid hlt) hspec.remembers hrest
      · dsimp only at h
        split at h
        · rename_i j hthread
          obtain ⟨land, _, hthreaded⟩ := bind_eq_some_iff.mp hthread
          have hload : i.op ≠ .real .loadConst := by
            intro hop
            have hjump := isJump_of_threaded? hthreaded
            rw [hop] at hjump
            cases hjump
          rw [if_neg hload] at h
          have hfirst := becomes_thread hid hlt hc he hahead hthread
          split_ifs at h
          · have hpass : Cursor.program { c with ahead := j :: ahead } g id =
                (c.pass [j] ahead).program g id := by
              simp [program, instrs, pass]
            exact hgo (hpass ▸ hfirst) (.none _) h
          · exact hgo hfirst (.none _) h
        · obtain ⟨c₁, hstep, hrest⟩ := Result.bind_eq_ok.mp h
          refine hgo ((simplifies_visit hahead hstep).becomes hid hlt) ?_ hrest
          split_ifs with hload
          · exact (visit_loadConst hload hstep).remembers
          · exact .none _

end Cursor

/-! ### All blocks -/

/-- Simplifying a block keeps the layout. -/
theorem becomes_simplifyBlock {h : Graph} {id : BlockId} (hid : id ∈ g.order) (hc : g.Closed)
    (he : g.WellEnded) (hg : g.simplifyBlock cs id = .ok (h, cs')) :
    g.SameLinks h ∧ Program.Becomes ⟨g, cs⟩ ⟨h, cs'⟩ := by
  unfold simplifyBlock at hg
  obtain ⟨c, hstep, hg⟩ := Result.bind_eq_ok.mp hg
  cases hg
  have hself : Cursor.program ⟨[], (g.block id).instrs, cs⟩ g id = ⟨g, cs⟩ := by
    rw [Cursor.program, Cursor.instrs, reverse_nil, nil_append, setInstrs_self]
  have hbecomes := Cursor.becomes_simplifyFrom hid (hc.layout.bound id hid) (hself.symm ▸ hc)
    (hself.symm ▸ he) (.none _) hstep
  rw [hself] at hbecomes
  exact ⟨.setInstrs id _, hbecomes⟩

theorem becomes_simplifyBlocks {h : Graph} (hc : g.Closed) (he : g.WellEnded)
    (hg : g.simplifyBlocks cs = .ok (h, cs')) : Program.Becomes ⟨g, cs⟩ ⟨h, cs'⟩ := by
  have hfold : ∀ (ids : List BlockId) (p : Graph × List Constant), p.1.Closed → p.1.WellEnded →
      ids ⊆ p.1.order → ids.foldlM (fun p id => p.1.simplifyBlock p.2 id) p = .ok (h, cs') →
        Program.Becomes ⟨p.1, p.2⟩ ⟨h, cs'⟩ := by
    intro ids
    induction ids with
    | nil =>
      intro p _ _ _ h
      cases h
      exact .refl _
    | cons id ids ih =>
      intro p hc he hids h
      obtain ⟨hid, hids⟩ := cons_subset.mp hids
      rw [foldlM_cons] at h
      obtain ⟨q, hstep, hrest⟩ := Result.bind_eq_ok.mp h
      obtain ⟨hlinks, hone⟩ := becomes_simplifyBlock hid hc he hstep
      exact hone.trans (ih q (hone.steps.closed hc) (hone.steps.wellEnded hc he)
        (hlinks.order.symm ▸ hids) hrest)
  exact hfold g.order (g, cs) hc he (List.Subset.refl _) hg

end Bytecode
