import Bytecode.Proofs.Graph.Reach
import Bytecode.Proofs.Optimizer.Empty

/-!
# Pruning

Jumps to the next block, blocks out of reach, and the border between two blocks that control only
falls through can go.
-/

namespace Bytecode

open List Machine Program

variable {V W E : Type} {M : Machine V W E} {id : BlockId} {g : Graph}

/-! ### Redundant jumps -/

theorem Graph.idleJump_eq (h : g.endsInRedundantJump id) : ∃ is i t,
    (g.block id).instrs = is ++ [i] ∧ i.op.isUnconditionalJump ∧ i.target = some t ∧
      (g.block id).next = some t ∧
      g.modify id (·.modifyLast Instr.toNop) = g.setInstrs id (is ++ [i.toNop]) := by
  simp only [endsInRedundantJump, Option.any_eq_true, Bool.and_eq_true, decide_eq_true_eq,
    Option.isSome_iff_exists] at h
  obtain ⟨i, hlast, ⟨hjump, t, ht⟩, hnext⟩ := h
  refine ⟨_, i, t, Block.instrs_of_last? hlast, hjump, ht, hnext ▸ ht, modify_eq_setInstrs ?_⟩
  simp [Block.modifyLast, hlast]

theorem preserves_idleJump {is : List Instr} {i : Instr} {t : BlockId}
    (hblock : (g.block id).instrs = is ++ [i]) (hjump : i.op.isUnconditionalJump)
    (ht : i.target = some t) (hnext : (g.block id).next = some t) (cs : List Constant) :
    M.Preserves ⟨g, cs⟩ ⟨g.setInstrs id (is ++ [i.toNop]), cs⟩ := by
  refine M.preserves_setInstrs_append (Graph.lt_size_of_instrs hblock) hblock fun s => ⟨0, ?_⟩
  simp [M.exec_jump hjump, ht, State.leap, Step.andThen, Step.follow, hnext]

/-! ### Blocks out of reach -/

namespace Graph

variable {g h : Graph}

theorem block_countPredecessors (g : Graph) (id : BlockId) :
    ∃ n, g.countPredecessors.block id = { g.block id with predecessors := n } := by
  rw [countPredecessors, block_mapIdx]
  split_ifs
  · exact ⟨_, rfl⟩
  · exact ⟨(g.block id).predecessors, rfl⟩

theorem sameLinks_countPredecessors (g : Graph) : g.SameLinks g.countPredecessors := by
  refine ⟨by simp [countPredecessors], rfl, fun id => ?_⟩
  obtain ⟨n, hn⟩ := g.block_countPredecessors id
  rw [hn]

theorem block_clearUnreachableAt (g : Graph) (id j : BlockId) :
    (g.clearUnreachableAt id).block j =
      if j = id ∧ (g.block j).predecessors = 0 then
        { g.block j with instrs := [], isHandler := false }
      else g.block j := by
  unfold clearUnreachableAt
  by_cases hj : j = id
  · subst hj
    by_cases hpred : (g.block j).predecessors = 0
    · rw [if_pos hpred, if_pos ⟨rfl, hpred⟩, block_modify]
      split_ifs with hlt
      · rfl
      · rw [g.block_eq_of_size_le (Nat.le_of_not_lt fun h => hlt ⟨rfl, h⟩)]
    · rw [if_neg hpred, if_neg fun h => hpred h.2]
  · have hneg : ¬ (j = id ∧ (g.block j).predecessors = 0) := fun h => hj h.1
    rw [if_neg hneg]
    split_ifs
    · rw [block_modify_of_ne _ _ (Ne.symm hj)]
    · rfl

/-- What is emptied: blocks of the layout without edges into them. -/
theorem block_clearUnreachable (g : Graph) (j : BlockId) :
    g.clearUnreachable.block j =
      if j ∈ g.order ∧ (g.block j).predecessors = 0 then
        { g.block j with instrs := [], isHandler := false }
      else g.block j := by
  have hfold : ∀ (ids : List BlockId) (h : Graph), (ids.foldl clearUnreachableAt h).block j =
      if j ∈ ids ∧ (h.block j).predecessors = 0 then
        { h.block j with instrs := [], isHandler := false }
      else h.block j := by
    intro ids
    induction ids with
    | nil => intro h; simp
    | cons id ids ih =>
      intro h
      rw [foldl_cons, ih, block_clearUnreachableAt]
      by_cases hj : j = id <;> by_cases hpred : (h.block j).predecessors = 0 <;> simp [hj, hpred]
      all_goals simp_all
  exact hfold g.order g

theorem sameLinks_clearUnreachable (g : Graph) : g.SameLinks g.clearUnreachable := by
  refine .foldl (fun h id => ?_) g.order g
  unfold clearUnreachableAt
  split_ifs
  · exact .modify id fun _ => rfl
  · exact .refl h

/-- After the edges are counted, the blocks that can be reached stay as they are. -/
theorem Closed.block_clear (hg : g.Closed) (hid : id ∈ g.reachable) :
    g.countPredecessors.clearUnreachable.block id = g.countPredecessors.block id := by
  rw [block_clearUnreachable, if_neg]
  have hlt := hg.within.bound id (hg.within.inside (hg.within.mem_reachable_iff.mp hid))
  exact fun h => (hg.within.predecessors_ne_zero_iff hlt).mpr hid h.2

/-- After the edges are counted, the other blocks of the layout become empty. -/
theorem Closed.instrs_clear (hg : g.Closed) (hid : id ∈ g.order) (hreach : id ∉ g.reachable) :
    (g.countPredecessors.clearUnreachable.block id).instrs = [] := by
  rw [block_clearUnreachable, if_pos]
  refine ⟨g.sameLinks_countPredecessors.order ▸ hid, ?_⟩
  by_contra hne
  exact hreach ((hg.within.predecessors_ne_zero_iff (hg.layout.bound id hid)).mp hne)

theorem Closed.mem_reachable_of_instr (hg : g.Closed) {t : BlockId} {i : Instr}
    (hid : id ∈ g.reachable) (hi : i ∈ (g.block id).instrs) (ht : i.target = some t) :
    t ∈ g.reachable :=
  hg.within.reachable_step hid (mem_append_left _ (mem_filterMap.mpr ⟨i, hi, ht⟩))

/-- Runs stay among the blocks that can be reached. -/
theorem Closed.stays_reachable (hg : g.Closed) : g.Stays (· ∈ g.reachable) (· ∈ g.reachable) where
  entry := hg.within.mem_reachable_iff.mpr (.root (by simp))
  handler _ ht := ht
  push _ hid _ hi _ _ ht := hg.mem_reachable_of_instr hid hi ht
  jump _ hid _ hi _ _ ht := hg.mem_reachable_of_instr hid hi ht
  fall id hid hfall n hn := by
    refine hg.within.reachable_step hid (mem_append_right _ ?_)
    simp [fallthrough?, hfall, hn]

theorem Closed.clear (hg : g.Closed) : g.countPredecessors.clearUnreachable.Closed := by
  have hlinks : g.SameLinks g.countPredecessors.clearUnreachable :=
    g.sameLinks_countPredecessors.trans g.countPredecessors.sameLinks_clearUnreachable
  refine .of_laysOut (hlinks.laysOut hg.layout) fun id hid i hi t ht => ?_
  have hreach : id ∈ g.reachable := by
    by_contra hreach
    rw [hg.instrs_clear hid hreach] at hi
    cases hi
  obtain ⟨n, hn⟩ := g.block_countPredecessors id
  rw [hg.block_clear hreach, hn] at hi
  have htreach := hg.mem_reachable_of_instr hreach hi ht
  obtain ⟨hmem, hhandler⟩ := hg.admits id hid i hi t ht
  obtain ⟨n', hn'⟩ := g.block_countPredecessors t
  rw [hg.block_clear htreach, hn']
  exact ⟨hmem, hhandler⟩

end Graph

theorem preserves_clear (hg : g.Closed) (cs : List Constant) :
    M.Preserves ⟨g, cs⟩ ⟨g.countPredecessors.clearUnreachable, cs⟩ := by
  refine preserves_of_refines hg.stays_reachable ?_ (fun id hid => ?_) fun id hid => ?_
  · exact (g.sameLinks_countPredecessors.trans g.countPredecessors.sameLinks_clearUnreachable).entry
  all_goals
    obtain ⟨n, hn⟩ := g.block_countPredecessors id
    simp only [instrs]
    rw [hg.block_clear hid, hn]
  exact .refl _ _

/-! ### Joining blocks -/

namespace Graph

/-- Two blocks that stand one after the other in the layout, and control comes to the second of
them only by falling through. -/
structure Joint (g : Graph) (pre : List BlockId) (id next : BlockId) (post : List BlockId) :
    Prop where
  order : g.order = pre ++ id :: next :: post
  hidden : g.Private next

namespace Joint

variable {g : Graph} {pre post : List BlockId} {id next j : BlockId}

section

variable (hj : g.Joint pre id next post)
include hj

theorem mem_id : id ∈ g.order := by
  simp [hj.order]

theorem mem_next : next ∈ g.order := by
  simp [hj.order]

theorem next_eq : (g.block id).next = some next :=
  next_of_order hj.order

theorem nodup (hg : g.Closed) : (pre ++ id :: next :: post).Nodup :=
  hj.order ▸ hg.layout.nodup

theorem not_mem (hg : g.Closed) : next ∉ pre ++ id :: post := by
  have hnodup := hj.nodup hg
  rw [nodup_append, nodup_cons, nodup_cons] at hnodup
  obtain ⟨_, ⟨hid, hnext, _⟩, hpre⟩ := hnodup
  simp only [mem_append, mem_cons, not_or] at hid ⊢
  exact ⟨fun hmem => hpre next hmem next (by simp) rfl, fun he => hid.1 he.symm, hnext⟩

theorem ne (hg : g.Closed) : id ≠ next := by
  rintro rfl
  exact hj.not_mem hg (by simp)

theorem block_id (hg : g.Closed) :
    (g.absorb id next).block id =
      { g.block id with
        instrs := (g.block id).instrs ++ (g.block next).instrs, next := (g.block next).next } := by
  have hid := hg.layout.bound id hj.mem_id
  rw [absorb, block_modify_self _ _ (by simpa using hid), block_modify_of_ne _ _ (hj.ne hg).symm]

end

theorem block_other (hid : j ≠ id) (hnext : j ≠ next) : (g.absorb id next).block j = g.block j := by
  rw [absorb, block_modify_of_ne _ _ hid.symm, block_modify_of_ne _ _ hnext.symm]

theorem block_mem (hj : g.Joint pre id next post) (hg : g.Closed) (hid : j ≠ id)
    (hmem : j ∈ pre ++ id :: post) : (g.absorb id next).block j = g.block j :=
  block_other hid fun he => hj.not_mem hg (he ▸ hmem)

theorem isHandler_absorb (g : Graph) (id next j : BlockId) :
    ((g.absorb id next).block j).isHandler = (g.block j).isHandler := by
  rw [absorb, block_modify, block_modify]
  split_ifs <;> rfl

section

variable (hj : g.Joint pre id next post) (hg : g.Closed)
include hj hg

theorem mem_instrs (hmem : j ∈ pre ++ id :: post) {i : Instr}
    (hi : i ∈ ((g.absorb id next).block j).instrs) : ∃ k ∈ g.order, i ∈ (g.block k).instrs := by
  by_cases hid : j = id
  · subst hid
    rw [hj.block_id hg] at hi
    rcases mem_append.mp hi with hi | hi
    · exact ⟨j, hj.mem_id, hi⟩
    · exact ⟨next, hj.mem_next, hi⟩
  · rw [hj.block_mem hg hid hmem] at hi
    refine ⟨j, ?_, hi⟩
    rw [hj.order]
    simp only [mem_append, mem_cons] at hmem ⊢
    tauto

theorem linked : (g.absorb id next).Linked (pre ++ id :: post) := by
  have hlinked := hj.order ▸ hg.layout.linked
  have hnodup := hj.nodup hg
  rw [nodup_append, nodup_cons, nodup_cons] at hnodup
  obtain ⟨_, ⟨hid, hnext, _⟩, hpre⟩ := hnodup
  refine hlinked.replace (fun k hk => ?_) ?_
  · rw [block_other (hpre k hk id (by simp)) (hpre k hk next (by simp))]
  · have hself : ((g.absorb id next).block id).next = (g.block next).next := by rw [hj.block_id hg]
    have htail : g.Linked (next :: post) := hlinked.of_append.2
    cases post with
    | nil => exact hself.trans htail
    | cons c post =>
      refine ⟨hself.trans htail.1, htail.2.congr fun k hk => ?_⟩
      rw [block_other]
      · rintro rfl
        exact hid (mem_cons_of_mem _ hk)
      · rintro rfl
        exact hnext hk

theorem laysOut : (g.absorb id next).LaysOut (pre ++ id :: post) where
  head := by
    have hhead := hj.order ▸ hg.layout.head
    cases pre with
    | nil => exact hhead
    | cons a pre => exact hhead
  linked := hj.linked hg
  nodup := by
    refine (hj.nodup hg).sublist (List.Sublist.append_left ?_ pre)
    exact (sublist_cons_self next post).cons_cons id
  bound a ha := by
    have hbound := hg.layout.bound a
    rw [hj.order] at hbound
    simp only [absorb, size_modify]
    simp only [mem_append, mem_cons] at ha hbound
    apply hbound
    tauto

theorem closed : (g.absorb id next).Closed := by
  refine .of_laysOut (hj.laysOut hg) fun j hmem i hi t ht => ?_
  obtain ⟨k, hk, hold⟩ := hj.mem_instrs hg hmem hi
  obtain ⟨htmem, hhandler⟩ := hg.admits k hk i hold t ht
  rw [isHandler_absorb]
  refine ⟨?_, hhandler⟩
  have hne : t ≠ next := by
    rintro rfl
    exact hj.hidden.1 k hk i hold ht
  rw [hj.order] at htmem
  simp only [mem_append, mem_cons] at htmem ⊢
  tauto

theorem next_ne {a n : BlockId} (ha : a ∈ g.order) (hne : a ≠ id) (hn : (g.block a).next = some n) :
    n ≠ next := by
  rintro rfl
  exact hne (hg.layout.linked.next_inj hg.layout.nodup ha hj.mem_id hn hj.next_eq)

theorem preserves (cs : List Constant) : M.Preserves ⟨g, cs⟩ ⟨g.absorb id next, cs⟩ := by
  let B : BlockId → Prop := (· ∈ g.order)
  let T : BlockId → Prop := fun t => t ∈ g.order ∧ (g.block t).isHandler
  refine M.preserves_of_meet
    (fun a s b t => a = b ∧ s = t ∧ (Point.running a s).Within B T ∧ a ≠ next) ?_ ?_ ?_
  · intro s hs
    exact ⟨rfl, rfl, ⟨hg.layout.entry_mem, by simp [hs]⟩,
      (hg.layout.next_ne_entry hj.mem_id hj.next_eq).symm⟩
  · rintro a s _ _ ⟨_, rfl, _⟩
    rfl
  rintro a s _ _ ⟨rfl, rfl, hin, hne⟩
  have hself : ∀ c (s : State V W E), (Point.running c s).Within B T → c ≠ next →
      c = c ∧ s = s ∧ (Point.running c s).Within B T ∧ c ≠ next :=
    fun c s hc hne => ⟨rfl, rfl, hc, hne⟩
  have hjump : ∀ {c : BlockId} {s s' : State V W E} {t : BlockId},
      (Point.running c s).Within B T → M.run cs (g.block c).instrs s = .jump t s' → t ≠ next := by
    rintro c s s' t hc hrun rfl
    exact hg.not_private hc.1 (List.Subset.refl _) hc.2 hrun hj.hidden
  have hstep := hg.stays.step (M := M) (p := ⟨g, cs⟩) hin
  by_cases hid : a = id
  · subst hid
    cases hrun : M.run cs (g.block a).instrs s with
    | next s' =>
      -- The first program runs two blocks, the second one.
      have hhop : M.step ⟨g, cs⟩ (.running a s) = .running next s' := by
        simp only [step, hop, instrs, hrun, Step.follow, hj.next_eq]
      have hnew : M.step ⟨g.absorb a next, cs⟩ (.running a s) =
          (M.run cs (g.block next).instrs s').follow (g.block next).next := by
        simp only [step, hop, instrs]
        rw [hj.block_id hg, M.run_append, hrun]
        rfl
      rw [hhop] at hstep
      refine ⟨1, 0, ?_⟩
      simp only [Nat.zero_add, Function.iterate_succ_apply, Function.iterate_zero, id_eq]
      rw [hhop, hnew]
      refine .follow hself (fun t s'' ht => hjump hstep ht) (fun n hn => ?_)
        (hg.stays.step (M := M) (p := ⟨g, cs⟩) hstep)
      exact hj.next_ne hg hj.mem_next (hj.ne hg).symm hn
    | jump t s' | done e | wrong =>
      refine ⟨0, 0, ?_⟩
      simp only [Nat.zero_add, Function.iterate_one, step, hop, instrs] at hstep ⊢
      rw [hj.block_id hg, M.run_append]
      rw [hrun] at hstep ⊢
      first | exact hself t s' hstep (hjump hin hrun) | rfl | trivial
  · refine ⟨0, 0, ?_⟩
    simp only [Nat.zero_add, Function.iterate_one, step, hop, instrs]
    rw [block_other hid hne]
    exact .follow hself (fun t s' ht => hjump hin ht) (fun n hn => hj.next_ne hg hin.1 hid hn) hstep

end

end Joint

end Graph

end Bytecode
