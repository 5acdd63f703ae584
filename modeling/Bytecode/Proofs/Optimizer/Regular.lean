import Bytecode.Proofs.Optimizer.Steps

/-!
# Regular graphs

A graph is regular if its layout is a chain of distinct blocks, every block ends at its first jump
or exit, exactly the jumps and the instructions that open a handler refer to a block, and all that
is referred to is in the layout. Every step of the optimizer keeps a graph regular.
-/

namespace Bytecode

open List Result Operation

theorem Recasts.isSome_target {i j : Instr} (h : Recasts i j)
    (hi : i.target.isSome = i.op.hasTarget) : j.target.isSome = j.op.hasTarget := by
  cases h with
  | refl => exact hi
  | plain _ _ hop => exact (hasTarget_of_isPlain hop).symm
  | replace _ hplain hop =>
    rw [hasTarget_of_isPlain hplain] at hi
    exact hi.trans (hasTarget_of_isPlain hop).symm
  | test htest hop =>
    have hjump := hop.elim isJump_of_isTest fun h => h ▸ rfl
    rw [hasTarget, isJump_of_isTest htest] at hi
    rw [hasTarget, hjump]
    exact hi
  | answer => rfl

namespace Graph

/-- An instruction has a target if its operation asks for one, and refers to blocks of the layout
only. -/
structure Sites (g : Graph) (i : Instr) : Prop where
  refers : i.target.isSome = i.op.hasTarget
  target : ∀ t, i.target = some t → t ∈ g.order
  handler : ∀ t, i.handler = some t → t ∈ g.order

/-- Besides, a handler that it opens is marked as one. -/
structure Holds (g : Graph) (i : Instr) : Prop extends g.Sites i where
  opens : i.op.isBlockPush → ∀ t, i.target = some t → (g.block t).isHandler

/-- A graph whose jumps are resolved, before anything is known of its handlers. -/
structure Resolved (g : Graph) : Prop where
  layout : g.LaysOut g.order
  ended : g.WellEnded
  sites : ∀ id ∈ g.order, ∀ i ∈ (g.block id).instrs, g.Sites i

theorem Resolved.wired {g : Graph} (hg : g.Resolved) : g.Wired :=
  ⟨hg.layout, fun id hid i hi => (hg.sites id hid i hi).target⟩

structure Regular (g : Graph) : Prop where
  layout : g.LaysOut g.order
  ended : g.WellEnded
  holds : ∀ id ∈ g.order, ∀ i ∈ (g.block id).instrs, g.Holds i

variable {g h k : Graph} {id : BlockId} {i j : Instr}

namespace Holds

variable (hi : g.Holds i)
include hi

theorem congr (horder : ∀ t ∈ g.order, t ∈ h.order)
    (hflags : ∀ t, (g.block t).isHandler → (h.block t).isHandler) : h.Holds i where
  refers := hi.refers
  target t ht := horder t (hi.target t ht)
  handler t ht := horder t (hi.handler t ht)
  opens hop t ht := hflags t (hi.opens hop t ht)

theorem place (loc : Location) : g.Holds { i with loc := loc } where
  refers := hi.refers
  target := hi.target
  handler := hi.handler
  opens := hi.opens

theorem jump {op : Operation} {t : BlockId} (hop : op.isJump) (ht : t ∈ g.order) :
    g.Holds { i with op := op, target := some t } where
  refers := by simp [hasTarget, hop]
  target u hu := Option.some.inj hu ▸ ht
  handler := hi.handler
  opens hpush := absurd hpush (by simp [isBlockPush_of_isJump hop])

end Holds

/-- Besides what makes a graph closed, every instruction has a target if its operation asks for one,
and a recorded handler is a block of the layout. -/
theorem Regular.of_closed (hc : g.Closed) (he : g.WellEnded)
    (hsites : ∀ id ∈ g.order, ∀ i ∈ (g.block id).instrs, i.target.isSome = i.op.hasTarget ∧
      ∀ t, i.handler = some t → t ∈ g.order) : g.Regular where
  layout := hc.layout
  ended := he
  holds id hid i hi := by
    obtain ⟨hrefers, hhandler⟩ := hsites id hid i hi
    have hadmits := hc.admits id hid i hi
    exact ⟨⟨hrefers, fun t ht => (hadmits t ht).1, hhandler⟩, fun hop t ht => (hadmits t ht).2 hop⟩

namespace Regular

variable (hg : g.Regular)
include hg

theorem closed : g.Closed where
  layout := hg.layout
  admits id hid i hi t ht :=
    ⟨(hg.holds id hid i hi).target t ht, fun hop => (hg.holds id hid i hi).opens hop t ht⟩

theorem resolved : g.Resolved where
  layout := hg.layout
  ended := hg.ended
  sites id hid i hi := (hg.holds id hid i hi).toSites

/-- What is put into a block has its targets and handlers as it should. -/
theorem puts {is : List Instr} (hid : id ∈ g.order) (h : g.Puts id is) :
    ∀ j ∈ is, j.target.isSome = j.op.hasTarget ∧ ∀ t, j.handler = some t → t ∈ g.order := by
  have hjump : ∀ {i : Instr}, i.op.isJump → i.op.hasTarget := fun h => by
    rw [hasTarget, h, Bool.true_or]
  -- The threads case asks for the target to be in the layout, so this goes with the other facts.
  have hnew : ∀ j ∈ is, g.Admits j ∧ j.target.isSome = j.op.hasTarget ∧
      ∀ t, j.handler = some t → t ∈ g.order := by
    refine h.forall_mem hg.closed hid (fun a ha i hi => ⟨hg.closed.admits a ha i hi,
      (hg.holds a ha i hi).refers, (hg.holds a ha i hi).handler⟩) (fun hij hi => ?_)
      (fun i loc hi => hi) (fun {i j} hij hi => ?_) fun i hi => ⟨.of_none rfl, rfl, hi.2.2⟩
    · exact ⟨hi.1.recasts hij, hij.isSome_target hi.2.1, hij.handler_eq ▸ hi.2.2⟩
    · refine ⟨hg.closed.threads hi.1 hij, ?_, ?_⟩
      · rw [hjump hij.isJump.2]
        cases hij with
        | @along t dest _ _ _ ht hblock hdest _ =>
          rw [(hg.holds t (hi.1 t ht).1 dest (by simp [hblock])).refers]
          exact hjump (hdest.elim isJump_of_isTest fun h => h ▸ rfl)
        | past => rfl
      · cases hij <;> exact hi.2.2
  exact fun j hj => (hnew j hj).2

theorem step (h : g.Step k) : k.Regular := by
  have hc := hg.closed
  refine .of_closed (h.closed hc) (h.wellEnded hc hg.ended) fun id hid i hi => ?_
  cases h with
  | @put a is ha h =>
    have horder := (SameLinks.setInstrs (g := g) a is).order
    rw [horder] at hid ⊢
    rw [block_setInstrs] at hi
    split_ifs at hi
    · exact hg.puts ha h i hi
    · exact ⟨(hg.holds id hid i hi).refers, (hg.holds id hid i hi).handler⟩
  | @absorb a next pre post hj _ hhidden =>
    have horder := (hj.laysOut hc).order
    rw [horder] at hid ⊢
    obtain ⟨l, hl, hi⟩ := hj.mem_instrs hc hid hi
    refine ⟨(hg.holds l hl i hi).refers, fun t ht => ?_⟩
    have hne : t ≠ next := fun h => (hhidden l hl i hi).2 (h ▸ ht)
    have hmem := (hg.holds l hl i hi).handler t ht
    rw [hj.order] at hmem
    simp only [mem_append, mem_cons] at hmem ⊢
    tauto
  | clear =>
    rw [order_clear] at hid ⊢
    rcases hc.instrs_clear_cases hid with h | h <;> rw [h] at hi
    · cases hi
    · exact ⟨(hg.holds id hid i hi).refers, (hg.holds id hid i hi).handler⟩
  | dropEmpty h =>
    rcases compacts_dropEmpty hc h with ⟨rfl, _⟩ | h
    · exact ⟨(hg.holds id hid i hi).refers, (hg.holds id hid i hi).handler⟩
    · rw [h.drops.layout.order] at hid ⊢
      rw [h.instrs id hid] at hi
      obtain ⟨j, hj, rfl⟩ := mem_map.mp hi
      refine ⟨by simpa [relocate] using (hg.holds id (mem_live.mp hid).1 j hj).refers,
        fun t ht => ?_⟩
      obtain ⟨u, hu, rfl⟩ := Option.map_eq_some_iff.mp ht
      exact landing?_spec (h.lands id hid j hj u (.inr hu))

theorem steps (h : g.Steps k) : k.Regular := by
  induction h with
  | refl => exact hg
  | tail _ hstep ih => exact ih.step hstep

end Regular

end Graph

end Bytecode
