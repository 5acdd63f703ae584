import Bytecode.Proofs.Lowering.Construction

/-!
# From labels to blocks

Every label that a complete graph refers to has a block, so that nothing fails; and the blocks of
the resolved graph are entered in the shapes that the graph under construction had for them.
-/

namespace Bytecode

variable {B : Label → BlockId}

/-! ### Instructions -/

def Instr.resolveBy (B : Label → BlockId) (i : Instr) : Instr :=
  if i.op.hasTarget then { i with target := some (B i.arg), arg := 0 } else i

def Shape.resolveBy (B : Label → BlockId) (s : Shape) : Shape :=
  { s with handlers := s.handlers.map fun o => { o with target := B o.target } }

@[simp] theorem Shape.height_resolveBy (s : Shape) : (s.resolveBy B).height = s.height := rfl

@[simp] theorem Shape.cover_resolveBy (s : Shape) : (s.resolveBy B).cover = s.cover := by
  obtain ⟨height, handlers⟩ := s
  cases handlers <;> rfl

namespace Operation

theorem effect_of_hasTarget {op : Operation} (h : op.hasTarget) (arg arg' : Nat) (jump : Bool) :
    op.effect arg jump = op.effect arg' jump := by
  rcases op with op | op <;> cases op <;> first | rfl | cases h

theorem reaches_of_hasTarget {op : Operation} (h : op.hasTarget) (arg arg' height : Nat) :
    op.reaches arg height = op.reaches arg' height := by
  rcases op with op | op <;> cases op <;> first | rfl | cases h

end Operation

namespace Instr

variable {i : Instr} {s t : Shape}

@[simp] theorem op_resolveBy : (i.resolveBy B).op = i.op := by
  unfold resolveBy
  split_ifs <;> rfl

theorem target_resolveBy (hi : i.target = none) : (i.resolveBy B).target = i.label?.map B := by
  unfold resolveBy label?
  split_ifs
  · rfl
  · exact hi

theorem effect_resolveBy (jump : Bool) :
    i.op.effect (i.resolveBy B).arg jump = i.op.effect i.arg jump := by
  unfold resolveBy
  split_ifs with hop
  · exact Operation.effect_of_hasTarget hop ..
  · rfl

theorem Suits.resolveBy (h : i.Suits s) : (i.resolveBy B).Suits (s.resolveBy B) where
  fits := by
    have hfits := h.fits
    unfold Operation.fits at hfits ⊢
    rwa [op_resolveBy, effect_resolveBy]
  reaches := by
    have hreaches := h.reaches
    unfold Instr.resolveBy
    split_ifs with hop
    · rwa [Operation.reaches_of_hasTarget hop 0 i.arg]
    · exact hreaches
  closes hop := by
    rw [op_resolveBy] at hop
    exact fun hnil => h.closes hop (List.map_eq_nil_iff.mp hnil)
  covers := by
    rw [Shape.cover_resolveBy]
    exact h.covers

theorem Branches.resolveBy (h : i.Branches s t) :
    (i.resolveBy B).Branches (s.resolveBy B) (t.resolveBy B) := by
  obtain ⟨e, heffect, hheight, hhandlers⟩ := h
  refine ⟨e, ?_, hheight, ?_⟩
  · rwa [op_resolveBy, effect_resolveBy]
  · unfold Shape.resolveBy
    rw [hhandlers]

theorem Advances.of_resolveBy (hi : i.target = none)
    (h : (i.resolveBy B).Advances (i.resolveBy B).target (s.resolveBy B) t) :
    ∃ s', i.Advances i.label? s s' ∧ s'.resolveBy B = t := by
  obtain ⟨height, handlers⟩ := s
  rw [target_resolveBy hi] at h
  generalize hs : Shape.resolveBy B ⟨height, handlers⟩ = s₀ at h
  cases h with
  | plain hguard hunguard heffect hheight =>
    obtain ⟨rfl, rfl⟩ := Shape.mk.inj hs
    rw [op_resolveBy] at hguard hunguard
    rw [op_resolveBy, effect_resolveBy] at heffect
    exact ⟨⟨_, handlers⟩, .plain hguard hunguard heffect hheight, rfl⟩
  | guard hguard hdest hcut =>
    obtain ⟨rfl, rfl⟩ := Shape.mk.inj hs
    rw [op_resolveBy] at hguard hcut
    obtain ⟨l, hl, rfl⟩ := Option.map_eq_some_iff.mp hdest
    refine ⟨_, .guard hguard hl hcut, ?_⟩
    rw [op_resolveBy]
    rfl
  | unguard hunguard =>
    obtain ⟨rfl, hhandlers⟩ := Shape.mk.inj hs
    rw [op_resolveBy] at hunguard
    obtain ⟨o, rest, rfl, -, rfl⟩ := List.map_eq_cons_iff.mp hhandlers
    exact ⟨_, .unguard hunguard, rfl⟩

end Instr

theorem Shaped.resolveBy {T : Label → Shape} {types : BlockId → Option Shape}
    {atEnd atEnd' : Shape → Prop} {is : List Instr} {s : Shape}
    (h : Shaped Instr.label? (fun l => some (T l)) atEnd is s)
    (his : ∀ i ∈ is, i.target = none ∧
      ∀ l, i.label? = some l → types (B l) = some ((T l).resolveBy B))
    (hend : ∀ s, atEnd s → atEnd' (s.resolveBy B)) :
    Shaped Instr.target types atEnd' (is.map (Instr.resolveBy B)) (s.resolveBy B) := by
  induction is generalizing s with
  | nil => exact hend s h
  | cons i is ih =>
    obtain ⟨hsuits, hbranch, hrest⟩ := h
    obtain ⟨⟨htarget, htypes⟩, his⟩ := List.forall_mem_cons.mp his
    refine ⟨hsuits.resolveBy, fun hop => ?_, fun hfall t ht => ?_⟩
    · rw [Instr.op_resolveBy] at hop
      obtain ⟨l, s', hl, hbranches, hshape⟩ := hbranch hop
      obtain rfl := Option.some.inj hshape
      refine ⟨B l, _, ?_, hbranches.resolveBy, htypes l hl⟩
      rw [Instr.target_resolveBy htarget, hl]
      rfl
    · rw [Instr.op_resolveBy] at hfall
      obtain ⟨s', hs', rfl⟩ := ht.of_resolveBy htarget
      exact ih (hrest hfall s' hs') his

/-! ### Graphs -/

namespace Graph

variable {g : Graph} {T : Label → Shape} {E : BlockId → Shape} {ends : Shape → Prop}
  {known : List (Label × Shape)} {pending : List Label}

/-- If every instruction of the layout can be mapped, all of them can. -/
theorem exists_foldlM_setInstrs {f : Instr → Result Instr} {F : Instr → Instr}
    {ids : List BlockId} (hnodup : ids.Nodup)
    (hf : ∀ id ∈ ids, ∀ i ∈ (g.block id).instrs, f i = .ok (F i)) :
    ∃ h, ids.foldlM
      (fun h id => do return h.setInstrs id (← (h.block id).instrs.mapM f)) g = Except.ok h := by
  induction ids generalizing g with
  | nil => exact ⟨g, rfl⟩
  | cons id ids ih =>
    obtain ⟨hid, hnodup⟩ := List.nodup_cons.mp hnodup
    obtain ⟨hfirst, hrest⟩ := List.forall_mem_cons.mp hf
    have hothers : ∀ j ∈ ids, ∀ i ∈ ((g.setInstrs id ((g.block id).instrs.map F)).block j).instrs,
        f i = .ok (F i) := by
      intro j hj
      have hne : id ≠ j := by
        rintro rfl
        exact hid hj
      rw [block_setInstrs_of_ne g _ hne]
      exact hrest j hj
    obtain ⟨h, hh⟩ := ih hnodup hothers
    refine ⟨h, ?_⟩
    rw [List.foldlM_cons, Result.mapM_eq_map hfirst]
    exact hh

/-- A reference is resolved if its label is bound. -/
theorem resolveInstr_eq_resolveBy {i : Instr} (hi : i.target = none)
    (hbound : i.op.hasTarget → g.labelBlock? i.arg ≠ none) :
    g.resolveInstr i = .ok (i.resolveBy fun l => (g.labelBlock? l).getD 0) := by
  unfold resolveInstr Instr.resolveBy
  rw [hi]
  by_cases hop : i.op.hasTarget
  · obtain ⟨id, hid⟩ := Option.ne_none_iff_exists'.mp (hbound hop)
    simp [hop, hid]
  · simp [hop]

/-- A graph that is laid out to its end and has no pending labels can be resolved, and the resolved
graph is typed. -/
theorem Laid.exists_typed (h : g.Laid T E (fun _ => False) known []) {n : Nat}
    (hentry : E 0 = ⟨n, []⟩) : ∃ r types, g.resolveLabels = .ok r ∧ r.Typed n types := by
  let B : Label → BlockId := fun l => (g.labelBlock? l).getD 0
  have hbound : ∀ l, g.labelBlock? l ≠ none → g.labelBlock? l = some (B l) := by
    intro l hl
    obtain ⟨id, hid⟩ := Option.ne_none_iff_exists'.mp hl
    simp [B, hid]
  have hresolve : ∀ id : Nat, ∀ i ∈ (g.block id).instrs,
      g.resolveInstr i = .ok (i.resolveBy B) := by
    intro id i hi
    obtain ⟨htarget, huse⟩ := h.uses hi
    refine resolveInstr_eq_resolveBy htarget fun hop hnone => ?_
    cases (huse i.arg (by simp [Instr.label?, hop])).2 hnone
  have horder := h.laysOut.order
  obtain ⟨r, hr⟩ : ∃ r, g.resolveLabels = .ok r :=
    exists_foldlM_setInstrs (horder ▸ h.laysOut.nodup) fun id _ => hresolve id
  obtain ⟨hlinks, hinstrs, -⟩ := mapInstrsM_spec (horder ▸ h.laysOut.nodup) hr
  have hblock : ∀ id : Nat, id < g.blocks.size →
      (r.block id).instrs = (g.block id).instrs.map (Instr.resolveBy B) := by
    intro id hid
    have hmem : id ∈ g.order := by
      rw [horder, List.mem_range'_1]
      omega
    have hmap := hinstrs id hmem
    rw [Result.mapM_eq_map (hresolve id)] at hmap
    exact (Except.ok.inj hmap).symm
  refine ⟨r, fun id => if id < g.blocks.size then some ((E id).resolveBy B) else none, hr, ?_, ?_⟩
  · have hpos : 0 < g.blocks.size := by
      rw [h.size]
      exact Nat.succ_pos _
    rw [hlinks.entry, h.entry]
    simp only [if_pos hpos, hentry]
    rfl
  · intro id s hs
    split_ifs at hs with hid
    obtain rfl := Option.some.inj hs
    rw [hblock id hid]
    refine (h.shaped id hid).resolveBy (fun i hi => ?_) (fun s hs => ?_)
    · obtain ⟨htarget, huse⟩ := h.uses hi
      refine ⟨htarget, fun l hl => ?_⟩
      have hl' : g.labelBlock? l ≠ none := fun hnone => by cases (huse l hl).2 hnone
      obtain ⟨hlt, -, hshape⟩ := h.bound (hbound l hl')
      rw [if_pos hlt, hshape]
    · split_ifs at hs with hlast
      rw [h.size] at hid
      have hcur : id < g.current := Nat.lt_of_le_of_ne (Nat.le_of_lt_succ hid) hlast
      have hlt : id + 1 < g.blocks.size := by
        rw [h.size]
        exact Nat.succ_lt_succ hcur
      have hnext := h.next id
      rw [if_pos hcur] at hnext
      refine ⟨id + 1, (hlinks.next id).trans hnext, ?_⟩
      rw [if_pos hlt, hs]

end Graph

end Bytecode
