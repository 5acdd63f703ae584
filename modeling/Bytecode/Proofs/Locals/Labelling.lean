import Bytecode.Proofs.Locals.Handlers

/-!
# Labels of handlers

The walk over the graph visits every block once, with the handlers that are open on the edge that
finds it first. Where all paths to a block agree on its handlers and none closes a handler that is
not open, the walk succeeds, and what it writes down is right on every path.
-/

namespace Bytecode

open List Result Operation Instr

variable {is : List Instr} {i : Instr}

/-- The instruction with its active handler, and with the number of open handlers if it yields. -/
def Instr.labelled (i : Instr) (S : HandlerStack) : Instr :=
  { i with
    handler := (i.handlersAt S).head?
    arg := if i.op = .real .yieldValue then S.length else i.arg }

/-- The instructions of a block that is entered with the given handlers, each with its label. -/
def labelAll : HandlerStack → List Instr → List Instr
  | _, [] => []
  | S, i :: is => i.labelled S :: labelAll (i.handlersAfter S) is

/-- The handlers that the instructions open and that find the position of a fault on the stack. -/
def keepersOf (is : List Instr) : List BlockId :=
  (is.filter (·.op.keepsPosition)).filterMap (·.target)

theorem mem_keepersOf {t : BlockId} :
    t ∈ keepersOf is ↔ ∃ i ∈ is, i.op.keepsPosition ∧ i.target = some t := by
  simp [keepersOf, and_assoc]

/-- What the walk over a block is to find. -/
structure BlockWalk.Exact (walk : BlockWalk) (S : HandlerStack) (is : List Instr) : Prop where
  instrs : walk.instrs = labelAll S is
  keepers : walk.keepers = keepersOf is

theorem Instr.labelled_of_ne {S : HandlerStack} (hpop : i.op ≠ .pseudo .popBlock)
    (hyield : i.op ≠ .real .yieldValue) : i.labelled S = { i with handler := S.head? } := by
  rw [labelled, handlersAt, if_neg hpop, if_neg hyield]

theorem keepersOf_cons_of_not (h : ¬ i.op.isBlockPush) : keepersOf (i :: is) = keepersOf is := by
  have hkeeps : ¬ i.op.keepsPosition := by
    intro hkeeps
    unfold keepsPosition at hkeeps
    split at hkeeps
    case h_3 => cases hkeeps
    all_goals exact h (by simp [*, isBlockPush, PseudoOp.isBlockPush])
  simp [keepersOf, hkeeps]

/-- The walk goes over an instruction that has a target if it asks for one, and that closes a
handler only if one is open. -/
theorem exists_walkInstrs_cons {S : HandlerStack} {rest : BlockWalk}
    (htarget : i.op.hasTarget → i.target.isSome) (hclose : i.op = .pseudo .popBlock → S ≠ [])
    (hrest : walkInstrs (i.handlersAfter S) is = .ok rest)
    (hexact : rest.Exact (i.handlersAfter S) is) :
    ∃ walk, walkInstrs S (i :: is) = .ok walk ∧ walk.Exact S (i :: is) := by
  obtain ⟨hinstrs, hkeepers⟩ := hexact
  unfold walkInstrs
  dsimp only
  by_cases hpush : i.op.isBlockPush
  · have hpop : i.op ≠ .pseudo .popBlock := by
      intro h
      rw [h] at hpush
      cases hpush
    have hyield : i.op ≠ .real .yieldValue := by
      intro h
      rw [h] at hpush
      cases hpush
    obtain ⟨t, ht⟩ := Option.isSome_iff_exists.mp (htarget (by simp [hasTarget, hpush]))
    have hafter : i.handlersAfter S = t :: S := by simp [handlersAfter, hpush, ht]
    rw [hafter] at hrest hinstrs
    rw [if_pos hpush]
    refine ⟨_, bind_eq_ok.mpr ⟨t, Result.require_eq_ok.mpr ht,
      bind_eq_ok.mpr ⟨rest, hrest, rfl⟩⟩, ?_, ?_⟩
    · rw [labelAll, hafter, labelled_of_ne hpop hyield, hinstrs]
    · by_cases hkeeps : i.op.keepsPosition <;> simp [keepersOf, hkeeps, hkeepers, ht]
  have hcons : keepersOf (i :: is) = keepersOf is := keepersOf_cons_of_not hpush
  have hkeepers' := hkeepers.trans hcons.symm
  rw [if_neg hpush]
  by_cases hpop : i.op = .pseudo .popBlock
  · obtain ⟨t, outer, rfl⟩ := exists_cons_of_ne_nil (hclose hpop)
    have hafter : i.handlersAfter (t :: outer) = outer := by
      rw [handlersAfter, if_neg hpush, if_pos hpop, tail_cons]
    rw [hafter] at hrest hinstrs
    rw [if_pos hpop]
    refine ⟨_, bind_eq_ok.mpr ⟨rest, hrest, rfl⟩, ?_, hkeepers'⟩
    rw [labelAll, hafter, ← hinstrs]
    simp [labelled, handlersAt, hpop]
  have hafter : i.handlersAfter S = S := by simp [handlersAfter, hpush, hpop]
  rw [hafter] at hrest hinstrs
  rw [if_neg hpop]
  by_cases hjump : i.op.isJump
  · have hyield : i.op ≠ .real .yieldValue := by
      intro h
      rw [h] at hjump
      cases hjump
    obtain ⟨t, ht⟩ := Option.isSome_iff_exists.mp (htarget (by simp [hasTarget, hjump]))
    rw [if_pos hjump]
    refine ⟨_, bind_eq_ok.mpr ⟨t, Result.require_eq_ok.mpr ht,
      bind_eq_ok.mpr ⟨rest, hrest, rfl⟩⟩, ?_, hkeepers'⟩
    rw [labelAll, hafter, labelled_of_ne hpop hyield, hinstrs]
  · rw [if_neg hjump]
    refine ⟨_, bind_eq_ok.mpr ⟨rest, hrest, rfl⟩, ?_, hkeepers'⟩
    rw [labelAll, hafter, ← hinstrs]
    by_cases hyield : i.op = .real .yieldValue <;> simp [labelled, handlersAt, hpop, hyield]

namespace Graph

variable {g h k : Graph} {id : BlockId} {S : HandlerStack} {i : Instr} {is : List Instr}
  {table : BlockId → HandlerStack} {done : List BlockId} {n : Nat}

def Closes (g : Graph) : Prop :=
  ∀ id i is S, g.Opens id (i :: is) S → i.op = .pseudo .popBlock → S ≠ []

theorem Opens.exists_walk (hg : g.Walkable) (hcloses : g.Closes) (h : g.Opens id is S)
    (hends : TerminatorsLast is) : ∃ walk, walkInstrs S is = .ok walk ∧ walk.Exact S is := by
  induction is generalizing S with
  | nil => exact ⟨_, rfl, rfl, rfl⟩
  | cons i is ih =>
    obtain ⟨hnot, hends⟩ := terminatorsLast_cons.mp hends
    obtain ⟨rest, hrest, hexact⟩ : ∃ rest, walkInstrs (i.handlersAfter S) is = .ok rest ∧
        rest.Exact (i.handlersAfter S) is := by
      cases is with
      | nil => exact ⟨_, rfl, rfl, rfl⟩
      | cons => exact ih (h.next (fallsThrough_of_isTerminator (hnot (by simp)))) hends
    refine exists_walkInstrs_cons (fun hop => ?_) (hcloses id i is S h) hrest hexact
    rw [hg.refers id i is S h, hop]

theorem getElem?_labelAll (hn : is[n]? = some i) :
    (labelAll S is)[n]? = some (i.labelled (handlersAlong S (is.take n))) := by
  induction is generalizing S n with
  | nil => simp at hn
  | cons j is ih =>
    cases n with
    | zero =>
      obtain rfl : j = i := by simpa using hn
      rfl
    | succ n => exact ih (by simpa using hn)

/-- In a block that a path enters, paths come to every instruction. -/
theorem Opens.drop (h : g.Opens id is S) (hends : TerminatorsLast is) (hn : n < is.length) :
    g.Opens id (is.drop n) (handlersAlong S (is.take n)) := by
  induction is generalizing S n with
  | nil => simp at hn
  | cons j is ih =>
    obtain ⟨hnot, hends⟩ := terminatorsLast_cons.mp hends
    cases n with
    | zero => exact h
    | succ n =>
      have hn : n < is.length := by simpa using hn
      have hne : is ≠ [] := length_pos_iff.mp (Nat.zero_lt_of_lt hn)
      exact ih (h.next (fallsThrough_of_isTerminator (hnot hne))) hends hn

/-- Where all paths agree on the handlers at the start of a block, they agree inside of it. -/
theorem Steady.eq_handlersAlong (hsteady : g.Steady) {S₀ : HandlerStack}
    (hentry : g.Opens id (g.block id).instrs S₀) (h : g.Opens id ((g.block id).instrs.drop n) S)
    (hn : n < (g.block id).instrs.length) : S = handlersAlong S₀ ((g.block id).instrs.take n) := by
  obtain ⟨pre, S₁, hpre, -, hentry', rfl⟩ := h.exists_entry
  obtain rfl := hsteady id S₀ S₁ hentry hentry'
  have hlength : pre.length = n := by
    have := congrArg List.length hpre
    rw [length_append, length_drop] at this
    omega
  have htake : (g.block id).instrs.take n = pre := by
    rw [hpre, ← hlength, take_left']
    rfl
  rw [htake]

/-! ### Positions -/

theorem keepsPosition_foldl (ids : List BlockId) (g : Graph) (t : BlockId) :
    ((ids.foldl (fun h k => h.modify k fun b => { b with keepsPosition := true }) g).block
      t).keepsPosition ↔ (g.block t).keepsPosition ∨ t ∈ ids ∧ t < g.blocks.size := by
  induction ids generalizing g with
  | nil => simp
  | cons id ids ih =>
    rw [foldl_cons, ih, block_modify, size_modify, mem_cons]
    split_ifs with h
    · simp [h]
    · have hne : t < g.blocks.size → t ≠ id := fun hlt heq => h ⟨heq.symm, hlt⟩
      tauto

/-- The handlers that find the position of a fault are those that the blocks done so far open. -/
def Keeps (g h : Graph) (done : List BlockId) : Prop :=
  ∀ t, (h.block t).keepsPosition ↔
    t < g.blocks.size ∧ ∃ id ∈ done, t ∈ keepersOf (g.block id).instrs

theorem keeps_nil (g : Graph) : g.Keeps
    { g with blocks := g.blocks.map fun b => { b with keepsPosition := false } } [] := by
  intro t
  by_cases ht : t < g.blocks.size <;> simp [block, ht]

theorem Keeps.step {walk : BlockWalk} (hm : g.Keeps h done) (hsize : h.blocks.size = g.blocks.size)
    (hexact : walk.Exact S (g.block id).instrs) :
    g.Keeps (walk.keepers.foldl (fun h k => h.modify k fun b => { b with keepsPosition := true })
      (h.setInstrs id walk.instrs)) (id :: done) := by
  intro t
  have hsame :
      ((h.setInstrs id walk.instrs).block t).keepsPosition = (h.block t).keepsPosition := by
    rw [block_setInstrs]
    split_ifs <;> rfl
  rw [keepsPosition_foldl, hsame, hm t, hexact.keepers, setInstrs, size_modify, hsize]
  simp only [mem_cons, exists_eq_or_imp, and_or_left]
  rw [or_comm, and_comm]

/-! ### The walk -/

theorem Walking.exists_run (hg : g.Walkable) (hcloses : g.Closes) {fuel : Nat}
    {work : List (BlockId × HandlerStack)} {seen : List BlockId} (hw : g.Walking h work seen done)
    (hm : g.Keeps h done) (hfuel : g.blocks.size ≤ fuel + done.length) :
    ∃ k seen' done', walkBlocks fuel work seen h = .ok k ∧ g.Walking k [] seen' done' ∧
      seen ⊆ seen' ∧ g.Keeps k done' := by
  induction fuel generalizing h work seen done with
  | zero =>
    have hlength := hw.length_le hg
    obtain rfl : work = [] := length_eq_zero_iff.mp (by omega)
    exact ⟨h, seen, done, rfl, hw, List.Subset.refl _, hm⟩
  | succ fuel ih =>
    cases work with
    | nil => exact ⟨h, seen, done, rfl, hw, List.Subset.refl _, hm⟩
    | cons x work =>
      obtain ⟨id, S⟩ := x
      have hopens := hw.opens (id, S) mem_cons_self
      obtain ⟨walk, hwalk, hexact⟩ := hopens.exists_walk hg hcloses (hg.ended id _ S hopens)
      rw [← hw.fresh id hw.not_mem_done] at hwalk
      obtain ⟨hw', hsub⟩ := hw.step hg hwalk (relates_keepers walk.keepers _)
      have hm' := hm.step hw.labels.links.size hexact
      obtain ⟨k, seen', done', hk, hdone, hsub', hkeeps⟩ :=
        ih hw' hm' (by rw [length_cons]; omega)
      exact ⟨k, seen', done', bind_eq_ok.mpr ⟨walk, hwalk, hk⟩, hdone,
        fun a ha => hsub' (hsub ha), hkeeps⟩

/-- Where all paths agree, the walk succeeds. Every instruction of a block that paths enter is then
on a path and labelled with the handlers that are open there, and the handlers that find the
position of a fault on the stack are those that an instruction on a path opens so. -/
theorem labelHandlers_exact (hg : g.Walkable) (hsteady : g.Steady) (hcloses : g.Closes) :
    ∃ k, g.labelHandlers = .ok k ∧
      (∀ id S₀, g.Opens id (g.block id).instrs S₀ → ∀ n i, (g.block id).instrs[n]? = some i →
        (∃ S, g.Opens id ((g.block id).instrs.drop n) S) ∧
          ∀ S, g.Opens id ((g.block id).instrs.drop n) S →
            (k.block id).instrs[n]? = some (i.labelled S)) ∧
      ∀ t, (k.block t).keepsPosition ↔ ∃ id i is S, g.Opens id (i :: is) S ∧
        i.op.keepsPosition ∧ i.target = some t := by
  have hfuel : g.blocks.size ≤ (g.blocks.map fun b => { b with keepsPosition := false }).size +
      ([] : List BlockId).length := by simp
  obtain ⟨k, seen, done, hk, hdone, hsub, hkeeps⟩ :=
    (Walking.start (relates_forgetPositions g)).exists_run hg hcloses (keeps_nil g) hfuel
  refine ⟨k, hk, fun id S₀ hentry n i hn => ?_, fun t => ?_⟩
  · have hlt := (List.getElem?_eq_some_iff.mp hn).1
    have hends := hg.ended id _ S₀ hentry
    refine ⟨⟨_, hentry.drop hends hlt⟩, fun S hS => ?_⟩
    obtain ⟨S₁, walk, hopens, hwalk, hinstrs, -⟩ :=
      hdone.walked id (hdone.mem_done hg (hsub List.mem_cons_self) hentry)
    obtain rfl := hsteady id S₀ S₁ hentry hopens
    obtain ⟨walk', hwalk', hexact⟩ := hopens.exists_walk hg hcloses hends
    obtain rfl : walk = walk' := Except.ok.inj (hwalk.symm.trans hwalk')
    rw [hinstrs, hexact.instrs, getElem?_labelAll hn, hsteady.eq_handlersAlong hentry hS hlt]
  · rw [hkeeps t]
    constructor
    · rintro ⟨-, id, hid, hmem⟩
      obtain ⟨i, hi, hop, ht⟩ := mem_keepersOf.mp hmem
      obtain ⟨S₀, -, hentry, -⟩ := hdone.walked id hid
      obtain ⟨n, hn⟩ := List.mem_iff_getElem?.mp hi
      obtain ⟨hlt, hget⟩ := List.getElem?_eq_some_iff.mp hn
      have hpath := hentry.drop (hg.ended id _ S₀ hentry) hlt
      rw [List.drop_eq_getElem_cons hlt, hget] at hpath
      exact ⟨id, i, _, _, hpath, hop, ht⟩
    · rintro ⟨id, i, is, S, hpath, hop, ht⟩
      refine ⟨hg.bound t _ _ (hpath.refer ht), id, ?_, ?_⟩
      · exact hdone.mem_done hg (hsub List.mem_cons_self) hpath
      · exact mem_keepersOf.mpr ⟨i, hpath.mem_instrs, hop, ht⟩

/-! ### A check of what is closed -/

section

variable (hg : g.Resolved) (htable : g.handlersAgree table)
  (hwalks : g.order.all fun id => (walkInstrs (table id) (g.block id).instrs).isOk)
include hg htable hwalks

theorem Opens.walks (h : g.Opens id is S) : ∃ walk, walkInstrs S is = .ok walk := by
  have hstart : ∀ {t S}, g.Opens t (g.block t).instrs S →
      ∃ walk, walkInstrs S (g.block t).instrs = .ok walk := by
    intro t S ht
    obtain rfl := (ht.agree hg.wired.within htable).2 rfl
    exact Result.exists_of_isOk (all_eq_true.mp hwalks t (ht.mem_order hg))
  induction h with
  | entry => exact hstart .entry
  | next _ _ ih =>
    obtain ⟨walk, hwalk⟩ := ih
    obtain ⟨rest, _, hrest, -⟩ := walkInstrs_cons hwalk
    exact ⟨rest, hrest⟩
  | refer h ht => exact hstart (h.refer ht)
  | fall h hn => exact hstart (h.fall hn)

theorem Resolved.closes_of_walks : g.Closes := by
  rintro id i is S h hop rfl
  obtain ⟨walk, hwalk⟩ := h.walks hg htable hwalks
  simp [walkInstrs, hop, isBlockPush, PseudoOp.isBlockPush] at hwalk

end

/-- A loop in a guarded region that yields in a region of its own. -/
def guardedYield : List ListingItem :=
  [.pseudo .setupFinally 1 1, .label 0, .real .loadName 0 2, .pseudo .setupCleanup 2 2,
   .real .yieldValue 0 3, .pseudo .popBlock 0 3, .pseudo .popJumpIfTrue 0 4, .pseudo .popBlock 0 5,
   .real .returnConst 0 5, .label 1, .instr (.real .pushExcInfo) 0 .none,
   .instr (.real .reraise) 0 .none, .label 2, .instr (.real .reraise) 1 .none]

theorem labelHandlers_exact_guardedYield : ∃ g k, ofItems guardedYield = .ok g ∧ g.Walkable ∧
    g.Steady ∧ g.Closes ∧ g.labelHandlers = .ok k ∧
    (∀ id S₀, g.Opens id (g.block id).instrs S₀ → ∀ n i, (g.block id).instrs[n]? = some i →
      (∃ S, g.Opens id ((g.block id).instrs.drop n) S) ∧
        ∀ S, g.Opens id ((g.block id).instrs.drop n) S →
          (k.block id).instrs[n]? = some (i.labelled S)) ∧
    ∀ t, (k.block t).keepsPosition ↔ ∃ id i is S, g.Opens id (i :: is) S ∧
      i.op.keepsPosition ∧ i.target = some t := by
  have hok : (ofItems guardedYield).toOption.any fun g =>
      let table : BlockId → HandlerStack := fun id => if id = 0 ∨ id = 3 then [] else [3]
      g.handlersAgree table &&
        g.order.all fun id => (walkInstrs (table id) (g.block id).instrs).isOk := by
    decide +kernel
  obtain ⟨g, hitems, hok⟩ := Result.exists_of_any hok
  obtain ⟨hagree, hwalks⟩ := Bool.and_eq_true_iff.mp hok
  have hresolved := resolved_ofItems hitems
  have hsteady := hresolved.wired.within.steady_of_agree hagree
  have hcloses := hresolved.closes_of_walks hagree hwalks
  obtain ⟨k, hk, hexact⟩ := labelHandlers_exact hresolved.walkable hsteady hcloses
  exact ⟨g, k, hitems, hresolved.walkable, hsteady, hcloses, hk, hexact⟩

end Graph

end Bytecode
