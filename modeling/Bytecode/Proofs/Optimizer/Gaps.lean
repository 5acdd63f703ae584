import Bytecode.Proofs.Optimizer.Tidied

/-!
# Gaps in the lines

Where lines are filled in, no place that has a line changes, and every return has one afterwards.
Each block of the new graph stands for one of the old, and so do the blocks that follow it. So the
paths from the entry meet the same instructions before and after.
-/

namespace Bytecode

open List Instr

/-- What a path shows of an instruction. -/
def Instr.shape (i : Instr) : Operation × Nat × Option BlockId :=
  (i.op, i.arg, i.handler)

/-- The instruction looks the same, and keeps its place if that has a line. -/
structure Instr.Fills (i j : Instr) : Prop where
  shape : j.shape = i.shape
  loc : 0 ≤ i.line → j.loc = i.loc

theorem Instr.Places.fills {i j : Instr} (h : i.Places j) : i.Fills j := by
  obtain ⟨loc, rfl, hloc⟩ := h
  exact ⟨rfl, hloc⟩

namespace Graph

variable {g h k : Graph} {f e : BlockId → BlockId} {id exit a : BlockId} {is : List Instr}
variable {i : Instr} {B : BlockId → Prop}

/-! ### Blocks that stand for others -/

/-- Every block of the second graph stands for one of the first, and so do those that follow it if
it can be reached. -/
structure Unfolds (g h : Graph) (f : BlockId → BlockId) : Prop where
  entry : f h.entry = g.entry
  instrs : ∀ id, Forall₂ Fills (g.block (f id)).instrs (h.block id).instrs
  successors : ∀ id, Reaches h.successors [h.entry] id →
    (h.successors id).map f = g.successors (f id)

theorem Unfolds.reaches (hu : g.Unfolds h f) (hid : Reaches h.successors [h.entry] id) :
    Reaches g.successors [g.entry] (f id) := by
  induction hid with
  | root hroot =>
    rw [mem_singleton.mp hroot, hu.entry]
    exact .root (mem_singleton.mpr rfl)
  | @step a b ha hb ih =>
    refine ih.step ?_
    rw [← hu.successors a ha]
    exact mem_map_of_mem hb

theorem Unfolds.trans (hg : g.Unfolds h f) (hh : h.Unfolds k e) : g.Unfolds k (f ∘ e) where
  entry := (congrArg f hh.entry).trans hg.entry
  instrs id := by
    refine Result.forall₂_trans (hg.instrs _) (hh.instrs id) ?_
    intro i j k hij hjk
    refine ⟨hjk.shape.trans hij.shape, fun hi => ?_⟩
    have hloc := hij.loc hi
    exact (hjk.loc (by rwa [line, hloc])).trans hloc
  successors id hid := by
    rw [← map_map, hh.successors id hid]
    exact hg.successors _ (hh.reaches hid)

theorem Unfolds.shapes (hu : g.Unfolds h f) (id : BlockId) :
    (h.block id).instrs.map shape = (g.block (f id)).instrs.map shape := by
  have hfills := hu.instrs id
  generalize (h.block id).instrs = js at hfills
  generalize (g.block (f id)).instrs = is at hfills
  induction hfills with
  | nil => rfl
  | cons hij _ ih => rw [map_cons, map_cons, hij.shape, ih]

theorem Relates.unfolds (hk : Relates Places g k) : g.Unfolds k fun j => j where
  entry := hk.links.entry
  instrs id := (hk.instrs id).imp fun _ _ => Places.fills
  successors id _ := by
    rw [map_id']
    exact successors_of_alike (hk.mono fun _ _ h => h.alike.1) id

theorem Splits.unfolds (hs : g.Splits h id exit is i) (hg : g.Within B) :
    g.Unfolds h (standsFor g.blocks.size exit) where
  entry := hs.standsFor_entry hg
  instrs j := by
    have hsame : ∀ is, Forall₂ Fills is is :=
      fun is => forall₂_same.mpr fun _ _ => ⟨rfl, fun _ => rfl⟩
    rw [standsFor]
    split_ifs with hcopy
    · rw [hcopy]
      exact hs.copied.imp fun _ _ => Places.fills
    · by_cases hid : j = id
      · rw [hid, hs.self, hs.instrs]
        exact rel_append (hsame is) (.cons ⟨rfl, fun _ => rfl⟩ .nil)
      · rw [hs.instrs_eq hcopy hid]
        exact hsame _
  successors j hj := hs.map_successors hg ((hs.within hg).inside hj)

/-! ### Paths -/

/-- A path from the entry leads to a block, and has met instructions of the given shapes before. -/
inductive Leads (g : Graph) : List (Operation × Nat × Option BlockId) → BlockId → Prop where
  | entry : Leads g [] g.entry
  | step {w a b} (ha : Leads g w a) (hb : b ∈ g.successors a) :
      Leads g (w ++ (g.block a).instrs.map shape) b

theorem Leads.reaches {w : List (Operation × Nat × Option BlockId)} (ha : g.Leads w a) :
    Reaches g.successors [g.entry] a := by
  induction ha with
  | entry => exact .root (mem_singleton.mpr rfl)
  | step _ hb ih => exact ih.step hb

/-- One edge leads to the block, and it is that of a jump. -/
def OneJump (g : Graph) (id : BlockId) : Prop :=
  g.edges.count id = 1 ∧ ∃ a ∈ g.order, ∃ i ∈ (g.block a).instrs, i.op.isJump ∧ i.target = some id

/-- The blocks of the first graph stand for themselves and can be reached as before. The others are
copies of exits without a line, each of them for a jump, and in the layout if the exit is. -/
structure Resolves (g h : Graph) (f : BlockId → BlockId) : Prop extends g.Unfolds h f where
  size : g.blocks.size ≤ h.blocks.size
  kept : ∀ id < g.blocks.size, f id = id
  keeps : ∀ id, Reaches g.successors [g.entry] id → Reaches h.successors [h.entry] id
  placed : ∀ id, id ∈ h.order ↔ f id ∈ g.order
  copies : ∀ id, g.blocks.size ≤ id → id < h.blocks.size →
    (g.block (f id)).isExitWithoutLine ∧ h.OneJump id

/-- In the middle of the copying, control goes on from an exit only to blocks of the first graph. -/
structure Splitting (g h : Graph) (f : BlockId → BlockId) : Prop extends g.Resolves h f where
  exits : ∀ id ∈ h.reachable, (h.block id).exitsScope → ∀ b ∈ h.successors id, b < g.blocks.size
  within : h.Within (Reaches h.successors [h.entry])
  ended : h.WellEnded
  reached : h.Reached
  counted : h.Counted

/-- What stands for the exit without a line is one too. -/
theorem Unfolds.isExitWithoutLine (hu : g.Unfolds h f) (hexits : (h.block id).exitsScope)
    (hblank : ∀ j ∈ (h.block id).instrs, j.line < 0) : (g.block (f id)).isExitWithoutLine := by
  rw [Block.isExitWithoutLine, Bool.and_eq_true, all_eq_true]
  constructor
  · have hlast : ∀ b : Block,
        b.exitsScope = (b.instrs.map shape).getLast?.any (·.1.isScopeExit) := fun b => by
      rw [getLast?_map, Option.any_map]
      rfl
    rwa [hlast, ← hu.shapes id, ← hlast]
  · intro i hi
    obtain ⟨j, hj, hij⟩ := Result.exists_of_mem_forall₂ (hu.instrs id).flip hi
    by_contra hline
    have hi : 0 ≤ i.line := by simpa using hline
    have hneg := hblank j hj
    rw [line, hij.loc hi] at hneg
    exact absurd hi (Int.not_le.mpr hneg)

section

variable (hg : g.Within B) (hid : id ∈ g.reachable) (hcounted : g.Counted)
  (hlayout : g.LaysOut g.order) (hs : g.Splits h id exit is i)
include hg hid hcounted hlayout hs

/-- The only edge to the copy is that of the jump, which led to the exit before. -/
theorem Splits.oneJump_copy : h.OneJump g.blocks.size := by
  have hnew : g.blocks.size ∉ g.reachable := fun hmem => hg.ne_size hmem rfl
  have hexit := hs.exit_mem_reachable hg hid
  refine ⟨?_, id, hs.order_subset hlayout hs.mem, { i with target := some g.blocks.size },
    by simp [hs.self], hs.jump, rfl⟩
  have hcount := hs.count_edges hg hid hcounted g.blocks.size
  rwa [if_neg (ne_of_mem_of_not_mem hexit hnew).symm, if_pos rfl,
    count_eq_zero.mpr fun h => hnew (hg.mem_reachable_of_mem_edges h),
    count_eq_zero.mpr fun h => hnew (hg.reachable_step hexit h)] at hcount

theorem OneJump.splits (ha : g.OneJump a) (hcopy : a ≠ g.blocks.size) (hne : a ≠ exit)
    (hapart : a ∉ g.successors exit) : h.OneJump a := by
  obtain ⟨hone, b, hb, x, hx, hjump, htarget⟩ := ha
  have hcount := hs.count_edges hg hid hcounted a
  rw [if_neg hne, if_neg hcopy, hone, count_eq_zero.mpr hapart] at hcount
  refine ⟨hcount, b, hs.order_subset hlayout hb, x, ?_, hjump, htarget⟩
  by_cases hbid : b = id
  · rw [hbid, hs.instrs] at hx
    rcases mem_append.mp hx with hx | hx
    · simp [hbid, hs.self, hx]
    · rw [mem_singleton.mp hx, hs.target] at htarget
      exact absurd (Option.some.inj htarget).symm hne
  · rwa [hs.instrs_eq (hlayout.ne_size hb) hbid]

end

theorem Splitting.splits (hi : g.Splitting h f) (hlayout : h.LaysOut h.order)
    (hs : h.Splits k id exit is i) : g.Splitting k (f ∘ standsFor h.blocks.size exit) := by
  have hw := hi.within
  have hid := hw.mem_reachable_iff.mpr (hi.reached id hs.mem)
  have hexit := hs.exit_mem_reachable hw hid
  have hmem : ∀ {j}, j ∈ k.reachable ↔ j = h.blocks.size ∨ j ∈ h.reachable :=
    hs.mem_reachable_iff hw hid hi.counted
  refine { hi.toUnfolds.trans (hs.unfolds hw) with
    size := hs.size ▸ Nat.le_succ_of_le hi.size
    kept := fun j hj => ?_
    keeps := fun j hj => ?_
    placed := fun j => ((hs.layout hlayout).2 j).trans (hi.placed _)
    copies := fun j hge hlt => ?_
    exits := fun j hj hjexit b hb => ?_
    within := (hs.within hw).reaching
    ended := hs.wellEnded hlayout hi.ended
    reached := hs.reached hw hi.counted hlayout hi.reached
    counted := hs.counted hw hid hi.counted }
  · have hne := Nat.ne_of_lt (Nat.lt_of_lt_of_le hj hi.size)
    rw [Function.comp, standsFor_of_ne hne]
    exact hi.kept j hj
  · exact (hs.within hw).mem_reachable_iff.mp
      (hmem.mpr (.inr (hw.mem_reachable_iff.mpr (hi.keeps j hj))))
  · by_cases hcopy : j = h.blocks.size
    · subst hcopy
      refine ⟨?_, hs.oneJump_copy hw hid hi.counted hlayout⟩
      rw [Function.comp, standsFor, if_pos rfl]
      exact hi.isExitWithoutLine hs.exits hs.blank
    · have hlt : j < h.blocks.size := by
        have := hs.size ▸ hlt
        omega
      obtain ⟨hblank, hjump⟩ := hi.copies j hge hlt
      have hne : j ≠ exit := by
        rintro rfl
        have hshared := hs.shared
        have hrecord := hi.counted j hexit
        have hone := hjump.1
        omega
      have hapart : j ∉ h.successors exit := fun h =>
        Nat.not_lt.mpr hge (hi.exits exit hexit hs.exits j h)
      refine ⟨?_, hjump.splits hw hid hi.counted hlayout hs hcopy hne hapart⟩
      rwa [Function.comp, standsFor_of_ne hcopy]
  · rcases hmem.mp hj with rfl | hj
    · rw [hs.successors_copy] at hb
      exact hi.exits exit hexit hs.exits b hb
    · have hne : j ≠ id := by
        rintro rfl
        have hinstrs : (k.block j).instrs = is ++ [{ i with target := some h.blocks.size }] := by
          rw [hs.self]
        rw [exitsScope_of_jump hinstrs hs.jump] at hjexit
        cases hjexit
      rw [hs.successors_eq (hw.ne_size hj) hne] at hb
      refine hi.exits j hj ?_ b hb
      rwa [Block.exitsScope, Block.last?, ← hs.instrs_eq (hw.ne_size hj) hne]

end Graph

def ReturnsPlaced (is : List Instr) : Prop :=
  ∀ i ∈ is, i.op = .real .returnValue ∨ i.op = .real .returnConst → 0 ≤ i.line

theorem ReturnsPlaced.of_places {is js : List Instr} (h : ReturnsPlaced is)
    (hj : Forall₂ Places is js) : ReturnsPlaced js := by
  intro j hmem hop
  obtain ⟨i, hi, loc, rfl, hloc⟩ := Result.exists_of_mem_forall₂ hj hmem
  have hline := h i hi hop
  rwa [line, ← hloc hline] at hline

namespace Graph

variable {g : Graph} {line : Int} {id : BlockId} {ids : List BlockId}

end Graph

end Bytecode
