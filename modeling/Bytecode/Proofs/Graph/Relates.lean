import Bytecode.Graph.Cold
import Bytecode.Graph.Constants
import Bytecode.Graph.Handlers
import Bytecode.Graph.Lines
import Bytecode.Graph.Unbound
import Bytecode.Proofs.Graph.Blocks
import Mathlib.Order.Defs.Unbundled

/-!
# Graphs that differ in details

Many passes leave the layout as it is and change the instructions one by one. Each is described by
the relation between an instruction before and after it.
-/

namespace Bytecode

open List Result Instr Bytecode.Graph Except

variable {is : List Instr} {S : HandlerStack} {P : BlockId → Prop} {i : Instr}

/-! ### Relations of instructions -/

namespace Instr

/-- The same instruction, at another place if it had no line. -/
def Places (i j : Instr) : Prop :=
  ∃ loc, j = { i with loc := loc } ∧ (0 ≤ i.line → loc = i.loc)

def Checks (i j : Instr) : Prop :=
  j = i ∨ i.op = .real .loadFast ∧ j = { i with op := .real .loadFastCheck }

/-- The same instruction with another handler; a yield may also have another operand. -/
def Labels (i j : Instr) : Prop :=
  ∃ handler arg, j = { i with handler := handler, arg := arg } ∧
    (arg = i.arg ∨ i.op = .real .yieldValue)

/-- The same instruction, with another number for its constant if it has one. -/
def Renumbers (i j : Instr) : Prop :=
  j = i ∨ i.constantIndex?.isSome ∧ ∃ arg, j = { i with arg := arg }

instance : Std.Refl Places := ⟨fun i => ⟨i.loc, rfl, fun _ => rfl⟩⟩

instance : IsTrans Instr Places where
  trans _ _ _ := by
    rintro ⟨loc, rfl, h⟩ ⟨loc', rfl, h'⟩
    refine ⟨loc', rfl, fun hi => ?_⟩
    obtain rfl := h hi
    exact h' hi

theorem places_of_neg (hi : i.line < 0) (loc : Location) : i.Places { i with loc := loc } :=
  ⟨loc, rfl, fun h => absurd hi (Int.not_lt.mpr h)⟩

theorem places_ite (i : Instr) (loc : Location) :
    i.Places (if i.line < 0 then { i with loc := loc } else i) := by
  split_ifs with hi
  · exact places_of_neg hi loc
  · exact ⟨i.loc, rfl, fun _ => rfl⟩

instance : Std.Refl Checks := ⟨fun _ => .inl rfl⟩

instance : IsTrans Instr Checks where
  trans _ _ _ := by
    rintro (rfl | ⟨hi, rfl⟩) (rfl | ⟨hj, rfl⟩)
    exacts [.inl rfl, .inr ⟨hj, rfl⟩, .inr ⟨hi, rfl⟩, by cases hj]

instance : Std.Refl Labels := ⟨fun i => ⟨i.handler, i.arg, rfl, .inl rfl⟩⟩

instance : IsTrans Instr Labels where
  trans _ _ _ := by
    rintro ⟨handler, arg, rfl, h⟩ ⟨handler', arg', rfl, h'⟩
    refine ⟨handler', arg', rfl, ?_⟩
    rcases h' with rfl | h'
    exacts [h, .inr h']

instance : Std.Refl Renumbers := ⟨fun _ => .inl rfl⟩

instance : IsTrans Instr Renumbers where
  trans _ _ _ := by
    rintro (rfl | ⟨hi, arg, rfl⟩) (rfl | ⟨hj, arg', rfl⟩)
    exacts [.inl rfl, .inr ⟨hj, arg', rfl⟩, .inr ⟨hi, arg, rfl⟩, .inr ⟨hi, arg', rfl⟩]

end Instr

namespace Graph

/-- The second graph has the layout of the first, and its instructions are related one by one. -/
structure Relates (R : Instr → Instr → Prop) (g h : Graph) : Prop where
  links : g.SameLinks h
  handler : ∀ id, (h.block id).isHandler = (g.block id).isHandler
  instrs : ∀ id, Forall₂ R (g.block id).instrs (h.block id).instrs

namespace Relates

variable {R S : Instr → Instr → Prop} {g h k : Graph}

theorem mono (hg : Relates R g h) (hRS : ∀ i j, R i j → S i j) : Relates S g h :=
  ⟨hg.links, hg.handler, fun id => (hg.instrs id).imp fun i j => hRS i j⟩

theorem instrs_eq (hg : Relates Eq g h) (id : BlockId) :
    (h.block id).instrs = (g.block id).instrs :=
  (forall₂_eq_eq_eq ▸ hg.instrs id).symm

section Refl

variable [Std.Refl R] {f : Instr → Instr}

theorem refl (g : Graph) : Relates R g g :=
  ⟨.refl g, fun _ => rfl, fun _ => forall₂_refl _⟩

theorem modify {f : Block → Block} (id : BlockId) (hnext : ∀ b, (f b).next = b.next)
    (hhandler : ∀ b, (f b).isHandler = b.isHandler)
    (hinstrs : Forall₂ R (g.block id).instrs (f (g.block id)).instrs) :
    Relates R g (g.modify id f) where
  links := .modify id hnext
  handler j := by
    rw [block_modify]
    split_ifs
    exacts [hhandler _, rfl]
  instrs j := by
    rw [block_modify]
    split_ifs with hj
    · rwa [← hj.1]
    · exact forall₂_refl _

theorem setInstrs (id : BlockId) (h : Forall₂ R (g.block id).instrs is) :
    Relates R g (g.setInstrs id is) :=
  .modify id (fun _ => rfl) (fun _ => rfl) h

theorem forall₂_modifyHead {b : Block} (hf : ∀ i ∈ b.instrs, R i (f i)) :
    Forall₂ R b.instrs (b.modifyHead f).instrs := by
  unfold Block.modifyHead
  split
  · rename_i i rest hb
    rw [hb] at hf ⊢
    exact .cons (hf i mem_cons_self) (forall₂_refl rest)
  · exact forall₂_refl _

theorem places_modifyHead (b : Block) (hb : ∀ i ∈ b.instrs, i.line < 0) (loc : Location) :
    Forall₂ Places b.instrs (b.modifyHead fun i => { i with loc := loc }).instrs :=
  forall₂_modifyHead fun i hi => places_of_neg (hb i hi) loc

theorem modifyHead {id : BlockId} (hf : ∀ i ∈ (g.block id).instrs, R i (f i)) :
    Relates R g (g.modify id (·.modifyHead f)) :=
  .modify id (fun b => b.next_modifyHead f) (fun b => b.isHandler_modifyHead f)
    (forall₂_modifyHead hf)

theorem mapIdx {f : Nat → Block → Block} (hnext : ∀ id b, (f id b).next = b.next)
    (hhandler : ∀ id b, (f id b).isHandler = b.isHandler)
    (hinstrs : ∀ id, Forall₂ R (g.block id).instrs (f id (g.block id)).instrs) :
    Relates R g { g with blocks := g.blocks.mapIdx f } := by
  refine ⟨⟨by simp, rfl, fun id => ?_⟩, fun id => ?_, fun id => ?_⟩
  all_goals
    rw [block_mapIdx]
    split_ifs
  exacts [hnext _ _, rfl, hhandler _ _, rfl, hinstrs id, forall₂_refl _]

end Refl

section Trans

variable [IsTrans Instr R]

theorem trans (hg : Relates R g h) (hh : Relates R h k) : Relates R g k :=
  ⟨hg.links.trans hh.links, fun id => (hh.handler id).trans (hg.handler id),
    fun id => Result.forall₂_trans (hg.instrs id) (hh.instrs id) fun _ _ _ => IsTrans.trans _ _ _⟩

variable [Std.Refl R]

theorem foldl {α : Type} {step : Graph → α → Graph} (hstep : ∀ g a, Relates R g (step g a))
    (as : List α) (g : Graph) : Relates R g (as.foldl step g) := by
  induction as generalizing g with
  | nil => exact .refl g
  | cons a as ih => exact (hstep g a).trans (ih (step g a))

theorem mapInstrs {f : List Instr → List Instr} (hf : ∀ is, Forall₂ R is (f is))
    (g : Graph) : Relates R g (g.mapInstrs f) := by
  refine .foldl (fun k id => ?_) g.order g
  exact .modify id (fun _ => rfl) (fun _ => rfl) (hf _)

end Trans

end Relates

end Graph

/-! ### Active handlers -/

open Bytecode.Graph

/-- The handlers that are open after an instruction, the innermost first. -/
def Instr.handlersAfter (i : Instr) (S : HandlerStack) : HandlerStack :=
  if i.op.isBlockPush then i.target.toList ++ S
  else if i.op = .pseudo .popBlock then S.tail
  else S

/-- The handlers of which the first one is active at an instruction. -/
def Instr.handlersAt (i : Instr) (S : HandlerStack) : HandlerStack :=
  if i.op = .pseudo .popBlock then S.tail else S

theorem Instr.forall_mem_handlersAfter (hS : ∀ t ∈ S, P t) (hi : ∀ t, i.target = some t → P t) :
    ∀ t ∈ i.handlersAfter S, P t := by
  intro t ht
  unfold handlersAfter at ht
  split_ifs at ht
  · rcases mem_append.mp ht with ht | ht
    · exact hi t (Option.mem_toList.mp ht)
    · exact hS t ht
  · exact hS t (mem_of_mem_tail ht)
  · exact hS t ht

theorem Instr.forall_mem_handlersAt (hS : ∀ t ∈ S, P t) : ∀ t ∈ i.handlersAt S, P t := by
  intro t ht
  unfold handlersAt at ht
  split_ifs at ht
  exacts [hS t (mem_of_mem_tail ht), hS t ht]

/-- The walk writes the active handler on the first instruction, finds the block that it refers to,
and goes on with the handlers that are open after it. -/
theorem walkInstrs_cons {walk : BlockWalk} (h : walkInstrs S (i :: is) = .ok walk) : ∃ rest j,
      walkInstrs (i.handlersAfter S) is = .ok rest ∧ i.Labels j ∧
      j.handler = (i.handlersAt S).head? ∧ walk.instrs = j :: rest.instrs ∧
      walk.stack = rest.stack ∧
      ((i.op.hasTarget = false ∧ walk.found = rest.found) ∨
        ∃ t, i.op.hasTarget ∧ i.target = some t ∧ walk.found = (t, S) :: rest.found) := by
  unfold walkInstrs at h
  dsimp only at h
  split at h
  next hpush =>
    obtain ⟨target, htarget, h⟩ := bind_eq_ok.mp h
    obtain ⟨rest, hrest, h⟩ := bind_eq_ok.mp h
    obtain rfl := ok.inj h
    have htarget := Result.require_eq_ok.mp htarget
    have hnot : i.op ≠ .pseudo .popBlock := by
      intro hop
      rw [hop] at hpush
      cases hpush
    refine ⟨rest, _, ?_, ⟨_, _, rfl, .inl rfl⟩, ?_, rfl, rfl, .inr ⟨target, ?_, htarget, rfl⟩⟩
    · rw [handlersAfter, if_pos hpush, htarget]
      exact hrest
    · rw [handlersAt, if_neg hnot]
    · rw [Operation.hasTarget, hpush, Bool.or_true]
  next hpush =>
    rw [Bool.not_eq_true] at hpush
    split at h
    next hpop =>
      cases S with
      | nil => simp at h
      | cons t outer =>
        obtain ⟨rest, hrest, h⟩ := bind_eq_ok.mp h
        obtain rfl := ok.inj h
        refine ⟨rest, _, ?_, ⟨_, _, rfl, .inl rfl⟩, ?_, rfl, rfl, .inl ⟨?_, rfl⟩⟩
        · simp only [handlersAfter, hpop, if_true]
          exact hrest
        · rw [handlersAt, if_pos hpop]
          rfl
        · rw [hpop]
          rfl
    next hpop =>
      have hafter : i.handlersAfter S = S := by simp [handlersAfter, hpush, hpop]
      have hat : i.handlersAt S = S := by simp [handlersAt, hpop]
      rw [hafter, hat]
      split at h
      next hjump =>
        obtain ⟨target, htarget, h⟩ := bind_eq_ok.mp h
        obtain ⟨rest, hrest, h⟩ := bind_eq_ok.mp h
        obtain rfl := ok.inj h
        exact ⟨rest, _, hrest, ⟨_, _, rfl, .inl rfl⟩, rfl, rfl, rfl,
          .inr ⟨target, by rw [Operation.hasTarget, hjump, Bool.true_or],
            Result.require_eq_ok.mp htarget, rfl⟩⟩
      next hjump =>
        obtain ⟨rest, hrest, h⟩ := bind_eq_ok.mp h
        obtain rfl := ok.inj h
        refine ⟨rest, _, hrest, ?_, ?_, rfl, rfl,
          .inl ⟨by simp [Operation.hasTarget, hpush, hjump], rfl⟩⟩
        · split_ifs with hyield
          · exact ⟨_, _, rfl, .inr hyield⟩
          · exact ⟨_, _, rfl, .inl rfl⟩
        · split_ifs <;> rfl

theorem labels_walkInstrs {stack : HandlerStack} {walk : BlockWalk}
    (h : walkInstrs stack is = .ok walk) : Forall₂ Labels is walk.instrs := by
  induction is generalizing stack walk with
  | nil =>
    obtain rfl := ok.inj h
    exact .nil
  | cons i is ih =>
    obtain ⟨rest, j, hrest, hij, _, hinstrs, _⟩ := walkInstrs_cons h
    exact hinstrs ▸ .cons hij (ih hrest)

theorem relates_walkBlocks {fuel : Nat} {work : List (BlockId × HandlerStack)}
    {seen : List BlockId} {g h : Graph} (hg : walkBlocks fuel work seen g = .ok h) :
    Relates Labels g h := by
  induction fuel generalizing work seen g with
  | zero =>
    obtain rfl := ok.inj hg
    exact .refl g
  | succ fuel ih =>
    cases work with
    | nil =>
      obtain rfl := ok.inj hg
      exact .refl g
    | cons entry work =>
      obtain ⟨id, stack⟩ := entry
      obtain ⟨walk, hwalk, hg⟩ := bind_eq_ok.mp hg
      refine .trans (.setInstrs id (labels_walkInstrs hwalk)) (.trans ?_ (ih hg))
      refine .foldl (fun k j => ?_) walk.keepers _
      exact .modify j (fun _ => rfl) (fun _ => rfl) (forall₂_refl _)

theorem relates_forgetPositions (g : Graph) : Relates Eq g
    { g with blocks := g.blocks.map fun b => { b with keepsPosition := false } } := by
  have hmap : g.blocks.map (fun b => { b with keepsPosition := false }) =
      g.blocks.mapIdx fun _ b => { b with keepsPosition := false } := by
    apply Array.ext <;> simp
  rw [hmap]
  exact .mapIdx (fun _ _ => rfl) (fun _ _ => rfl) fun _ => forall₂_refl _

theorem relates_labelHandlers {g h : Graph} (hg : g.labelHandlers = .ok h) :
    Relates Labels g h := by
  refine .trans ((relates_forgetPositions g).mono ?_) (relates_walkBlocks hg)
  rintro i _ rfl
  exact Std.Refl.refl i

/-! ### Checks of loads -/

theorem checks_checkLoads (s : UnboundSet) (is : List Instr) :
    Forall₂ Checks is (checkLoads s is) := by
  induction is generalizing s with
  | nil => exact .nil
  | cons i is ih =>
    refine .cons ?_ (ih _)
    unfold withCheck
    split_ifs with hi
    · exact .inr ⟨hi.1, rfl⟩
    · exact .inl rfl

theorem checks_checkFarLoads (localCount : Nat) (bound : List Nat) (is : List Instr) :
    Forall₂ Checks is (checkFarLoads localCount bound is) := by
  fun_induction checkFarLoads localCount bound is with
  | case1 => exact .nil
  | case2 _ _ _ _ ih | case3 _ _ _ _ _ ih | case4 _ _ _ _ _ ih | case6 _ _ _ _ _ _ _ ih =>
    exact .cons (.inl rfl) ih
  | case5 bound i rest _ hop _ ih =>
    refine .cons ?_ ih
    show Checks i (if bound.contains i.arg then i else { i with op := .real .loadFastCheck })
    split_ifs
    · exact .inl rfl
    · exact .inr ⟨hop, rfl⟩

theorem relates_checkUnboundLoads (g : Graph) (localCount paramCount : Nat) :
    Relates Checks g (g.checkUnboundLoads localCount paramCount) := by
  have hnear : ∀ (g : Graph) (order : List BlockId) (sets : Array UnboundSet),
      Relates Checks g
        { g with blocks := g.blocks.mapIdx fun id b =>
            if order.contains id || sets.getD id 0 ≠ 0 then
              { b with instrs := checkLoads (sets.getD id 0) b.instrs }
            else b } := by
    intro g order sets
    refine .mapIdx (fun _ _ => ?_) (fun _ _ => ?_) fun _ => ?_
    all_goals split_ifs
    exacts [rfl, rfl, rfl, rfl, checks_checkLoads _ _, forall₂_refl _]
  unfold checkUnboundLoads
  split_ifs
  · exact .refl g
  · exact (Relates.mapInstrs (checks_checkFarLoads localCount []) g).trans (hnear _ _ _)
  · exact hnear g _ _

/-! ### Constants -/

theorem Instr.renumbers_renumber (kept : List Nat) (i : Instr) : i.Renumbers (i.renumber kept) := by
  unfold renumber
  split
  · rename_i index hi
    exact .inr ⟨Option.isSome_of_eq_some hi, _, rfl⟩
  · exact .inl rfl

/-! ### Places -/

theorem relates_lineOfFallthrough (g : Graph) (id : BlockId) :
    Relates Places g (g.lineOfFallthrough id) := by
  unfold lineOfFallthrough
  split
  · split_ifs with hexit
    · simp only [Block.isExitWithoutLine, Bool.and_eq_true, all_eq_true, decide_eq_true_eq] at hexit
      exact .modifyHead fun i hi => places_of_neg (hexit.2 i hi) _
    · exact .refl g
  · exact .refl g

theorem relates_inheritLine (loc : Location) (g : Graph) (id : BlockId) :
    Relates Places g (g.inheritLine loc id) := by
  unfold inheritLine
  split_ifs
  · exact .modifyHead fun i _ => i.places_ite loc
  · exact .refl g

theorem places_carryLines (prev : Location) (is : List Instr) :
    Forall₂ Places is (carryLines prev is).1 := by
  induction is generalizing prev with
  | nil => exact .nil
  | cons i is ih => exact .cons ⟨_, rfl, fun h => if_neg (Int.not_lt.mpr h)⟩ (ih _)

theorem relates_carryThrough (g : Graph) (id : BlockId) : Relates Places g (g.carryThrough id) := by
  unfold carryThrough
  dsimp only
  split_ifs
  · exact .refl g
  · refine .trans (.setInstrs id (places_carryLines .none _)) ?_
    exact .foldl (fun h next => relates_inheritLine _ h next) _ _

theorem relates_lineOfReturns (line : Int) (ids : List BlockId) (g : Graph) :
    Relates Places g (lineOfReturns line ids g) := by
  induction ids generalizing line g with
  | nil => exact .refl g
  | cons id ids ih =>
    unfold lineOfReturns
    split
    · exact ih line g
    · split_ifs
      · exact ih _ g
      · refine .trans ?_ (ih line _)
        refine .modify id (fun _ => rfl) (fun _ => rfl) ?_
        exact forall₂_map_right_iff.mpr (forall₂_same.mpr fun i _ => i.places_ite _)
      · exact ih line g

/-- All that follows the copies of shared exits. -/
theorem relates_fillLines (g : Graph) (firstLine : Int) :
    let a := g.order.foldl lineOfFallthrough g
    let b := a.order.foldl carryThrough a
    Relates Places g (lineOfReturns firstLine b.order b) :=
  ((Relates.foldl relates_lineOfFallthrough g.order g).trans
    (.foldl relates_carryThrough _ _)).trans (relates_lineOfReturns firstLine _ _)

/-! ### Marks on blocks -/

theorem relates_countPredecessors (g : Graph) : Relates Eq g g.countPredecessors :=
  .mapIdx (fun _ _ => rfl) (fun _ _ => rfl) fun _ => forall₂_refl _

theorem relates_markCold (g : Graph) : Relates Eq g g.markCold :=
  .mapIdx (fun _ _ => rfl) (fun _ _ => rfl) fun _ => forall₂_refl _

end Bytecode
