import Bytecode.Graph.Peephole
import Bytecode.Proofs.Graph.Nops
import Bytecode.Proofs.Machine.StraightLine
import Bytecode.Proofs.Optimizer.Exits

/-!
# Edits

What the pass over a block can do to its instructions: each stays, or another of a few kinds takes
its place, and two that consume a value may change places. An edit after which the instructions do
what they did can be made inside of a block.
-/

namespace Bytecode

open List Result

variable {is js : List Instr} {i : Instr} {Q : Instr → Prop}

namespace Operation

/-- The operations that work on the stack alone, as far as the pass over a block knows them. -/
def isPlain : Operation → Bool
  | .real .nop | .real .popTop | .real .swap | .real .copy | .real .loadConst | .real .buildTuple
  | .real .unpackSequence | .real .isOp | .real .pushNull | .real .loadGlobal => true
  | _ => false

/-- The operations that look at the top of the stack and go on or jump. -/
def isTest : Operation → Bool
  | .pseudo .popJumpIfTrue | .pseudo .popJumpIfFalse | .pseudo .popJumpIfNone
  | .pseudo .popJumpIfNotNone | .real .jumpIfTrueOrPop | .real .jumpIfFalseOrPop => true
  | _ => false

variable {op : Operation}

theorem hasTarget_of_isPlain (h : op.isPlain) : op.hasTarget = false := by
  unfold isPlain at h
  split at h <;> first | rfl | cases h

theorem isBlockPush_of_isPlain (h : op.isPlain) : op.isBlockPush = false := by
  unfold isPlain at h
  split at h <;> first | rfl | cases h

theorem isTerminator_of_isPlain (h : op.isPlain) : op.isTerminator = false := by
  unfold isPlain at h
  split at h <;> first | rfl | cases h

theorem fallsThrough_of_isTerminator (h : op.isTerminator = false) : op.fallsThrough := by
  rw [isTerminator, isJump_eq, isScopeExit_eq] at h
  rw [fallsThrough_eq]
  cases hm : op.meaning <;> rw [hm] at h <;> first | rfl | cases h

theorem isJump_of_isUnconditionalJump (h : op.isUnconditionalJump) : op.isJump := by
  rw [isUnconditionalJump_eq, decide_eq_true_eq] at h
  rw [isJump_eq, h]
  rfl

theorem isBlockPush_of_isJump (h : op.isJump) : op.isBlockPush = false := by
  rw [isJump_eq] at h
  rw [isBlockPush_eq, decide_eq_false_iff_not]
  intro hmeaning
  rw [hmeaning] at h
  cases h

theorem isJump_of_isTest (h : op.isTest) : op.isJump := by
  unfold isTest at h
  split at h <;> first | rfl | cases h

theorem isTest_of_popJumpOutcome? {outcome : Bool} (h : popJumpOutcome? op = some outcome) :
    op.isTest := by
  unfold popJumpOutcome? at h
  split at h <;> first | rfl | cases h

theorem isTest_of_jumpOrPopOutcome? {outcome : Bool} (h : jumpOrPopOutcome? op = some outcome) :
    op.isTest := by
  unfold jumpOrPopOutcome? at h
  split at h <;> first | rfl | cases h

theorem isTest_popJumpIf (outcome : Bool) : (popJumpIf outcome).isTest := by
  cases outcome <;> rfl

theorem isTest_jumpIfOrPop (outcome : Bool) : (jumpIfOrPop outcome).isTest := by
  cases outcome <;> rfl

theorem isTest_noneJumpIf (onNone : Bool) : (noneJumpIf onNone).isTest := by
  cases onNone <;> rfl

end Operation

theorem Block.fallsThrough_of_exitsScope {b : Block} (hb : b.exitsScope) :
    b.fallsThrough = false := by
  simp only [Block.exitsScope, Block.last?, Option.any_eq_true] at hb
  obtain ⟨j, hj, hexit⟩ := hb
  simp [Block.fallsThrough, Block.last?, hj, Operation.fallsThrough, hexit]

/-- The second instruction can come to stand where the first one stood. -/
inductive Recasts : Instr → Instr → Prop where
  | refl (i : Instr) : Recasts i i
  /-- Something that works on the stack alone. -/
  | plain {i : Instr} {op : Operation} (arg : Nat) (hi : i.op.isPlain ∨ i.op.isTest)
      (hop : op.isPlain) : Recasts i { i with op := op, arg := arg, target := none }
  | replace {i : Instr} {op : Operation} (arg : Nat) (hi : i.op.isPlain) (hop : op.isPlain) :
      Recasts i { i with op := op, arg := arg }
  /-- Another jump to the same block. -/
  | test {i : Instr} {op : Operation} (hi : i.op.isTest)
      (hop : op.isTest ∨ op = .pseudo .jump) : Recasts i { i with op := op }
  | answer {i : Instr} (index : Nat) (hi : i.op = .real .returnValue) :
      Recasts i (i.become .returnConst index)

namespace Recasts

variable {i j : Instr}

theorem toNop (hi : i.op.isPlain ∨ i.op.isTest) : Recasts i i.toNop :=
  .plain 0 hi rfl

theorem refl_list (is : List Instr) : Forall₂ Recasts is is :=
  forall₂_same.mpr fun i _ => .refl i

theorem map_toNop {is : List Instr} (h : ∀ i ∈ is, i.op.isPlain) :
    Forall₂ Recasts is (is.map Instr.toNop) :=
  forall₂_map_right_iff.mpr (forall₂_same.mpr fun i hi => .toNop (.inl (h i hi)))

theorem isTerminator (h : Recasts i j) (hj : j.op.isTerminator) : i.op.isTerminator := by
  cases h with
  | refl => exact hj
  | plain _ _ hop | replace _ _ hop =>
    exact absurd hj (by simp [Operation.isTerminator_of_isPlain hop])
  | test hi => simp [Operation.isTerminator, Operation.isJump_of_isTest hi]
  | answer _ hi => rw [hi]; rfl

theorem handler_eq (h : Recasts i j) : j.handler = i.handler := by
  cases h <;> rfl

theorem target_eq (h : Recasts i j) {t : BlockId} (ht : j.target = some t) : i.target = some t := by
  cases h <;> first | exact ht | cases ht

theorem isBlockPush (h : Recasts i j) (hj : j.op.isBlockPush) : i.op.isBlockPush := by
  cases h with
  | refl => exact hj
  | plain _ _ hop | replace _ _ hop =>
    exact absurd hj (by simp [Operation.isBlockPush_of_isPlain hop])
  | test _ hop =>
    have hjump := hop.elim Operation.isJump_of_isTest fun h => h ▸ rfl
    exact absurd hj (by simp [Operation.isBlockPush_of_isJump hjump])
  | answer => cases hj

end Recasts

/-! ### Ends of blocks -/

/-- The second list ends a block nowhere that the first does not. -/
def EndsAs (is js : List Instr) : Prop :=
  Forall₂ (fun i j => j.op.isTerminator → i.op.isTerminator) is js

namespace EndsAs

variable {is js ks : List Instr}

theorem refl (is : List Instr) : EndsAs is is :=
  forall₂_same.mpr fun _ _ h => h

theorem trans (h : EndsAs is js) (h' : EndsAs js ks) : EndsAs is ks :=
  Result.forall₂_trans h h' fun _ _ _ hij hjk hk => hij (hjk hk)

/-- Instructions that do not end a block can take the place of any others. -/
theorem of_quiet (hlength : is.length = js.length) (h : ∀ j ∈ js, j.op.isTerminator = false) :
    EndsAs is js := by
  refine forall₂_iff_get.mpr ⟨hlength, fun k hi hj hend => ?_⟩
  rw [h _ (get_mem ..)] at hend
  cases hend

theorem terminatorsLast (h : EndsAs is js) (his : TerminatorsLast is) : TerminatorsLast js := by
  intro j hj
  rw [dropLast_eq_take] at hj
  obtain ⟨i, hi, hij⟩ := Result.exists_of_mem_forall₂ (forall₂_take (js.length - 1) h) hj
  rw [← h.length_eq, ← dropLast_eq_take] at hi
  cases hend : j.op.isTerminator with
  | false => rfl
  | true => exact absurd (hij hend) (by simp [his i hi])

end EndsAs

theorem isTerminator_eq_false (hi : i.consumes) : i.op.isTerminator = false := by
  simp only [Instr.consumes, Instr.isNop, Instr.isConsumer, Bool.or_eq_true,
    decide_eq_true_eq] at hi
  rcases hi with hop | hop | hop <;> rw [hop] <;> rfl

theorem EndsAs.exchange {a b : Instr} {pre mid : List Instr} (hpre : ∀ j ∈ pre, j.isNop)
    (ha : a.isConsumer) (hmid : ∀ j ∈ mid, j.consumes) (hb : b.isConsumer) :
    EndsAs (i :: (pre ++ a :: (mid ++ [b]))) (i.toNop :: (pre ++ b :: (mid ++ [a]))) := by
  refine .of_quiet (by simp) fun j hj => isTerminator_eq_false ?_
  simp only [mem_cons, mem_append, not_mem_nil, or_false] at hj
  rcases hj with rfl | hj | rfl | hj | rfl
  exacts [.inl (isNop_toNop i), .inl (hpre j hj), .inr hb, hmid j hj, .inr ha]

/-! ### Edits of a run -/

theorem Instr.isPlain_of_isSwap (h : i.isSwap) : i.op.isPlain := by
  rw [isSwap_iff.mp h]; rfl

/-- The edits of a run of instructions. -/
inductive Edits : List Instr → List Instr → Prop where
  | recast {is js : List Instr} (h : Forall₂ Recasts is js) : Edits is js
  /-- The consumers of two values that were exchanged change places. -/
  | exchange {i a b : Instr} {pre mid : List Instr} (hi : i.isSwap) (hpre : ∀ j ∈ pre, j.isNop)
      (ha : a.isConsumer) (hmid : ∀ j ∈ mid, j.consumes) (hb : b.isConsumer)
      (hcan : canExchange a b mid) :
      Edits (i :: (pre ++ a :: (mid ++ [b]))) (i.toNop :: (pre ++ b :: (mid ++ [a])))
  | append {is js is' js' : List Instr} (h : Edits is js) (h' : Edits is' js') :
      Edits (is ++ is') (js ++ js')
  | trans {is js ks : List Instr} (h : Edits is js) (h' : Edits js ks) : Edits is ks

namespace Edits

theorem refl (is : List Instr) : Edits is is :=
  .recast (Recasts.refl_list is)

theorem endsAs (h : Edits is js) : EndsAs is js := by
  induction h with
  | recast h => exact h.imp fun _ _ hij => hij.isTerminator
  | exchange _ hpre ha hmid hb => exact .exchange hpre ha hmid hb
  | append _ _ ih ih' => exact rel_append ih ih'
  | trans _ _ ih ih' => exact ih.trans ih'

theorem forall_mem (h : Edits is js) (hQ : ∀ {i j}, Recasts i j → Q i → Q j)
    (his : ∀ i ∈ is, Q i) : ∀ j ∈ js, Q j := by
  induction h with
  | recast h =>
    intro j hj
    obtain ⟨i, hi, hij⟩ := exists_of_mem_forall₂ h hj
    exact hQ hij (his i hi)
  | @exchange i a b pre mid hi hpre ha hmid hb hcan =>
    intro j hj
    simp only [mem_cons, mem_append, not_mem_nil, or_false] at hj his
    rcases hj with rfl | hj
    · exact hQ (.toNop (.inl (i.isPlain_of_isSwap hi))) (his i (.inl rfl))
    · refine his j (.inr ?_)
      tauto
  | append _ _ ih ih' =>
    intro j hj
    rcases mem_append.mp hj with hj | hj
    · exact ih (fun i hi => his i (mem_append_left _ hi)) j hj
    · exact ih' (fun i hi => his i (mem_append_right _ hi)) j hj
  | trans _ _ ih ih' => exact ih' (ih his)

end Edits

theorem Thinned.forall_mem (h : Thinned is js)
    (hQ : ∀ (i : Instr) (loc : Location), Q i → Q { i with loc := loc }) (his : ∀ i ∈ is, Q i) :
    ∀ j ∈ js, Q j := by
  induction h with
  | nil => exact his
  | keep i loc _ ih =>
    obtain ⟨hi, his⟩ := forall_mem_cons.mp his
    exact forall_mem_cons.mpr ⟨hQ i loc hi, ih his⟩
  | drop _ _ ih => exact ih (forall_mem_cons.mp his).2

/-- The second instructions with their constants can stand in place of the first with theirs. -/
structure Rewrites (cs : List Constant) (is : List Instr) (cs' : List Constant)
    (js : List Instr) : Prop where
  edits : Edits is js
  refines : ∀ ⦃V W E : Type⦄ (M : Machine V W E), M.Refines cs is cs' js

namespace Rewrites

variable {cs cs' cs'' : List Constant} {is js ks is' js' pre : List Instr}

theorem refl (cs : List Constant) (is : List Instr) : Rewrites cs is cs is :=
  ⟨.refl is, fun _ _ _ _ => .refl cs is⟩

theorem trans (h : Rewrites cs is cs' js) (h' : Rewrites cs' js cs'' ks) : Rewrites cs is cs'' ks :=
  ⟨h.edits.trans h'.edits, fun _ _ _ M => (h.refines M).trans (h'.refines M)⟩

theorem append (h : Rewrites cs is cs' js) (h' : Rewrites cs is' cs' js') :
    Rewrites cs (is ++ is') cs' (js ++ js') :=
  ⟨h.edits.append h'.edits, fun _ _ _ M => (h.refines M).append (h'.refines M)⟩

/-- A rewriting that is right in the states that the instructions before it lead to. -/
theorem after (hedits : Edits is js)
    (h : ∀ ⦃V W E : Type⦄ (M : Machine V W E) (s t : State V W E), M.run cs pre s = .next t →
      M.RefinesAt cs is cs js t) : Rewrites cs (pre ++ is) cs (pre ++ js) :=
  ⟨(Edits.refl pre).append hedits, fun _ _ _ M => (Machine.Refines.refl cs pre).append_at (h M)⟩

end Rewrites

end Bytecode
