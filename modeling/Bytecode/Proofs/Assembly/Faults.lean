import Bytecode.Lowering.Gen
import Bytecode.Proofs.Result

/-!
# Faults of passes and assembly

The passes and the assembler look at graphs and tables only, so that no missing scope stops them.
-/

namespace Bytecode

/-- The computation does not stop for want of a scope. -/
def Result.FindsScopes {α : Type} (r : Result α) : Prop :=
  r ≠ .error (.internal .noScope)

namespace Result.FindsScopes

variable {α β : Type} {r : Result α} {f : α → Result β}

theorem ok (a : α) : FindsScopes (.ok a) :=
  nofun

theorem fault {e : Fault} (he : e ≠ .noScope) : FindsScopes (Result.fault e : Result α) :=
  fun h => he (CompileError.internal.inj (Except.error.inj h))

theorem exceed (l : Limit) : FindsScopes (Result.exceed l : Result α) :=
  nofun

theorem cast {e : CompileError} (h : FindsScopes (.error e : Result α)) :
    FindsScopes (.error e : Result β) :=
  fun he => h (congrArg _ (Except.error.inj he))

theorem require {e : Fault} (o : Option α) (he : e ≠ .noScope := by nofun) :
    FindsScopes (Result.require e o) := by
  cases o with
  | none => exact fault he
  | some a => exact ok a

theorem bind (hr : r.FindsScopes) (hf : ∀ a, (f a).FindsScopes) : (r >>= f).FindsScopes := by
  intro h
  rcases Result.bind_eq_error.mp h with h | ⟨a, -, h⟩
  · exact hr h
  · exact hf a h

theorem mapM (hf : ∀ a, (f a).FindsScopes) (as : List α) : FindsScopes (as.mapM f) := by
  induction as with
  | nil => exact ok _
  | cons a as ih =>
    rw [List.mapM_cons]
    exact .bind (hf a) fun _ => .bind ih fun _ => ok _

theorem mapM_option (hf : ∀ a, (f a).FindsScopes) (o : Option α) : FindsScopes (o.mapM f) := by
  cases o with
  | none => exact ok _
  | some a => exact .bind (hf a) fun _ => ok _

theorem foldlM {g : β → α → Result β} (hg : ∀ b a, (g b a).FindsScopes) (as : List α) (b : β) :
    FindsScopes (as.foldlM g b) := by
  induction as generalizing b with
  | nil => exact ok _
  | cons a as ih =>
    rw [List.foldlM_cons]
    exact .bind (hg b a) fun _ => ih _

theorem forM {g : α → Result PUnit} (hg : ∀ a, (g a).FindsScopes) (as : List α) :
    FindsScopes (as.forM g) := by
  induction as with
  | nil => exact ok _
  | cons a as ih => exact .bind (hg a) fun _ => ih

end Result.FindsScopes

open Result

/-! ### Passes -/

namespace Graph

variable (g : Graph)

theorem mapInstrsM_findsScopes {f : Instr → Result Instr} (hf : ∀ i, (f i).FindsScopes) :
    (g.mapInstrsM f).FindsScopes :=
  .foldlM (fun _ _ => .bind (.mapM hf _) fun _ => .ok _) _ _

theorem resolveLabels_findsScopes : g.resolveLabels.FindsScopes := by
  refine g.mapInstrsM_findsScopes fun i => ?_
  unfold resolveInstr
  split
  · split
    · exact .ok _
    · exact .fault nofun
  · exact .ok _

theorem walkInstrs_findsScopes (is : List Instr) (stack : HandlerStack) :
    (walkInstrs stack is).FindsScopes := by
  induction is generalizing stack with
  | nil => exact .ok _
  | cons i is ih =>
    unfold walkInstrs
    dsimp only
    split
    · exact .bind (.require _) fun _ => .bind (ih _) fun _ => .ok _
    · split
      · split
        · exact .fault nofun
        · exact .bind (ih _) fun _ => .ok _
      · split
        · exact .bind (.require _) fun _ => .bind (ih _) fun _ => .ok _
        · exact .bind (ih _) fun _ => .ok _

theorem labelHandlers_findsScopes : g.labelHandlers.FindsScopes := by
  have hwalk : ∀ (fuel : Nat) work seen (g : Graph), (walkBlocks fuel work seen g).FindsScopes := by
    intro fuel
    induction fuel with
    | zero => exact fun _ _ _ => .ok _
    | succ fuel ih =>
      intro work seen g
      cases work with
      | nil => exact .ok _
      | cons x work => exact .bind (walkInstrs_findsScopes _ _) fun _ => ih _ _ _
  exact hwalk _ _ _ _

theorem check_findsScopes : g.check.FindsScopes := by
  refine .forM (fun id => ?_) _
  generalize (g.block id).instrs = is
  induction is with
  | nil => exact .ok _
  | cons i is ih =>
    unfold checkInstrs
    split
    · exact .fault nofun
    · split
      · exact .fault nofun
      · exact ih

theorem dropEmpty_findsScopes : g.dropEmpty.FindsScopes := by
  unfold dropEmpty
  split
  · exact .ok _
  · refine mapInstrsM_findsScopes _ fun i => ?_
    exact .bind (.mapM_option (fun _ => .require _) _) fun _ =>
      .bind (.mapM_option (fun _ => .require _) _) fun _ => .ok _

theorem tidy_findsScopes (fuel : Nat) : (tidy fuel g).FindsScopes := by
  induction fuel generalizing g with
  | zero => exact .ok _
  | succ fuel ih =>
    refine .bind (dropEmpty_findsScopes _) fun _ => ?_
    split
    · exact ih _
    · exact .ok _

end Graph

namespace Cursor

variable (c : Cursor) (i : Instr) (ahead : List Instr)

theorem constantAt_findsScopes (constants : List Constant) (index : Nat) :
    (constantAt constants index).FindsScopes :=
  .require _

theorem afterConstant_findsScopes (index : Nat) : (c.afterConstant index i ahead).FindsScopes := by
  unfold afterConstant
  split
  · exact .ok _
  · split
    · exact .bind (constantAt_findsScopes _ _) fun _ => .ok _
    · refine .bind (constantAt_findsScopes _ _) fun _ => ?_
      split <;> exact .ok _
    · refine .bind (constantAt_findsScopes _ _) fun _ => ?_
      split
      · split
        · split <;> exact .ok _
        · exact .ok _
      · exact .ok _
    · exact .ok _
    · exact .ok _

theorem foldTuple_findsScopes (n : Nat) : (c.foldTuple n i ahead).FindsScopes := by
  unfold foldTuple
  dsimp only
  split
  · refine .bind (.mapM (fun _ => constantAt_findsScopes _ _) _) fun values =>
      .bind ?_ fun _ => .ok _
    unfold indexOfConstant
    split
    · exact .ok _
    · split
      · exact .exceed _
      · exact .ok _
  · exact .ok _

theorem visit_findsScopes : (c.visit i ahead).FindsScopes := by
  unfold visit
  split
  · exact c.afterConstant_findsScopes _ _ _
  · unfold atTuple
    split
    · split
      · exact .ok _
      · split
        · exact .ok _
        · exact c.foldTuple_findsScopes _ _ _
    · exact c.foldTuple_findsScopes _ _ _
  all_goals exact .ok _

end Cursor

namespace Graph

variable (g : Graph)

theorem simplifyFrom_findsScopes (id : BlockId) (fuel threads : Nat) (pushed : Option Nat)
    (c : Cursor) : (g.simplifyFrom id fuel threads pushed c).FindsScopes := by
  induction fuel generalizing threads pushed c with
  | zero => exact .ok _
  | succ fuel ih =>
    unfold simplifyFrom
    split
    · exact .ok _
    · split
      · exact .bind (c.afterConstant_findsScopes _ _ _) fun _ => ih _ _ _
      · dsimp only
        split
        · split <;> exact ih _ _ _
        · exact .bind (c.visit_findsScopes _ _) fun _ => ih _ _ _

theorem optimizeOnce_findsScopes (config : PassConfig) (constants : List Constant) :
    (g.optimizeOnce config constants).FindsScopes := by
  refine .bind g.check_findsScopes fun _ => .bind g.dropEmpty_findsScopes fun g => .bind ?_ fun _ =>
    .bind (dropEmpty_findsScopes _) fun g => .bind (g.tidy_findsScopes _) fun _ => .ok _
  exact .foldlM (fun _ _ => .bind (simplifyFrom_findsScopes _ _ _ _ _ _) fun _ => .ok _) _ _

theorem optimize_findsScopes (config : PassConfig) (constants : List Constant) :
    (g.optimize config constants).FindsScopes := by
  unfold optimize
  generalize maxRounds = rounds
  induction rounds generalizing g constants with
  | zero => exact .ok _
  | succ rounds ih =>
    refine .bind (g.optimizeOnce_findsScopes config constants) fun _ => ?_
    dsimp only
    split
    · exact .ok _
    · exact ih _ _

theorem dropUnusedConstants_findsScopes (constants : List Constant) :
    (g.dropUnusedConstants constants).FindsScopes := by
  unfold dropUnusedConstants
  split
  · exact .ok _
  · refine .bind (.foldlM (fun used i => ?_) _ _) fun _ => .ok _
    unfold Instr.markConstant
    split
    · split
      · exact .ok _
      · exact .fault nofun
    · exact .ok _

theorem optimizeUnit_findsScopes (config : PassConfig) (shape : UnitShape)
    (constants : List Constant) : (g.optimizeUnit config shape constants).FindsScopes := by
  refine .bind g.resolveLabels_findsScopes fun g => .bind (labelHandlers_findsScopes _) fun g => ?_
  have hlast : ∀ (g : Graph) (constants : List Constant), FindsScopes do
      let r ← g.dropUnusedConstants constants
      return (r.1.resolveLines shape.firstLine, r.2) :=
    fun g constants => .bind (g.dropUnusedConstants_findsScopes constants) fun _ => .ok _
  dsimp only
  split
  · exact .bind (g.optimize_findsScopes _ _) fun _ =>
      .bind (optimize_findsScopes _ _ _) fun _ => hlast _ _
  · refine .bind ?_ fun _ => .bind (.ok _) fun _ => hlast _ _
    exact .bind g.dropEmpty_findsScopes fun _ => .bind (dropEmpty_findsScopes _) fun _ => .ok _

/-! ### Depths -/

theorem stackEffect_findsScopes (op : Operation) (arg : Nat) (jump : Bool) :
    (op.stackEffect arg jump).FindsScopes := by
  cases op with
  | pseudo op => exact .ok _
  | real op =>
    show (op.stackEffect arg jump).FindsScopes
    unfold Opcode.stackEffect
    split
    · unfold Opcode.effectOf
      split <;> try exact .ok _
      · split
        · exact .ok _
        · exact .fault nofun
      · split
        · exact .ok _
        · exact .fault nofun
    · exact .fault nofun

theorem enter_findsScopes (s : DepthSearch) (id : BlockId) (depth : Int) :
    (s.enter id depth).FindsScopes := by
  unfold DepthSearch.enter
  split
  · exact .fault nofun
  · split
    · exact .fault nofun
    · split
      · exact .ok _
      · exact .fault nofun
    · exact .ok _

theorem follow_findsScopes (id : BlockId) (s : DepthSearch) (depth : Int) (is : List Instr) :
    (s.follow id depth is).FindsScopes := by
  induction is generalizing s depth with
  | nil => exact .ok _
  | cons i is ih =>
    refine .bind (stackEffect_findsScopes _ _ _) fun _ => ?_
    dsimp only
    split
    · exact .fault nofun
    · refine .bind ?_ fun _ => ?_
      · unfold DepthSearch.branch
        split
        · exact .bind (stackEffect_findsScopes _ _ _) fun _ => enter_findsScopes _ _ _
        · exact .ok _
      · split
        · exact .exceed _
        · split
          · exact ih _ _
          · exact .ok _

theorem stackDepths_findsScopes (flags : CodeFlags) : (g.stackDepths flags).FindsScopes := by
  have hfollow : ∀ fuel s, (g.followBlocks fuel s).FindsScopes := by
    intro fuel
    induction fuel with
    | zero => exact fun _ => .ok _
    | succ fuel ih =>
      intro s
      unfold followBlocks
      split
      · exact .ok _
      · refine .bind (follow_findsScopes _ _ _ _) fun _ => .bind ?_ fun _ => ih _
        unfold DepthSearch.leave
        split
        · exact enter_findsScopes _ _ _
        · exact .ok _
  exact .bind (enter_findsScopes _ _ _) fun _ => hfollow _ _

end Graph

/-! ### Assembly -/

theorem directInstr_findsScopes (seen : List BlockId) (i : Instr) :
    (directInstr seen i).FindsScopes := by
  unfold directInstr
  split
  · exact .ok _
  · split
    · exact .ok _
    · dsimp only
      split
      case h_5 => exact .fault nofun
      all_goals exact .ok _

theorem directFrom_findsScopes (ids seen : List BlockId) (g : Graph) :
    (g.directFrom seen ids).FindsScopes := by
  induction ids generalizing seen g with
  | nil => exact .ok _
  | cons id ids ih => exact .bind (.mapM (directInstr_findsScopes _) _) fun _ => ih _ _

theorem relocateCell_findsScopes (slots : Array Nat) (i : Instr) :
    (relocateCell slots i).FindsScopes := by
  unfold relocateCell
  split
  · split
    · exact .ok _
    · exact .fault nofun
  · exact .ok _

theorem lowerPseudo_findsScopes (i : Instr) : (lowerPseudo i).FindsScopes := by
  unfold lowerPseudo
  split <;> first | exact .ok _ | exact .fault nofun

namespace Layout

theorem aim_findsScopes (offsets : List (BlockId × Nat)) (stop : Nat) (i : Instr) :
    (aim offsets stop i).FindsScopes := by
  unfold aim
  split
  · split
    · refine .bind ?_ fun _ => .ok _
      unfold distance
      split <;> split <;> first | exact .ok _ | exact .fault nofun
    · exact .ok _
  · exact .ok _

theorem aimAll_findsScopes (offsets : List (BlockId × Nat)) (start : Nat) (is : List Instr) :
    (aimAll offsets start is).FindsScopes := by
  induction is generalizing start with
  | nil => exact .ok _
  | cons i is ih => exact .bind (aim_findsScopes _ _ _) fun _ => .bind (ih _) fun _ => .ok _

theorem resolve_findsScopes (l : Layout) : l.resolve.FindsScopes := by
  unfold resolve
  generalize 3 * l.instrs.length + 2 = fuel
  induction fuel generalizing l with
  | zero => exact .fault nofun
  | succ fuel ih =>
    refine .bind (.mapM (fun _ => .bind (aimAll_findsScopes _ _ _) fun _ => .ok _) _) fun _ => ?_
    split
    · exact .ok _
    · exact ih _

theorem encode_findsScopes (l : Layout) : l.encode.FindsScopes := by
  refine .bind (.mapM (fun i => ?_) _) fun _ => .ok _
  unfold encodeInstr
  split
  · exact .fault nofun
  · split
    · exact .ok _
    · exact .exceed _

end Layout

theorem arrange_findsScopes (g : Graph) (f : Frame) : (arrange g f).FindsScopes := by
  refine .bind (directFrom_findsScopes _ _ _) fun g => .bind (g.stackDepths_findsScopes _) fun _ =>
    .bind (g.mapInstrsM_findsScopes (relocateCell_findsScopes _)) fun g => .bind ?_ fun _ =>
    .bind (Layout.resolve_findsScopes _) fun _ => .ok _
  exact .foldlM (fun _ _ => .bind (.mapM lowerPseudo_findsScopes _) fun _ => .ok _) _ _

namespace LocationTable

theorem entry_findsScopes (w : Writer) (loc : Location) (units : Nat) :
    (w.entry loc units).FindsScopes := by
  refine .bind ?_ fun _ => .ok _
  unfold Entry.ofLocation
  dsimp only
  split_ifs <;> first | exact .ok _ | exact .fault nofun

theorem entries_findsScopes (w : Writer) (loc : Location) (lengths : List Nat) :
    (w.entries loc lengths).2.FindsScopes := by
  induction lengths generalizing w with
  | nil => exact .ok _
  | cons units lengths ih =>
    unfold Writer.entries
    split
    · exact ih _
    next e he =>
      have hentry := entry_findsScopes w loc units
      rw [he] at hentry
      exact hentry.cast

theorem write_findsScopes (firstLine : Int) (runs : List (Location × Nat)) :
    (write firstLine runs).FindsScopes := by
  have hall : ∀ w : Writer, (w.pushAll runs).2.FindsScopes := by
    induction runs with
    | nil => exact fun _ => .ok _
    | cons run runs ih =>
      intro w
      obtain ⟨loc, units⟩ := run
      unfold Writer.pushAll
      split
      next => exact ih _
      next e he =>
        have hpush := entries_findsScopes w loc (chunks units)
        rw [show w.entries loc (chunks units) = _ from he] at hpush
        exact hpush
  exact .bind (hall _) fun _ => .ok _

end LocationTable

namespace HandlerSites

variable (s : HandlerSites)

theorem close_findsScopes (opened : Option (BlockId × Nat)) (stop : Nat) :
    (s.close opened stop).FindsScopes := by
  unfold close
  split
  · refine .bind (.bind (.require _) fun _ => ?_) fun _ => .ok _
    dsimp only
    split_ifs <;> first | exact .ok _ | exact .fault nofun
  · exact .ok _

theorem rangesFrom_findsScopes (opened : Option (BlockId × Nat)) (offset : Nat)
    (is : List Instr) : (s.rangesFrom opened offset is).FindsScopes := by
  induction is generalizing opened offset with
  | nil => exact s.close_findsScopes _ _
  | cons i is ih =>
    unfold rangesFrom
    dsimp only
    split
    · exact ih _ _
    · refine .bind (s.close_findsScopes _ _) fun _ => ?_
      split
      · split
        · exact .bind (.ok _) fun _ => .bind (ih _ _) fun _ => .ok _
        · exact .bind (.fault nofun) fun _ => .bind (ih _ _) fun _ => .ok _
      · exact .bind (.ok _) fun _ => .bind (ih _ _) fun _ => .ok _

end HandlerSites

namespace HandlerTable

theorem writeNat_findsScopes (n : Nat) : (writeNat n).FindsScopes := by
  unfold writeNat
  split
  · exact .ok _
  · exact .exceed _

theorem write_findsScopes (ranges : List HandlerRange) : (write ranges).FindsScopes := by
  induction ranges with
  | nil => exact .ok _
  | cons r ranges ih =>
    refine .bind ?_ fun _ => .bind ih fun _ => .ok _
    unfold writeRange
    split
    · exact .fault nofun
    · split
      · exact .exceed _
      · exact .bind (writeNat_findsScopes _) fun _ => .bind (writeNat_findsScopes _) fun _ =>
          .bind (writeNat_findsScopes _) fun _ => .bind (writeNat_findsScopes _) fun _ => .ok _

end HandlerTable

theorem assemble_findsScopes (g : Graph) (constants : List Constant) (f : Frame) :
    (assemble g constants f).FindsScopes := by
  unfold assemble
  split
  · exact .exceed _
  · split
    · exact .exceed _
    · exact .bind (arrange_findsScopes g f) fun a =>
        .bind a.layout.encode_findsScopes fun _ =>
        .bind (LocationTable.write_findsScopes _ _) fun _ =>
        .bind (HandlerSites.rangesFrom_findsScopes _ _ _ _) fun _ =>
        .bind (HandlerTable.write_findsScopes _) fun _ => .ok _

end Bytecode
