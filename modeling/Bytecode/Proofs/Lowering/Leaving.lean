import Bytecode.Proofs.Lowering.Values

/-!
# Blocks around a statement

Each block around a statement has put its values on the stack and opened its handlers, and leaving
it takes just these away. So a way out of some of them gets to the shape outside.
-/

namespace Bytecode

open Gen Yields Nat

variable {S : Setting} {K K' : List (Label × Shape)} {U : List Label} {loc : Location}
  {blocks : OpenBlocks} {bottom inner : Shape}

def Shape.above (s : Shape) (n : Nat) : Shape := ⟨s.height + n, s.handlers⟩

/-- The block leads from the shape outside of it to the shape inside. The labels of a loop have
the shapes in which they are entered, and a final body leaves the stack as it was. -/
inductive OpenBlock.Opens (S : Setting) (K : List (Label × Shape)) :
    OpenBlock → Shape → Shape → Prop where
  | whileLoop {head exit : Label} {s : Shape} (hhead : (head, s) ∈ K) (hexit : (exit, s) ∈ K) :
      Opens S K (.whileLoop head exit) s s
  | forLoop {head exit : Label} {h : Nat} {H : List OpenHandler} (hhead : (head, ⟨h + 1, H⟩) ∈ K)
      (hexit : (exit, ⟨h, H⟩) ∈ K) : Opens S K (.forLoop head exit) ⟨h, H⟩ ⟨h + 1, H⟩
  | tryExcept {l : Label} {h : Nat} {H : List OpenHandler} :
      Opens S K .tryExcept ⟨h, H⟩ ⟨h, ⟨l, h, false⟩ :: H⟩
  | tryFinally {leave leaveKeeping : Gen Unit} {l : Label} {h : Nat} {H : List OpenHandler}
      (hleave : ∀ K' U, K ⊆ K' → leave.Leads S ⟨⟨h, H⟩, K', U⟩ ⟨⟨h, H⟩, K', U⟩)
      (hkeep : ∀ K' U, K ⊆ K' → leaveKeeping.Leads S ⟨⟨h + 1, H⟩, K', U⟩ ⟨⟨h + 1, H⟩, K', U⟩) :
      Opens S K (.tryFinally leave leaveKeeping) ⟨h, H⟩ ⟨h, ⟨l, h, false⟩ :: H⟩
  | finalBody {l : Label} {h : Nat} {H : List OpenHandler} :
      Opens S K .finalBody ⟨h, H⟩ ⟨h + 2, ⟨l, h + 1, true⟩ :: H⟩
  | withBlock {l : Label} {loc : Location} {h : Nat} {H : List OpenHandler} :
      Opens S K (.withBlock loc) ⟨h, H⟩ ⟨h + 1, ⟨l, h + 1, true⟩ :: H⟩
  | asyncWith {l : Label} {loc : Location} {h : Nat} {H : List OpenHandler} :
      Opens S K (.asyncWith loc) ⟨h, H⟩ ⟨h + 1, ⟨l, h + 1, true⟩ :: H⟩
  | namedHandler {name : String} {l cleanup : Label} {h : Nat} {H : List OpenHandler}
      (hname : S.Names name) :
      Opens S K (.handler (some name)) ⟨h, H⟩
        ⟨h + 1, ⟨cleanup, h + 1, true⟩ :: ⟨l, h + 1, true⟩ :: H⟩
  | plainHandler {l : Label} {h : Nat} {H : List OpenHandler} :
      Opens S K (.handler none) ⟨h, H⟩ ⟨h + 1, ⟨l, h + 1, true⟩ :: H⟩
  | value {h : Nat} {H : List OpenHandler} : Opens S K .value ⟨h, H⟩ ⟨h + 1, H⟩
  | handlers {s : Shape} : Opens S K .handlers s s

/-- The blocks lead from the shape at the bottom of the unit to the shape inside of them. -/
inductive OpenBlocks.Around (S : Setting) (bottom : Shape) (K : List (Label × Shape)) :
    OpenBlocks → Shape → Prop where
  | nil (h : lowest bottom.handlers ≤ bottom.height) : Around S bottom K [] bottom
  | cons {b : OpenBlock} {blocks : OpenBlocks} {outer inner : Shape}
      (h : Around S bottom K blocks outer) (hb : b.Opens S K outer inner) :
      Around S bottom K (b :: blocks) inner

namespace OpenBlock

variable {b : OpenBlock} {outer inner : Shape}

theorem Opens.mono (h : b.Opens S K outer inner) (hK : K ⊆ K') : b.Opens S K' outer inner := by
  cases h with
  | whileLoop hhead hexit => exact .whileLoop (hK hhead) (hK hexit)
  | forLoop hhead hexit => exact .forLoop (hK hhead) (hK hexit)
  | tryFinally hleave hkeep =>
    exact .tryFinally (fun K' U h => hleave K' U (List.Subset.trans hK h)) fun K' U h =>
      hkeep K' U (List.Subset.trans hK h)
  | namedHandler hname => exact .namedHandler hname
  | _ => constructor

theorem Opens.covers (h : b.Opens S K outer inner) (hlow : lowest outer.handlers ≤ outer.height) :
    lowest inner.handlers ≤ inner.height := by
  cases h
  case whileLoop | handlers => exact hlow
  case forLoop | value => exact le_succ_of_le hlow
  all_goals simp

/-! ### Ways out -/

theorem leads_liftKept (keep : Bool) {n : Nat} {H : List OpenHandler}
    (hn : lowest H ≤ n + (1 + keep.toNat)) : (liftKept keep loc).Leads S
      ⟨⟨n + (1 + keep.toNat), H⟩, K, U⟩ ⟨⟨n + (1 + keep.toNat), H⟩, K, U⟩ := by
  cases keep with
  | false => exact .pure
  | true => exact leads_emit rfl hn

theorem turns_popTop (n : Nat) : (emit .popTop 0 loc).Turns S (1 + n) n := by
  have hpop : (emit .popTop 0 loc).Turns S 1 0 := turns_emit rfl
  simpa using hpop.above n

theorem turns_popExcept (n : Nat) : (emit .popExcept 0 loc).Turns S (1 + n) n := by
  have hpop : (emit .popExcept 0 loc).Turns S 1 0 := turns_emit rfl
  simpa using hpop.above n

theorem turns_callExit : (callExit loc).Turns S 1 1 := by
  apply (turns_emitNone.push 1).seq
  apply (turns_emitNone.push 2).seq
  apply (turns_emitNone.push 3).seq
  exact turns_emit rfl

/-- Leaving a block gets from the shape inside of it to the shape outside, also with a value to keep
on top of the stack. -/
theorem Opens.leads_leave (h : b.Opens S K outer inner)
    (hlow : lowest outer.handlers ≤ outer.height) (keep : Bool) (loc : Location) :
    (b.leave keep loc).Leads S ⟨inner.above keep.toNat, K, U⟩ ⟨outer.above keep.toNat, K, U⟩ := by
  have hclose {n : Nat} {l : Label} {kp : Bool} {H : List OpenHandler} (m : Nat) (loc : Location) :
      (Gen.popBlock loc).Leads S ⟨⟨n + m, ⟨l, n, kp⟩ :: H⟩, K, U⟩ ⟨⟨n + m, H⟩, K, U⟩ :=
    leads_popBlock (le_add_right n m)
  cases h with
  | whileLoop | handlers => exact .pure
  | @forLoop head exit n H | @value n H =>
    rw [Shape.above, Shape.above, add_assoc]
    apply (leads_liftKept keep (le_add_right_of_le hlow)).seq
    exact ((turns_popTop keep.toNat).leads hlow).seq (pure rfl)
  | tryExcept => exact (hclose _ loc).seq (pure rfl)
  | @tryFinally leave leaveKeeping l n H hleave hkeep =>
    apply (hclose keep.toNat loc).seq
    cases keep with
    | false => exact (hleave K U (List.Subset.refl K)).seq (pure rfl)
    | true => exact (hkeep K U (List.Subset.refl K)).seq (pure rfl)
  | @finalBody l n H =>
    have hcover : lowest (⟨l, n + 1, true⟩ :: H) ≤ n + 1 := le_refl _
    rw [Shape.above, Shape.above, add_assoc (n + 1) 1]
    apply (leads_liftKept keep (le_add_right_of_le hcover)).seq
    apply ((turns_popTop keep.toNat).leads hcover).seq
    rw [add_assoc n]
    -- What was handled before is below the value to keep, and the handler counts on it.
    apply (leads_liftKept keep (by simp only [lowest_cons]; omega)).seq
    apply (leads_popBlock (by simp only; omega)).seq
    exact ((turns_popExcept keep.toNat).leads hlow).seq (pure rfl)
  | @withBlock l withLoc n H =>
    apply (hclose keep.toNat withLoc).seq
    rw [add_assoc]
    apply (leads_liftKept keep (le_add_right_of_le hlow)).seq
    apply ((turns_callExit.above keep.toNat).leads hlow).seq
    exact ((turns_popTop keep.toNat).leads hlow).seq (pure rfl)
  | @asyncWith l withLoc n H =>
    apply (hclose keep.toNat withLoc).seq
    rw [add_assoc]
    apply (leads_liftKept keep (le_add_right_of_le hlow)).seq
    apply ((turns_callExit.above keep.toNat).leads hlow).seq
    apply (((turns_awaitValue 2).above keep.toNat).leads hlow).seq
    exact ((turns_popTop keep.toNat).leads hlow).seq (pure rfl)
  | @namedHandler name l cleanup n H hname =>
    rw [Shape.above, Shape.above, add_assoc]
    apply (leads_popBlock (by simp only; omega)).seq
    apply (leads_liftKept keep (by simp only [lowest_cons]; omega)).seq
    apply (leads_popBlock (by simp only; omega)).seq
    apply ((turns_popExcept keep.toNat).leads hlow).seq
    exact (((turns_unbindName hname).push keep.toNat).leads hlow).seq (pure rfl)
  | @plainHandler l n H =>
    rw [Shape.above, Shape.above, add_assoc]
    apply (leads_liftKept keep (by simp only [lowest_cons]; omega)).seq
    apply (leads_popBlock (by simp only; omega)).seq
    exact ((turns_popExcept keep.toNat).leads hlow).seq (pure rfl)

end OpenBlock

namespace OpenBlocks.Around

variable {bottom inner : Shape} {blocks : OpenBlocks}

variable (h : blocks.Around S bottom K inner)
include h

theorem mono (hK : K ⊆ K' := by intro x hx; simp [hx]) : blocks.Around S bottom K' inner := by
  induction h with
  | nil h => exact .nil h
  | cons _ hb ih => exact .cons ih (hb.mono hK)

theorem covers : lowest inner.handlers ≤ inner.height := by
  induction h with
  | nil h => exact h
  | cons _ hb ih => exact hb.covers ih

theorem leads_leaveAll (keep : Bool) (loc : Location) :
    (leaveAll keep loc blocks).Leads S
      ⟨inner.above keep.toNat, K, U⟩ ⟨bottom.above keep.toNat, K, U⟩ := by
  induction h generalizing loc with
  | nil => exact .pure
  | cons h hb ih => exact (hb.leads_leave h.covers keep loc).bind fun loc => ih loc

theorem yields_leaveToLoop (outside : SourceFault) (origin loc : Location) :
    (leaveToLoop outside origin loc blocks).Yields S ⟨inner, K, U⟩ fun x q =>
      ∃ outer inner, x.1.block.Opens S K outer inner ∧ lowest outer.handlers ≤ outer.height ∧
        (x.1.head, inner) ∈ K ∧ (x.1.exit, outer) ∈ K ∧ q = ⟨inner, K, U⟩ := by
  induction h generalizing loc with
  | nil => exact (fails_refuse _ _).yields
  | @cons b blocks outer inner h hb ih =>
    have hout : (b.leave false loc).Leads S ⟨inner, K, U⟩ ⟨outer, K, U⟩ :=
      hb.leads_leave h.covers false loc
    cases hb with
    | whileLoop hhead hexit =>
      exact pure ⟨_, _, .whileLoop hhead hexit, h.covers, hhead, hexit, rfl⟩
    | forLoop hhead hexit =>
      exact pure ⟨_, _, .forLoop hhead hexit, h.covers, hhead, hexit, rfl⟩
    | _ => exact hout.bind fun loc => ih loc

end OpenBlocks.Around

theorem OpenBlocks.yields_enter {β : Type} {b : OpenBlock} {f : OpenBlocks → Gen β} {p : Place}
    {post : β → Place → Prop} (hf : (f (b :: blocks)).Yields S p post) :
    (blocks.enter b >>= f).Yields S p post := by
  unfold enter
  split
  · exact (fails_exceed _).bind.yields
  · exact hf

/-! ### Statements that leave blocks -/

/-- Among whatever blocks the statement stands, its code keeps the stack and the handlers as they
are, or does not go on. -/
def StmtCode.Sound (S : Setting) (c : StmtCode) : Prop :=
  ∀ bottom K U blocks inner, OpenBlocks.Around S bottom K blocks inner →
    (c blocks).Leads S ⟨inner, K, U⟩ ⟨inner, K, U⟩

theorem StmtCode.Sound.leads {c : StmtCode} (h : c.Sound S)
    (hblocks : blocks.Around S bottom K inner) :
    (c blocks).Leads S ⟨inner, K, U⟩ ⟨inner, K, U⟩ :=
  h bottom K U blocks inner hblocks

theorem StmtCode.Sound.ofTurns {m : Gen Unit} (h : m.Turns S 0 0) : StmtCode.Sound S fun _ => m :=
  fun _ _ _ _ _ hblocks => h.leads hblocks.covers

theorem sound_runAll {cs : List StmtCode} (h : ∀ c ∈ cs, c.Sound S) : (runAll cs).Sound S :=
  fun _ _ _ _ _ hblocks => leads_forM fun c hc => (h c hc).leads hblocks

theorem sound_break : (lowerBreak loc).Sound S := by
  intro bottom K U blocks inner hblocks
  have hnop : (emit .nop 0 loc).Turns S 0 0 := turns_emit rfl
  apply (hnop.leads hblocks.covers).seq
  apply bind (hblocks.yields_leaveToLoop _ _ _)
  rintro ⟨l, after⟩ _ ⟨outer, inside, hopens, hlow, -, hexit, rfl⟩
  have hout : (l.block.leave false after).Leads S ⟨inside, K, U⟩ ⟨outer, K, U⟩ :=
    hopens.leads_leave hlow false after
  exact hout.bind fun after => leads_leap _ hlow hexit

theorem sound_continue : (lowerContinue loc).Sound S := by
  intro bottom K U blocks inner hblocks
  have hnop : (emit .nop 0 loc).Turns S 0 0 := turns_emit rfl
  apply (hnop.leads hblocks.covers).seq
  apply bind (hblocks.yields_leaveToLoop _ _ _)
  rintro ⟨l, after⟩ _ ⟨outer, inside, hopens, hlow, hhead, -, rfl⟩
  exact leads_leap _ (hopens.covers hlow) hhead

theorem OpenBlocks.Around.covers_bottom (h : blocks.Around S bottom K inner) :
    lowest bottom.handlers ≤ bottom.height := by
  induction h with
  | nil h => exact h
  | cons _ _ ih => exact ih

theorem ends_return : (emit .returnValue 0 loc).Ends S 1 := ends_emit rfl rfl

theorem OpenBlocks.Around.leads_return (h : blocks.Around S bottom K inner) (keep : Bool)
    {finish : Location → Gen Unit} (hfinish : ∀ loc, (finish loc).Ends S keep.toNat)
    (loc : Location) :
    (leaveAll keep loc blocks >>= finish).Leads S ⟨inner.above keep.toNat, K, U⟩ ⟨inner, K, U⟩ :=
  (h.leads_leaveAll keep loc).bind fun after => (hfinish after).leads h.covers_bottom inner

theorem sound_return {value : Option ExprCode} (h : ∀ c ∈ value, c.Sound S) :
    (lowerReturn loc value).Sound S := by
  intro bottom K U blocks inner hblocks
  have hconst (c : Constant) : (do
      let after ← leaveAll false loc blocks
      emitConst c after
      emit .returnValue 0 after : Gen Unit).Leads S ⟨inner, K, U⟩ ⟨inner, K, U⟩ :=
    hblocks.leads_return false (fun _ => (turns_emitConst c).ends fun _ => ends_return) loc
  have hnop (loc : Location) (n : Nat) :
      (emit .nop 0 loc).Leads S ⟨inner.above n, K, U⟩ ⟨inner.above n, K, U⟩ :=
    ((turns_emit (n := 0) (k := 0) rfl).push n).leads hblocks.covers
  unfold lowerReturn
  refine still_info.bind fun u => ?_
  dsimp only
  split
  · exact (fails_refuse _ _).bind.yields
  cases value with
  | none => exact (hnop loc 0).seq (hconst .none)
  | some value =>
    dsimp only
    split
    · exact (fails_refuse _ _).bind.yields
    cases value.constant? with
    | none =>
      have hload : value.load.Leads S ⟨inner, K, U⟩ ⟨inner.above 1, K, U⟩ :=
        (h value rfl).load.leads hblocks.covers
      have hkept : (do
          let after ← leaveAll true loc blocks
          emit .returnValue 0 after : Gen Unit).Leads S ⟨inner.above 1, K, U⟩ ⟨inner, K, U⟩ :=
        hblocks.leads_return true (fun _ => ends_return) loc
      apply hload.seq
      split
      · exact (hnop loc 1).seq hkept
      · exact hkept
    | some c =>
      apply (hnop value.loc 0).seq
      split
      · exact (hnop loc 0).seq (hconst c)
      · exact hconst c

end Bytecode
