import Bytecode.Lowering.Protect
import Bytecode.Proofs.Lowering.Leaving

/-!
# Protected regions

A handler finds the stack as it was where the region began, with what a fault pushes on it. All ways
out of a region end in the shape in which it began.
-/

namespace Bytecode

open Gen OpenBlock OpenBlocks Leads Nat

variable {S : Setting} {h : Nat} {H : List OpenHandler} {K : List (Label × Shape)} {U : List Label}
  {loc : Location} {bottom shape : Shape} {blocks : OpenBlocks} {post : Unit → Place → Prop}
  {cleanup : Label}

theorem ends_emitReraise (arg : Nat) : (emit .reraise arg loc).Ends S 1 := ends_emit rfl rfl

/-- A fault while another is handled: what was handled before is restored. -/
theorem ends_reraise : (reraise loc).Ends S 3 := by
  refine Turns.ends (turns_copy (by decide)) fun _ => ?_
  refine Turns.ends (turns_popExcept 3) fun _ => ?_
  exact (ends_emitReraise 1).above 2

/-! ### Handlers -/

/-- The shape in which a fault is handled: what was handled before and the fault are on the stack,
and there is a handler for faults meanwhile. -/
abbrev handling (l : Label) (h : Nat) (H : List OpenHandler) : Shape :=
  ⟨h + 2, ⟨l, h + 1, true⟩ :: H⟩

section

variable {body : StmtCode} {done l : Label}

section

variable (hbody : body.Sound S) (hblocks : blocks.Around S bottom K ⟨h, H⟩)
  (hdone : (done, ⟨h, H⟩) ∈ K)
include hbody hblocks hdone

/-- The handler leaves the choice among handlers, with its values and its cleanup. -/
theorem leads_lowerNamedHandler {name : String} (hname : S.Names name) (loc : Location)
    (shape : Shape) :
    (lowerNamedHandler name body done loc blocks).Leads S ⟨handling l h H, K, U⟩ ⟨shape, K, U⟩ := by
  have hlow : lowest H ≤ h := hblocks.covers
  have hlow' : lowest (⟨l, h + 1, true⟩ :: H) ≤ h + 1 := le_refl _
  apply label ⟨h + 3, ⟨l, h + 1, true⟩ :: H⟩
  intro cleanup hcleanup
  apply label ⟨h + 1, ⟨cleanup, h + 1, true⟩ :: ⟨l, h + 1, true⟩ :: H⟩
  intro start hstart
  apply ((turns_storeName hname).leads hlow').seq
  apply (leads_setupCleanup hlow').seq
  apply (leads_bindFirst hstart).seq
  apply yields_enter
  apply (hbody.leads (hblocks.mono.cons (.namedHandler hname))).seq
  apply (leads_popBlock).seq
  apply (leads_popBlock).seq
  apply ((turns_popExcept 0).leads hlow).seq
  apply ((turns_unbindName hname).leads hlow).seq
  apply (leads_leap ⟨h + 3, ⟨l, h + 1, true⟩ :: H⟩ hlow (by simp [hdone])).seq
  apply (leads_bindFirst hcleanup).seq
  apply (((turns_unbindName hname).push 2).leads hlow').seq
  exact ((ends_emitReraise 1).above 1).leads hlow' shape

theorem leads_lowerPlainHandler (loc : Location) (shape : Shape) :
    (lowerPlainHandler body done loc blocks).Leads S ⟨handling l h H, K, U⟩ ⟨shape, K, U⟩ := by
  have hlow : lowest H ≤ h := hblocks.covers
  have hlow' : lowest (⟨l, h + 1, true⟩ :: H) ≤ h + 1 := le_refl _
  apply label ⟨h + 1, ⟨l, h + 1, true⟩ :: H⟩
  intro start hstart
  apply ((turns_popTop 0).leads hlow').seq
  apply (leads_bindFirst hstart).seq
  apply yields_enter
  apply (hbody.leads (hblocks.mono.cons .plainHandler)).seq
  apply (leads_popBlock).seq
  apply ((turns_popExcept 0).leads hlow).seq
  exact leads_leap shape hlow (by simp [hdone])

end

theorem leads_handlerTest {type : Option ExprCode} (htype : ∀ c ∈ type, c.Sound S) {next : Label}
    (hnext : (next, handling l h H) ∈ K) :
    (type.forM fun type => do
      type.load
      emit .checkExcMatch 0 loc
      emitJump PseudoOp.popJumpIfFalse next loc : Gen Unit).Leads S
      ⟨handling l h H, K, U⟩ ⟨handling l h H, K, U⟩ := by
  have hlow : lowest (⟨l, h + 1, true⟩ :: H) ≤ h + 1 := le_refl _
  cases type with
  | none => exact .pure
  | some type =>
    apply (((htype type rfl).load.push 1).leads hlow).seq
    apply ((turns_emit (n := 2) (k := 2) rfl).leads hlow).seq
    exact leads_jump (n := 1) (k := 0) (j := 0) rfl (le_succ_of_le hlow) (fun _ => rfl) hnext

structure HandlerCode.Sound (S : Setting) (x : HandlerCode) : Prop where
  type : ∀ c ∈ x.type, c.Sound S
  name : ∀ n ∈ x.name, S.Names n
  body : x.body.Sound S

/-- Each handler is tested with the fault on top of the stack, and it is there for the next one. -/
theorem leads_lowerHandlers {handlers : List HandlerCode}
    (hhandlers : ∀ x ∈ handlers, HandlerCode.Sound S x)
    (hblocks : blocks.Around S bottom K ⟨h, H⟩) (hdone : (done, ⟨h, H⟩) ∈ K) :
    (lowerHandlers done handlers blocks).Leads S ⟨handling l h H, K, U⟩ ⟨handling l h H, K, U⟩ := by
  induction handlers generalizing K with
  | nil => exact .pure
  | cons x rest ih =>
    obtain ⟨⟨htype, hname, hbody⟩, hrest⟩ := List.forall_mem_cons.mp hhandlers
    unfold lowerHandlers
    dsimp only
    split_ifs
    · exact (fails_refuse _ _).bind.yields
    apply label (handling l h H)
    intro next hnext
    have hblocks' := hblocks.mono (List.subset_cons_self (next, handling l h H) K)
    have hdone' := List.mem_cons_of_mem (next, handling l h H) hdone
    have hnext : (do
        bindLabel next
        lowerHandlers done rest blocks : Gen Unit).Leads S
        ⟨handling l h H, (next, handling l h H) :: K, next :: U⟩
        ⟨handling l h H, (next, handling l h H) :: K, U⟩ :=
      (leads_bindFirst hnext).seq (ih hrest hblocks' hdone')
    apply (leads_handlerTest htype (List.mem_cons_self ..)).seq
    split
    · next name heq =>
      exact (leads_lowerNamedHandler hbody hblocks' hdone' (hname name heq) _ _).seq hnext
    · exact (leads_lowerPlainHandler hbody hblocks' hdone' _ _).seq hnext

end

/-- The way from a fault to where it is handled. -/
theorem yields_catch {onFault : Label} {rest : Gen Unit} (hlow : lowest H ≤ h)
    (hfault : (onFault, ⟨h + 1, H⟩) ∈ K) (hcleanup : (cleanup, ⟨h + 3, H⟩) ∈ K)
    (hown : S.Owns onFault) (hrest : rest.Yields S ⟨handling cleanup h H, K, cleanup :: U⟩ post) :
    (do
      bindLabel onFault
      emitJump PseudoOp.setupCleanup cleanup loc
      emit .pushExcInfo 0 loc
      rest : Gen Unit).Yields S ⟨⟨h + 1, H⟩, K, onFault :: cleanup :: U⟩ post := by
  apply (leads_bindFirst hown hfault).seq
  apply (leads_setupCleanup (le_succ_of_le hlow) hcleanup).seq
  exact (leads_emit (b := h) (n := 1) (k := 2) rfl (by simp)).seq hrest

theorem yields_uncaught {rest : Gen Unit} (hlow : lowest H ≤ h)
    (hcleanup : (cleanup, ⟨h + 3, H⟩) ∈ K) (hown : S.Owns cleanup) (shape : Shape)
    (hrest : rest.Yields S ⟨shape, K, U⟩ post) :
    (do
      emit .reraise 0 .none
      bindLabel cleanup
      reraise .none
      rest : Gen Unit).Yields S ⟨handling cleanup h H, K, cleanup :: U⟩ post := by
  have hlow' : lowest (⟨cleanup, h + 1, true⟩ :: H) ≤ h + 1 := le_refl _
  apply ((ends_emitReraise 0).leads hlow' ⟨h + 3, H⟩).seq
  apply (leads_bindFirst hown hcleanup).seq
  exact (ends_reraise.leads hlow shape).seq hrest

section

variable {body orElse region finalBody : StmtCode} {handlers : List HandlerCode}

theorem leads_lowerGuarded {block : OpenBlock} {after : StmtCode} {handle : Label → StmtCode}
    (hblocks : blocks.Around S bottom K ⟨h, H⟩) (hregion : region.Sound S) (hafter : after.Sound S)
    (hblock : ∀ {K'} {l : Label}, K ⊆ K' → block.Opens S K' ⟨h, H⟩ ⟨h, ⟨l, h, false⟩ :: H⟩)
    (hhandle : ∀ {K' U done cleanup}, K ⊆ K' → (done, ⟨h, H⟩) ∈ K' → (handle done blocks).Leads S
      ⟨handling cleanup h H, K', U⟩ ⟨handling cleanup h H, K', U⟩) :
    (lowerGuarded loc block region after handle blocks).Leads S ⟨⟨h, H⟩, K, U⟩ ⟨⟨h, H⟩, K, U⟩ := by
  have hlow : lowest H ≤ h := hblocks.covers
  apply labels (fun onFault => ⟨h, ⟨onFault, h, false⟩ :: H⟩) ⟨h + 1, H⟩
  intro start onFault hstart honFault
  apply label ⟨h, H⟩
  intro done hdone
  apply label ⟨h + 3, H⟩
  intro cleanup hcleanup
  have hK : K ⊆ (cleanup, ⟨h + 3, H⟩) :: (done, ⟨h, H⟩) :: (onFault, ⟨h + 1, H⟩) ::
      (start, ⟨h, ⟨onFault, h, false⟩ :: H⟩) :: K :=
    fun x hx => by simp [hx]
  apply (leads_setupFinally hlow).seq
  apply (leads_bindLabel hstart (onFault :: cleanup :: done :: U)).seq
  apply yields_enter
  apply (hregion.leads ((hblocks.mono hK).cons (hblock hK))).seq
  apply (leads_popBlock).seq
  apply (hafter.leads (hblocks.mono hK)).seq
  apply (leads_leap ⟨h + 1, H⟩ hlow).seq
  apply yields_catch hlow (by simp) (by simp) honFault
  apply (hhandle hK (by simp)).seq
  apply yields_uncaught hlow (by simp) hcleanup ⟨h, H⟩
  exact leads_bindFirst hdone

theorem sound_tryExcept (hbody : body.Sound S)
    (hhandlers : ∀ x ∈ handlers, HandlerCode.Sound S x) (helse : orElse.Sound S) :
    (lowerTryExcept loc body handlers orElse).Sound S := by
  rintro bottom K U blocks ⟨h, H⟩ hblocks
  refine leads_lowerGuarded hblocks hbody helse (fun _ => .tryExcept) fun hK hdone => ?_
  exact yields_enter (leads_lowerHandlers hhandlers ((hblocks.mono hK).cons .handlers) hdone)

/-- The final body is generated for every way out, and each time keeps the stack as it is. -/
theorem sound_tryFinally (hregion : region.Sound S) (hfinal : finalBody.Sound S) :
    (lowerTryFinally loc region finalBody).Sound S := by
  rintro bottom K U blocks ⟨h, H⟩ hblocks
  unfold lowerTryFinally
  refine leads_lowerGuarded hblocks hregion hfinal (fun hK => ?_) fun hK _ => ?_
  · exact .tryFinally (fun K' U hK' => hfinal.leads ((hblocks.mono hK).mono hK')) fun K' U hK' =>
      yields_enter (hfinal.leads (((hblocks.mono hK).mono hK').cons .value))
  · exact yields_enter (hfinal.leads ((hblocks.mono hK).cons .finalBody))

theorem sound_try (hbody : body.Sound S)
    (hhandlers : ∀ x ∈ handlers, HandlerCode.Sound S x) (helse : orElse.Sound S)
    {finalBody : Option StmtCode} (hfinal : ∀ c ∈ finalBody, c.Sound S) :
    (lowerTry loc body handlers orElse finalBody).Sound S := by
  have hexcept : (lowerTryExcept loc body handlers orElse).Sound S :=
    sound_tryExcept hbody hhandlers helse
  cases finalBody with
  | none => exact hexcept
  | some finalBody =>
    refine sound_tryFinally ?_ (hfinal _ rfl)
    split
    · exact hbody
    · exact hexcept

end

/-! ### Context managers -/

/-- The manager's exit, with what a fault has pushed, is below the answer whether the fault is
dealt with. -/
theorem leads_finishWith (hlow : lowest H ≤ h) (hown : S.Owns cleanup)
    (hcleanup : (cleanup, ⟨h + 5, H⟩) ∈ K) : (finishWith cleanup).Leads S
      ⟨⟨h + 5, ⟨cleanup, h + 3, true⟩ :: H⟩, K, cleanup :: U⟩ ⟨⟨h, H⟩, K, U⟩ := by
  have hlow' : lowest (⟨cleanup, h + 3, true⟩ :: H) ≤ h + 3 := le_refl _
  apply label ⟨h + 4, ⟨cleanup, h + 3, true⟩ :: H⟩
  intro suppress hsuppress
  apply label ⟨h, H⟩
  intro exit hexit
  apply (leads_jump (b := h + 4) (n := 1) (k := 0) (j := 0) rfl (le_succ_of_le hlow')
    fun _ => rfl).seq
  apply ((ends_emitReraise 2).leads hlow' ⟨h + 4, ⟨cleanup, h + 3, true⟩ :: H⟩).seq
  apply (leads_bindLabel hsuppress (exit :: cleanup :: U)).seq
  apply ((turns_popTop 0).leads hlow').seq
  apply (leads_popBlock).seq
  apply ((turns_popExcept 2).leads hlow).seq
  apply ((turns_popTop 1).leads hlow).seq
  apply ((turns_popTop 0).leads hlow).seq
  apply (leads_leap ⟨h + 5, H⟩ hlow).seq
  apply (leads_bindLabel hown (exit :: U) (by simp [hcleanup]) (by simp +contextual)).seq
  apply ((ends_reraise.above 2).leads hlow ⟨h, H⟩).seq
  exact leads_bindFirst hexit

theorem turns_storeContext {target : Option ExprCode} (h : ∀ c ∈ target, c.Sound S) :
    (storeContext target loc).Turns S 1 0 := by
  cases target with
  | none => exact turns_emit rfl
  | some target => exact (h target rfl).store

section

variable {body : StmtCode} {items : List (WithItem ExprCode)}

variable (hbody : body.Sound S)
  (hitems : ∀ x ∈ items, x.context.Sound S ∧ ∀ c ∈ x.target, c.Sound S)
include hbody hitems

omit hitems in
theorem sound_managed {itemLoc popLoc : Location} {before : Opcode} {block : OpenBlock}
    {settle : Nat → Gen Unit} {item : WithItem ExprCode} (hcontext : item.context.Sound S)
    (htarget : ∀ c ∈ item.target, c.Sound S) (hbefore : before.plainArity? 0 = some (1, 2))
    (hblock : ∀ {K h H} {l : Label}, block.Opens S K ⟨h, H⟩ ⟨h + 1, ⟨l, h + 1, true⟩ :: H⟩)
    (hsettle : ∀ k, (settle k).Turns S 1 1) :
    (lowerManaged loc itemLoc popLoc before block settle item body).Sound S := by
  rintro bottom K U blocks ⟨h, H⟩ hblocks
  have hlow : lowest H ≤ h := hblocks.covers
  apply labels (fun onFault => ⟨h + 2, ⟨onFault, h + 1, true⟩ :: H⟩) ⟨h + 3, H⟩
  intro start onFault hstart honFault
  apply label ⟨h, H⟩
  intro exit hexit
  apply label ⟨h + 5, H⟩
  intro cleanup hcleanup
  apply (hcontext.load.leads hlow).seq
  apply ((turns_emit hbefore).leads hlow).seq
  apply (((hsettle 1).over 1).leads hlow).seq
  apply (leads_setupWith (b := h + 1) (le_succ_of_le hlow)).seq
  apply (leads_bindLabel hstart (onFault :: cleanup :: exit :: U)).seq
  apply yields_enter
  apply ((turns_storeContext htarget).leads (by simp)).seq
  apply (hbody.leads (hblocks.mono.cons hblock)).seq
  apply (leads_popBlock).seq
  apply (turns_callExit.leads hlow).seq
  apply ((hsettle 2).leads hlow).seq
  apply ((turns_popTop 0).leads hlow).seq
  apply (leads_leap ⟨h + 3, H⟩ hlow).seq
  apply yields_catch (h := h + 2) (le_add_right_of_le hlow) (by simp) (by simp) honFault
  apply (leads_emit (b := h) (n := 4) (k := 5) rfl (by simp)).seq
  apply ((hsettle 2).leads (b := h + 4) (by simp)).seq
  apply (leads_finishWith hlow hcleanup (by simp)).seq
  exact leads_bindFirst hexit

theorem sound_withItems (isAsync : Bool) : (lowerWithItems loc isAsync body items).Sound S := by
  induction items with
  | nil => exact hbody
  | cons item rest ih =>
    obtain ⟨⟨hcontext, htarget⟩, hrest⟩ := List.forall_mem_cons.mp hitems
    rw [lowerWithItems]
    split
    · exact sound_managed (ih hrest) hcontext htarget rfl .asyncWith turns_awaitValue
    · exact sound_managed (ih hrest) hcontext htarget rfl .withBlock fun _ => turns_pure ()

theorem sound_with (isAsync : Bool) : (lowerWith loc items body isAsync).Sound S := by
  intro bottom K U blocks inner hblocks
  cases isAsync with
  | false =>
    simp only [lowerWith, Bool.false_eq_true, reduceIte]
    split
    · exact (fails_fault _).bind.yields
    · exact (sound_withItems hbody hitems false).leads hblocks
  | true =>
    simp only [lowerWith, reduceIte]
    refine still_kind.bind fun kind => ?_
    split
    · exact (fails_refuse _ _).bind.yields
    split
    · exact (fails_fault _).bind.yields
    · exact (sound_withItems hbody hitems true).leads hblocks

end

end Bytecode
