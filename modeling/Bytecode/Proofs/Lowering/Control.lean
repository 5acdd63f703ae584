import Bytecode.Lowering.Control
import Bytecode.Proofs.Lowering.Alternatives
import Bytecode.Proofs.Lowering.Leaving

/-!
# Branches and loops

The branches of a statement meet in the shape in which they part, and a loop comes back to its head
in the shape of the head.
-/

namespace Bytecode

open List Gen OpenBlock Leads

variable {S : Setting} {loc : Location} {test target iter : ExprCode} {body orElse : StmtCode}
  {cases : List CaseCode}

theorem sound_branch (htest : test.Sound S) (hbody : body.Sound S) {orElse : Option StmtCode}
    (helse : ∀ c ∈ orElse, c.Sound S) : (lowerBranch test body orElse).Sound S := by
  rintro bottom K U blocks ⟨h, H⟩ hblocks
  have hlow : lowest H ≤ h := hblocks.covers
  apply label ⟨h, H⟩
  intro done hdone
  cases orElse with
  | none =>
    apply ((htest.jumpIf done false).leads hlow).seq
    apply (hbody.leads hblocks.mono).seq
    exact leads_bindFirst hdone
  | some orElse =>
    apply label ⟨h, H⟩
    intro next hnext
    apply ((htest.jumpIf next false).leads hlow).seq
    apply (hbody.leads hblocks.mono).seq
    apply (leads_leap ⟨h, H⟩ hlow).seq
    apply (leads_bindFirst hnext).seq
    apply ((helse orElse rfl).leads hblocks.mono).seq
    exact leads_bindFirst hdone

theorem sound_while (htest : test.Sound S) (hbody : body.Sound S) (helse : orElse.Sound S) :
    (lowerWhile test body orElse).Sound S := by
  rintro bottom K U blocks ⟨h, H⟩ hblocks
  have hlow : lowest H ≤ h := hblocks.covers
  apply label ⟨h, H⟩
  intro head hhead
  apply label ⟨h, H⟩
  intro after hafter
  apply label ⟨h, H⟩
  intro exit hexit
  apply (leads_bindLabel hhead (exit :: after :: U)).seq
  apply OpenBlocks.yields_enter
  apply ((htest.jumpIf after false).leads hlow).seq
  apply (hbody.leads (hblocks.mono.cons (.whileLoop (by simp) (by simp)))).seq
  apply (leads_leap ⟨h, H⟩ hlow).seq
  apply (leads_bindLabel hafter (exit :: U)).seq
  apply (helse.leads hblocks.mono).seq
  exact leads_bindFirst hexit

/-- The iterator is on the stack inside of the loop, and the end of the iteration takes it off. -/
theorem sound_for (htarget : target.Sound S) (hiter : iter.Sound S) (hbody : body.Sound S)
    (helse : orElse.Sound S) : (lowerFor loc target iter body orElse).Sound S := by
  rintro bottom K U blocks ⟨h, H⟩ hblocks
  have hlow : lowest H ≤ h := hblocks.covers
  have hlow₁ : lowest H ≤ h + 1 := Nat.le_succ_of_le hlow
  apply label ⟨h + 1, H⟩
  intro head hhead
  apply label ⟨h, H⟩
  intro after hafter
  apply label ⟨h, H⟩
  intro exit hexit
  apply OpenBlocks.yields_enter
  apply (hiter.load.leads hlow).seq
  apply ((turns_emit (n := 1) (k := 1) rfl).leads hlow).seq
  apply (leads_bindLabel hhead (exit :: after :: U)).seq
  apply (leads_jump (j := 0) rfl hlow fun _ => rfl).seq
  apply (htarget.store.leads hlow₁).seq
  apply (hbody.leads (hblocks.mono.cons (.forLoop (by simp) (by simp)))).seq
  apply (leads_leap ⟨h, H⟩ hlow₁).seq
  apply (leads_bindLabel hafter (exit :: U)).seq
  apply (helse.leads hblocks.mono).seq
  exact leads_bindFirst hexit

theorem sound_asyncFor (htarget : target.Sound S) (hiter : iter.Sound S) (hbody : body.Sound S)
    (helse : orElse.Sound S) : (lowerAsyncFor loc target iter body orElse).Sound S := by
  rintro bottom K U blocks ⟨h, H⟩ hblocks
  have hlow : lowest H ≤ h := hblocks.covers
  have hlow₁ : lowest H ≤ h + 1 := Nat.le_succ_of_le hlow
  unfold lowerAsyncFor
  refine still_kind.bind fun kind => ?_
  dsimp only
  split
  · exact (fails_refuse _ _).bind.yields
  apply label ⟨h + 1, H⟩
  intro head hhead
  apply label ⟨h + 2, H⟩
  intro atEnd hatEnd
  apply label ⟨h, H⟩
  intro exit hexit
  apply (hiter.load.leads hlow).seq
  apply ((turns_emit (n := 1) (k := 1) rfl).leads hlow).seq
  apply (leads_bindLabel hhead (exit :: atEnd :: U)).seq
  apply OpenBlocks.yields_enter
  apply (leads_awaitNext hlow).seq
  apply (htarget.store.leads hlow₁).seq
  apply (hbody.leads (hblocks.mono.cons (.forLoop (by simp) (by simp)))).seq
  apply (leads_leap ⟨h + 2, H⟩ hlow₁).seq
  apply (leads_bindLabel hatEnd (exit :: U)).seq
  apply ((turns_emit (n := 2) (k := 0) rfl).leads hlow).seq
  apply (helse.leads hblocks.mono).seq
  exact leads_bindFirst hexit

/-! ### Matching -/

section

open PatternState

variable {h : Nat} {H : List OpenHandler} {K : List (Label × Shape)} {U : List Label}
  {bottom : Shape} {blocks : OpenBlocks} {done : Label} {c : CaseCode}

structure CaseCode.Sound (S : Setting) (c : CaseCode) : Prop where
  pattern : c.pattern.Sound S
  guard : ∀ e ∈ c.guard, e.Sound S
  body : c.body.Sound S

theorem leads_storeCaptures {p : PatternState} {b : Nat} (hp : p.Owned S) (hb : lowest H ≤ b)
    (honTop : p.onTop = 0) (loc : Location) :
    (p.stores.forM (storeName · loc)).Leads S (p.place b H K U 0)
      ⟨⟨b, H⟩, exits b H p.failures ++ K, p.failures ++ U⟩ := by
  have hstores : (p.stores.forM (storeName · loc)).Turns S p.stores.length 0 :=
    turns_forM_take fun name hname => turns_storeName (hp.stores name hname)
  have hplace : p.place b H K U 0 =
      ⟨⟨b + p.stores.length, H⟩, exits b H p.failures ++ K, p.failures ++ U⟩ := by
    simp only [place, honTop, Nat.add_zero]
  rw [hplace]
  exact hstores.leads hb

section

variable (hc : CaseCode.Sound S c) (hblocks : blocks.Around S bottom K ⟨h, H⟩)
  (hdone : (done, ⟨h, H⟩) ∈ K)
include hc hblocks hdone

/-- The body of a case runs without the subject; a case that fails comes out behind it, with the
subject if there is another case. -/
theorem leads_caseBody (isLast : Bool) {p : PatternState} (hp : p.Owned S) :
    (do
      if !isLast then emit .popTop 0 c.pattern.loc
      c.body blocks
      emitJump PseudoOp.jump done .none
      p.emitFailures c.pattern.loc : Gen Unit).Leads S
      ⟨⟨h + (!isLast).toNat, H⟩, exits (h + (!isLast).toNat) H p.failures ++ K, p.failures ++ U⟩
      ⟨⟨h + (!isLast).toNat, H⟩, K, U⟩ := by
  have hlow : lowest H ≤ h := hblocks.covers
  have hblocks' := hblocks.mono (subset_append_right (exits (h + (!isLast).toNat) H p.failures) K)
  have hrest : (do
      c.body blocks
      emitJump PseudoOp.jump done .none
      p.emitFailures c.pattern.loc : Gen Unit).Leads S
      ⟨⟨h, H⟩, exits (h + (!isLast).toNat) H p.failures ++ K, p.failures ++ U⟩
      ⟨⟨h + (!isLast).toNat, H⟩, K, U⟩ := by
    apply (hc.body.leads hblocks').seq
    apply (leads_leap _ hlow (mem_append_right _ hdone)).seq
    exact leads_emitFailures hp (Nat.le_add_right_of_le hlow)
  cases isLast with
  | true => exact hrest
  | false => exact ((turns_popTop 0).leads hlow).seq hrest

theorem leads_testCase (isLast irrefutable : Bool) :
    (testCase done c isLast irrefutable blocks).Leads S
      ⟨⟨h + (!isLast).toNat + 1, H⟩, K, U⟩ ⟨⟨h + (!isLast).toNat, H⟩, K, U⟩ := by
  have hlow : lowest H ≤ h + (!isLast).toNat := Nat.le_add_right_of_le hblocks.covers
  apply Yields.bind (hc.pattern _ {} .empty _ H K U hlow)
  rintro p _ ⟨honTop, hp, rfl⟩
  apply (leads_storeCaptures hp hlow honTop c.pattern.loc).seq
  cases hguard : c.guard with
  | none => exact leads_caseBody hc hblocks hdone isLast hp
  | some guard =>
    apply Yields.bind (yields_failure hp 0)
    rintro ⟨p', failed⟩ _ ⟨-, -, hp', hfailed, rfl⟩
    have hjump := ((hc.guard guard hguard).jumpIf failed false).leads (U := p'.failures ++ U)
      hlow (mem_append_left K hfailed)
    exact hjump.seq (leads_caseBody hc hblocks hdone isLast hp')

/-- A case takes the subject off if it is the last one, and leaves it for the next otherwise. -/
theorem leads_lowerCase (isLast irrefutable : Bool) :
    (lowerCase done c isLast irrefutable blocks).Leads S ⟨⟨h + 1, H⟩, K, U⟩
      ⟨⟨h + (!isLast).toNat, H⟩, K, U⟩ := by
  have htest := leads_testCase (U := U) hc hblocks hdone isLast irrefutable
  cases isLast with
  | true => exact htest
  | false => exact ((turns_copy (Nat.le_refl 1)).leads hblocks.covers).seq htest

end

theorem leads_lowerCases (h₁ : ∀ c ∈ cases, CaseCode.Sound S c)
    (hblocks : blocks.Around S bottom K ⟨h, H⟩) (hdone : (done, ⟨h, H⟩) ∈ K) (lastMatchesAll : Bool)
    (hne : cases ≠ []) :
    (lowerCases done lastMatchesAll cases blocks).Leads S ⟨⟨h + 1, H⟩, K, U⟩ ⟨⟨h, H⟩, K, U⟩ := by
  induction cases with
  | nil => exact absurd rfl hne
  | cons c rest ih =>
    obtain ⟨hc, hrest⟩ := forall_mem_cons.mp h₁
    have hcase := leads_lowerCase (U := U) hc hblocks hdone rest.isEmpty
      (rest.isEmpty && lastMatchesAll)
    apply hcase.seq
    cases rest with
    | nil => exact Yields.pure rfl
    | cons c' rest => exact ih hrest (cons_ne_nil _ _)

theorem leads_lowerDefault (hc : CaseCode.Sound S c) (hblocks : blocks.Around S bottom K ⟨h, H⟩)
    (hdone : (done, ⟨h, H⟩) ∈ K) :
    (lowerDefault done c blocks).Leads S ⟨⟨h, H⟩, K, U⟩ ⟨⟨h, H⟩, K, U⟩ := by
  have hlow : lowest H ≤ h := hblocks.covers
  apply ((turns_emit (n := 0) (k := 0) rfl).leads hlow).seq
  cases hguard : c.guard with
  | none => exact hc.body.leads hblocks
  | some guard =>
    exact (((hc.guard guard hguard).jumpIf done false).leads hlow hdone).seq (hc.body.leads hblocks)

end

theorem sound_match {subject : ExprCode} (hsubject : subject.Sound S)
    (hcases : ∀ c ∈ cases, CaseCode.Sound S c) : (lowerMatch subject cases).Sound S := by
  rintro bottom K U blocks ⟨h, H⟩ hblocks
  apply (hsubject.load.leads hblocks.covers).seq
  cases hlast : cases.getLast? with
  | none => exact (fails_fault _).yields
  | some last =>
    apply label ⟨h, H⟩
    intro done hdone
    have hblocks' := hblocks.mono (subset_cons_self (done, ⟨h, H⟩) K)
    have hbind : (bindLabel done).Leads S ⟨⟨h, H⟩, (done, ⟨h, H⟩) :: K, done :: U⟩
        ⟨⟨h, H⟩, (done, ⟨h, H⟩) :: K, U⟩ := leads_bindFirst hdone
    split_ifs with hdefault
    · have hfirst : ∀ c ∈ cases.dropLast, CaseCode.Sound S c :=
        fun c hc => hcases c (dropLast_subset cases hc)
      have hne : cases.dropLast ≠ [] := by
        have hlength : 1 < cases.length := by simpa using (Bool.and_eq_true_iff.mp hdefault).2
        rw [← length_pos_iff, length_dropLast]
        omega
      apply (leads_lowerCases hfirst hblocks' (by simp) false hne).seq
      exact (leads_lowerDefault (hcases last (mem_of_getLast? hlast)) hblocks' (by simp)).seq hbind
    · have hne : cases ≠ [] := by
        rintro rfl
        cases hlast
      exact (leads_lowerCases hcases hblocks' (by simp) true hne).seq hbind

end Bytecode
