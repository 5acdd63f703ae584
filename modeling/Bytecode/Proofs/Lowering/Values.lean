import Bytecode.Lowering.Call
import Bytecode.Lowering.Condition
import Bytecode.Proofs.Lowering.Names

/-!
# Values and targets

The code of an expression is sound if a load pushes one value, a store takes one, and a jump takes
and leaves none. The code of every kind of expression is sound if the code of its parts is.
-/

namespace Bytecode

variable {K : List (Label × Shape)} {H : List OpenHandler} {U : List Label} {b : Nat}

open List Gen

/-- The generated code jumps to the label or goes on, and leaves the stack as it finds it. -/
def Gen.Jumps (S : Setting) (m : Gen Unit) (target : Label) : Prop :=
  ∀ b H K U, lowest H ≤ b → (target, ⟨b, H⟩) ∈ K → m.Leads S ⟨⟨b, H⟩, K, U⟩ ⟨⟨b, H⟩, K, U⟩

theorem Gen.Jumps.leads {S : Setting} {m : Gen Unit} {target : Label} (h : m.Jumps S target)
    (hb : lowest H ≤ b) (hl : (target, ⟨b, H⟩) ∈ K := by simp) :
    m.Leads S ⟨⟨b, H⟩, K, U⟩ ⟨⟨b, H⟩, K, U⟩ :=
  h b H K U hb hl

/-- Every use of the expression takes and leaves what it should. -/
structure ExprCode.Sound (S : Setting) (c : ExprCode) : Prop where
  load : c.load.Turns S 0 1
  store : c.store.Turns S 1 0
  delete : c.delete.Turns S 0 0
  jumpIf : ∀ target cond, (c.jumpIf target cond).Jumps S target
  starred : ∀ s ∈ c.starred, s.load.Turns S 0 1 ∧ s.store.Turns S 1 0
  loadMethod : ∀ m ∈ c.loadMethod, m.Turns S 0 2
  loadBounds : ∀ m ∈ c.loadBounds, m.Turns S 0 2
  loadOnly : ∀ m ∈ c.loadOnly, m.Turns S 0 1
  update : ∀ u ∈ c.update, ∃ k, u.read.Turns S 0 (k + 1) ∧ u.write.Turns S (k + 1) 0
  probeIndex : c.probeIndex.Turns S 0 0
  probeTarget : ∀ m ∈ c.probeTarget, m.Turns S 0 0

namespace ExprCode

variable {S : Setting} {c : ExprCode} {cs : List ExprCode} {source : Expr ScopeId} {load : Gen Unit}
  {loc : Location}

theorem turns_dropping (h : load.Turns S 0 1) : (dropping load loc).Turns S 0 0 :=
  h.seq (turns_emit rfl)

theorem Sound.ofLoad (h : load.Turns S 0 1) : (ofLoad source load).Sound S where
  load := h
  store := (fails_fault _).turns
  delete := (fails_fault _).turns
  jumpIf target cond := by
    intro b H K U hb hl
    exact (h.leads hb).seq (leads_jump (jumpArity?_popJumpIf cond) hb (fun _ => rfl) hl)
  starred _ h := by cases h
  loadMethod _ h := by cases h
  loadBounds _ h := by cases h
  loadOnly _ h := by cases h
  update _ h := by cases h
  probeIndex := turns_dropping h
  probeTarget _ h := by cases h

theorem Sound.loadUnderStar (h : c.Sound S) : c.loadUnderStar.Turns S 0 1 := by
  unfold ExprCode.loadUnderStar
  cases hc : c.starred with
  | none => exact h.load
  | some s => exact (h.starred s hc).1

theorem Sound.storeUnderStar (h : c.Sound S) : c.storeUnderStar.Turns S 1 0 := by
  unfold ExprCode.storeUnderStar
  cases hc : c.starred with
  | none => exact h.store
  | some s => exact (h.starred s hc).2

theorem Sound.probe (h : c.Sound S) : c.probe.Turns S 0 0 := turns_dropping h.load

end ExprCode

/-! ### Several expressions -/

section

variable {S : Setting} {c : ExprCode} {cs : List ExprCode} {o : Option ExprCode}
  {loc : Location} {n : Nat}

theorem turns_loadOptional (h : ∀ c ∈ o, c.Sound S) : (loadOptional o loc).Turns S 0 1 := by
  cases o with
  | none => exact turns_emitNone
  | some c => exact (h c rfl).load

theorem turns_loadAll (h : ∀ c ∈ cs, c.Sound S) : (loadAll cs).Turns S n (n + cs.length) := by
  have hload := turns_forM_push (n := n) fun c hc => (h c hc).load
  rwa [Nat.one_mul] at hload

theorem turns_forM_option {α : Type} {o : Option α} {f : α → Gen Unit}
    (h : ∀ a ∈ o, (f a).Turns S n n) : (o.forM f).Turns S n n := by
  cases o with
  | none => exact turns_pure ()
  | some a => exact h a rfl

end

/-! ### Names and attributes -/

section

variable {S : Setting} {source : Expr ScopeId} {value index : ExprCode} {loc : Location}
  {items : List ExprCode} {load : Gen Unit}

open ExprCode

theorem sound_nameCode {id : String} (h : S.Names id) : (nameCode loc id).Sound S :=
  { Sound.ofLoad (turns_loadName h) with
    store := turns_storeName h
    delete := turns_deleteName h
    update := fun u hu => by
      cases hu
      exact ⟨0, turns_loadName h, turns_storeName h⟩ }

theorem sound_memberCode (hvalue : value.Sound S) (attr : String) :
    (memberCode source value attr).Sound S :=
  { Sound.ofLoad (hvalue.load.seq (turns_emitAttr attr false)) with
    store := (hvalue.load.above 1).seq (turns_emitFullName fun _ => rfl)
    delete := hvalue.load.seq (turns_emitFullName fun _ => rfl)
    loadMethod := fun m hm => by
      cases hm
      exact hvalue.load.seq (turns_emitAttr attr true)
    update := fun u hu => by
      cases hu
      refine ⟨1, ?_, ?_⟩
      · exact hvalue.load.seq ((turns_emit rfl).seq ((turns_emitAttr attr false).above 1))
      · exact (turns_emit rfl).seq (turns_emitFullName fun _ => rfl)
    probeTarget := fun m hm => by
      cases hm
      exact hvalue.probe }

/-! ### Subscripts -/

theorem still_warnSubscript : (warnSubscript value index loc).Still S fun _ _ _ => True := by
  unfold warnSubscript
  split
  · exact .pure _
  · extract_lets rest
    have hrest (u : PUnit) : (rest u).Still S fun _ _ _ => True := by
      unfold rest
      split
      · exact .pure _
      · split_ifs
        · exact still_warn _ _
        · exact .pure _
    split_ifs
    · exact (still_warn _ _).andThen hrest
    · exact hrest ()

theorem sound_updateSubscript (hvalue : value.Sound S) (hindex : index.Sound S) :
    ∃ k, (updateSubscript value index loc).read.Turns S 0 (k + 1) ∧
      (updateSubscript value index loc).write.Turns S (k + 1) 0 := by
  unfold updateSubscript
  cases hbounds : index.loadBounds with
  | some loadBounds =>
    refine ⟨3, ?_, ?_⟩
    · apply hvalue.load.seq
      apply ((hindex.loadBounds _ hbounds).above 1).seq
      apply (turns_emit rfl).seq
      apply ((turns_emit (n := 3) (k := 4) rfl).above 1).seq
      apply ((turns_emit (n := 3) (k := 4) rfl).above 2).seq
      exact (turns_emit (n := 3) (k := 1) rfl).above 3
    · apply (turns_emit rfl).seq
      apply ((turns_emit (n := 3) (k := 3) rfl).above 1).seq
      apply ((turns_emit (n := 2) (k := 2) rfl).above 2).seq
      exact turns_emit rfl
  | none =>
    refine ⟨2, ?_, ?_⟩
    · apply hvalue.load.seq
      apply (hindex.load.above 1).seq
      apply (turns_emit rfl).seq
      apply ((turns_emit (n := 2) (k := 3) rfl).above 1).seq
      exact (turns_emit (n := 2) (k := 1) rfl).above 2
    · apply (turns_emit rfl).seq
      apply ((turns_emit (n := 2) (k := 2) rfl).above 1).seq
      exact turns_emit rfl

/-- Where there are bounds, an access takes one value more. -/
theorem turns_accessPart (hvalue : value.Sound S) (hindex : index.Sound S)
    {bySlice byIndex : Opcode} {n k : Nat} (hslice : bySlice.plainArity? 0 = some (n + 3, k))
    (hat : byIndex.plainArity? 0 = some (n + 2, k)) :
    (accessPart value index bySlice byIndex loc).Turns S n k := by
  apply (hvalue.load.push n).seq
  cases hbounds : index.loadBounds with
  | some loadBounds =>
    apply ((hindex.loadBounds _ hbounds).push (n + 1)).seq
    exact turns_emit hslice
  | none =>
    apply (hindex.load.push (n + 1)).seq
    exact turns_emit hat

theorem sound_subscriptCode (hvalue : value.Sound S) (hindex : index.Sound S) :
    (subscriptCode source value index).Sound S := by
  have hload : (subscriptCode source value index).load.Turns S 0 1 :=
    still_warnSubscript.turns.seq (turns_accessPart hvalue hindex rfl rfl)
  exact { Sound.ofLoad hload with
    store := turns_accessPart hvalue hindex rfl rfl
    delete := hvalue.load.seq ((hindex.load.above 1).seq (turns_emit rfl))
    update := fun u hu => by
      cases hu
      exact sound_updateSubscript hvalue hindex
    probeTarget := fun m hm => by
      cases hm
      exact hvalue.probe.seq hindex.probeIndex }

theorem sound_sliceCode (hload : load.Turns S 0 1) {lower upper step : Option ExprCode}
    (hlower : ∀ c ∈ lower, c.Sound S) (hupper : ∀ c ∈ upper, c.Sound S)
    (hstep : ∀ c ∈ step, c.Sound S) : (sliceCode source load lower upper step).Sound S :=
  { Sound.ofLoad hload with
    loadBounds := fun m hm => by
      obtain ⟨-, hm⟩ := Option.ite_none_right_eq_some.mp hm
      cases hm
      exact (turns_loadOptional hlower).seq ((turns_loadOptional hupper).above 1)
    probeIndex := by
      apply (turns_forM_option fun c hc => (hlower c hc).probe).seq
      apply (turns_forM_option fun c hc => (hupper c hc).probe).seq
      exact turns_forM_option fun c hc => (hstep c hc).probe }

/-! ### Sequences -/

theorem lt_length_of_mem_positions {α : Type} {p : α → Bool} {xs : List α} {i : Nat}
    (h : i ∈ positions p xs) : i < xs.length := by
  obtain ⟨⟨x, j⟩, hx, rfl⟩ := mem_map.mp h
  exact (mem_zipIdx' (mem_filter.mp hx).1).1

/-- A value is unpacked to so many values before a star and after, and the rest between them. -/
theorem arity?_unpackEx {size star : Nat} (hstar : star < size)
    (hlimits : ¬(maxBeforeStar ≤ star || maxAfterStar ≤ size - star - 1)) :
    Opcode.unpackEx.plainArity? (unpackOperand star (size - star - 1)) = some (1, size) := by
  have hlow : star < 256 := by
    rw [Bool.or_eq_true, decide_eq_true_eq, not_or] at hlimits
    exact Nat.lt_of_not_le hlimits.1
  have hcount : (star + 0x100 * (size - star - 1)) % 256 +
      (star + 0x100 * (size - star - 1)) / 256 + 1 = size := by omega
  exact congrArg (fun n => some (1, n)) hcount

theorem turns_storeSequence (h : ∀ c ∈ items, c.Sound S) :
    (storeSequence items loc).Turns S 1 0 := by
  have hstore : (items.forM (·.storeUnderStar)).Turns S items.length 0 :=
    turns_forM_take fun c hc => (h c hc).storeUnderStar
  unfold storeSequence
  dsimp only
  split
  · exact (turns_emit rfl).seq hstore
  · rename_i star more hpositions
    have hstar : star < items.length :=
      lt_length_of_mem_positions (hpositions ▸ mem_cons_self ..)
    split_ifs with hlimits
    · exact (fails_refuse _ _).bind.turns
    · cases more with
      | cons second more => exact (fails_refuse _ _).bind.turns
      | nil =>
        have harity := arity?_unpackEx hstar hlimits
        exact (turns_emit harity).seq hstore

theorem sound_sequenceCode (hload : load.Turns S 0 1) (h : ∀ c ∈ items, c.Sound S) :
    (sequenceCode source load items).Sound S :=
  { Sound.ofLoad hload with
    store := turns_storeSequence h
    delete := turns_forM fun c hc => (h c hc).delete
    loadOnly := fun m hm => by
      dsimp only [sequenceCode] at hm
      split at hm
      · obtain ⟨-, hm⟩ := Option.ite_none_left_eq_some.mp hm
        cases hm
        exact (h _ (mem_singleton_self _)).load
      · cases hm }

theorem sound_tupleCode (hload : load.Turns S 0 1) (h : ∀ c ∈ items, c.Sound S) :
    (tupleCode source load items).Sound S :=
  { sound_sequenceCode hload h with
    probeIndex := turns_forM fun c hc => (h c hc).probeIndex }

theorem sound_starredCode (hvalue : value.Sound S) : (starredCode source value).Sound S :=
  { Sound.ofLoad (fails_refuse _ _).turns with
    store := (fails_refuse _ _).turns
    delete := (fails_refuse _ _).turns
    starred := fun s hs => by
      cases hs
      exact ⟨hvalue.load, hvalue.store⟩ }

end

/-! ### Conditions -/

section

variable {S : Setting} {loc : Location} {values : List ExprCode} {test : ExprCode}

theorem turns_loadBoolOp (op : BoolOp) (h : ∀ c ∈ values, c.Sound S) :
    (loadBoolOp loc op values).Turns S 0 1 := by
  unfold loadBoolOp
  cases hlast : values.getLast? with
  | none => exact (fails_fault _).turns
  | some last =>
    intro b H K U hb
    apply Leads.label ⟨b + 1, H⟩
    intro done hdone
    have hinit : (values.dropLast.forM fun value => do
        value.load
        emitJump (jumpIfOrPop (op = BoolOp.or)) done loc).Leads S
          ⟨⟨b, H⟩, (done, ⟨b + 1, H⟩) :: K, done :: U⟩
          ⟨⟨b, H⟩, (done, ⟨b + 1, H⟩) :: K, done :: U⟩ := by
      apply leads_forM
      intro c hc
      apply ((h c (dropLast_subset _ hc)).load.leads hb).seq
      exact leads_jump (jumpArity?_jumpIfOrPop _) hb fun _ => rfl
    apply hinit.seq
    apply ((h last (mem_of_getLast? hlast)).load.leads hb).seq
    exact leads_bindFirst hdone

theorem jumps_jumpIfBoolOp (op : BoolOp) (h : ∀ c ∈ values, c.Sound S) (target : Label)
    (cond : Bool) : (jumpIfBoolOp op values target cond).Jumps S target := by
  unfold jumpIfBoolOp
  intro b H K U hb hl
  cases hlast : values.getLast? with
  | none => exact (fails_fault _).yields
  | some last =>
    have hmem := mem_of_getLast? hlast
    dsimp only
    split_ifs
    · have hinit : ∀ c ∈ values.dropLast, (c.jumpIf target (op = BoolOp.or)).Leads S
          ⟨⟨b, H⟩, K, U⟩ ⟨⟨b, H⟩, K, U⟩ :=
        fun c hc => ((h c (dropLast_subset _ hc)).jumpIf _ _).leads hb hl
      exact (leads_forM hinit).seq (((h last hmem).jumpIf _ _).leads hb hl)
    · apply Leads.label ⟨b, H⟩
      intro past hpast
      apply (leads_forM fun c hc =>
        ((h c (dropLast_subset _ hc)).jumpIf past _).leads hb).seq
      apply (((h last hmem).jumpIf _ _).leads hb (by simp [hl])).seq
      exact leads_bindFirst hpast

theorem leads_chooseBy (htest : test.Sound S) {body orElse : Gen Unit} {there : Shape}
    (hb : lowest H ≤ b) (hthere : lowest there.handlers ≤ there.height)
    (hbody : ∀ K' U', K ⊆ K' → body.Leads S ⟨⟨b, H⟩, K', U'⟩ ⟨there, K', U'⟩)
    (helse : ∀ K' U', K ⊆ K' → orElse.Leads S ⟨⟨b, H⟩, K', U'⟩ ⟨there, K', U'⟩) :
    (chooseBy test body orElse).Leads S ⟨⟨b, H⟩, K, U⟩ ⟨there, K, U⟩ := by
  apply Leads.label there
  intro done hdone
  apply Leads.label ⟨b, H⟩
  intro next hnext
  apply ((htest.jumpIf next false).leads hb).seq
  apply (hbody _ _ (by grind)).seq
  apply (leads_leap ⟨b, H⟩ hthere).seq
  apply (leads_bindLabel hnext (done :: U)).seq
  apply (helse _ _ (by grind)).seq
  exact leads_bindFirst hdone

/-! ### Comparisons -/

theorem turns_emitCompare (op : CompareOp) : (emitCompare op loc).Turns S 2 1 := by
  cases op <;> exact turns_emit rfl

theorem still_warnIdentity (left : ExprCode) (ops : List CompareOp)
    (comparators : List ExprCode) :
    (warnIdentity loc left ops comparators).Still S fun _ _ _ => True := by
  induction ops generalizing left comparators with
  | nil => exact .pure _
  | cons op ops ih =>
    cases comparators with
    | nil => exact .pure _
    | cons right comparators =>
      unfold warnIdentity
      split_ifs
      · cases op
        case is | isNot => exact (still_warn _ _).andThen fun _ => ih right comparators
        all_goals exact ih right comparators
      · exact ih right comparators

/-- The left operand of the next comparison is on the stack before each of them. -/
theorem leads_compareEach {steps : List (CompareOp × ExprCode)} (h : ∀ x ∈ steps, x.2.Sound S)
    {onFail : Gen Unit} (hb : lowest H ≤ b)
    (hfail : onFail.Leads S ⟨⟨b + 2, H⟩, K, U⟩ ⟨⟨b + 1, H⟩, K, U⟩) :
    (compareEach steps onFail loc).Leads S ⟨⟨b + 1, H⟩, K, U⟩ ⟨⟨b + 1, H⟩, K, U⟩ := by
  apply leads_forM
  rintro ⟨op, right⟩ hx
  apply (((h _ hx).load.above 1).leads hb).seq
  apply ((turns_emit rfl).leads hb).seq
  apply ((turns_emit rfl).leads hb).seq
  apply (((turns_emitCompare op).above 1).leads hb).seq
  exact hfail

variable {left : ExprCode} {ops : List CompareOp} {comparators : List ExprCode}

theorem sound_of_mem_zip (h : ∀ c ∈ comparators, c.Sound S) :
    ∀ x ∈ ops.zip comparators, x.2.Sound S := by
  rintro ⟨op, right⟩ hx
  exact h right (of_mem_zip hx).2

theorem turns_loadCompare (hleft : left.Sound S) (h : ∀ c ∈ comparators, c.Sound S) :
    (loadCompare loc left ops comparators).Turns S 0 1 := by
  have hall : ∀ x ∈ ops.zip comparators, x.2.Sound S := sound_of_mem_zip h
  unfold loadCompare
  cases hlast : (ops.zip comparators).getLast? with
  | none => exact (fails_fault _).turns
  | some last =>
    obtain ⟨op, right⟩ := last
    have hright : right.Sound S := hall _ (mem_of_getLast? hlast)
    dsimp only
    split_ifs
    iterate 2 · exact (fails_fault _).bind.turns
    · apply (still_warnIdentity left ops comparators).turns.seq
      apply hleft.load.seq
      exact (hright.load.above 1).seq (turns_emitCompare op)
    · intro b H K U hb
      have hb₁ : lowest H ≤ b + 1 := Nat.le_add_right_of_le hb
      apply (still_warnIdentity left ops comparators).leads.seq
      apply (hleft.load.leads hb).seq
      apply Leads.label ⟨b + 2, H⟩
      intro cleanup hcleanup
      refine (leads_compareEach (fun x hx => hall x (dropLast_subset _ hx)) hb ?_).seq ?_
      · exact leads_jump (b := b + 1) (n := 1) (k := 0) rfl hb₁ fun _ => rfl
      apply ((hright.load.above 1).leads hb).seq
      apply ((turns_emitCompare op).leads hb).seq
      apply Leads.label ⟨b + 1, H⟩
      intro done hdone
      apply (leads_leap ⟨b + 2, H⟩ hb₁).seq
      apply (leads_bindLabel hcleanup (done :: U)).seq
      apply ((turns_emit rfl).leads hb).seq
      apply ((turns_emit (n := 1) (k := 0) rfl).leads hb₁).seq
      exact leads_bindFirst hdone

theorem jumps_jumpIfChain (hleft : left.Sound S) (h : ∀ c ∈ comparators, c.Sound S)
    (target : Label) (cond : Bool) :
    (jumpIfChain loc left ops comparators target cond).Jumps S target := by
  have hall : ∀ x ∈ ops.zip comparators, x.2.Sound S := sound_of_mem_zip h
  unfold jumpIfChain
  intro b H K U hb hl
  cases hlast : (ops.zip comparators).getLast? with
  | none => exact (fails_fault _).yields
  | some last =>
    obtain ⟨op, right⟩ := last
    have hright : right.Sound S := hall _ (mem_of_getLast? hlast)
    have hb₁ : lowest H ≤ b + 1 := Nat.le_add_right_of_le hb
    apply (still_warnIdentity left ops comparators).leads.seq
    apply Leads.label ⟨b + 1, H⟩
    intro cleanup hcleanup
    apply (hleft.load.leads hb).seq
    refine (leads_compareEach (fun x hx => hall x (dropLast_subset _ hx)) hb ?_).seq ?_
    · exact leads_jump (b := b + 1) (n := 1) (k := 0) rfl hb₁ fun _ => rfl
    apply ((hright.load.above 1).leads hb).seq
    apply ((turns_emitCompare op).leads hb).seq
    apply (leads_jump (jumpArity?_popJumpIf cond) hb (fun _ => rfl) (by simp [hl])).seq
    apply Leads.label ⟨b, H⟩
    intro done hdone
    apply (leads_leap ⟨b + 1, H⟩ hb).seq
    apply (leads_bindLabel hcleanup (done :: U)).seq
    apply ((turns_emit rfl).leads hb).seq
    split_ifs
    · apply (leads_leap ⟨b, H⟩ hb (by simp [hl])).seq
      exact leads_bindFirst hdone
    · exact leads_bindFirst hdone

end

end Bytecode
