import Bytecode.Proofs.Lowering.Places

/-!
# Places around instructions

How each kind of instruction leads from place to place. Most code turns `n` values on top of the
stack into `k`, whatever is below them, as long as the innermost handler counts on nothing above.
-/

namespace Bytecode

open Operation Nat Instr Setting Opcode

variable {l : Label}

/-- The height of the stack that the innermost handler counts on. -/
def lowest (H : List OpenHandler) : Nat :=
  H.head?.elim 0 (·.height)

@[simp] theorem lowest_cons (o : OpenHandler) (H : List OpenHandler) : lowest (o :: H) = o.height :=
  rfl

@[simp] theorem lowest_nil : lowest [] = 0 := rfl

/-! ### Operations -/

/-- Wherever the stack is high enough, the operation turns `n` values into `k`. -/
structure Operation.Turns (op : Operation) (arg n k : Nat) : Prop where
  plain : op.hasTarget = false
  closesNone : op.meaning ≠ .unguard
  effect : ∃ e, op.effect arg false = .ok e ∧ (k : Int) = n + e
  reaches : ∀ b, op.reaches arg (b + n)

namespace Opcode

/-- How many values an instruction takes and leaves; what it only looks at counts as both. -/
def arity? (op : Opcode) (arg : Nat) : Option (Nat × Nat) :=
  match op with
  | .nop | .resume | .setupAnnotations | .kwNames | .deleteName | .deleteGlobal | .deleteFast
  | .deleteDeref => some (0, 0)
  | .pushNull | .loadConst | .loadName | .loadFast | .loadDeref | .loadClassderef
  | .loadBuildClass | .loadAssertionError => some (0, 1)
  | .popTop | .popExcept | .returnValue | .reraise | .storeName | .storeGlobal | .storeFast
  | .storeDeref | .deleteAttr | .listAppend | .setAdd | .listExtend | .setUpdate | .dictMerge
  | .dictUpdate => some (1, 0)
  | .unaryPositive | .unaryNegative | .unaryNot | .unaryInvert | .getIter | .getYieldFromIter
  | .getAiter | .getAwaitable | .yieldValue | .callIntrinsic1 => some (1, 1)
  | .getLen | .matchMapping | .matchSequence | .pushExcInfo | .getAnext | .beforeWith
  | .beforeAsyncWith | .importFrom => some (1, 2)
  | .storeAttr | .deleteSubscr | .endAsyncFor | .mapAdd => some (2, 0)
  | .binarySubscr | .binaryOp | .compareOp | .isOp | .containsOp | .importName | .endSend =>
    some (2, 1)
  | .checkExcMatch => some (2, 2)
  | .matchKeys => some (2, 3)
  | .storeSubscr => some (3, 0)
  | .binarySlice | .matchClass => some (3, 1)
  | .cleanupThrow => some (3, 2)
  | .storeSlice => some (4, 0)
  | .withExceptStart => some (4, 5)
  | .swap => if 1 ≤ arg then some (arg, arg) else none
  | .copy => if 1 ≤ arg then some (arg, arg + 1) else none
  | .buildTuple | .buildList | .buildSet | .buildString => some (arg, 1)
  | .buildSlice => if arg = 2 ∨ arg = 3 then some (arg, 1) else none
  | .buildMap => some (2 * arg, 1)
  | .buildConstKeyMap => some (arg + 1, 1)
  | .unpackSequence => some (1, arg)
  | .unpackEx => some (1, arg % 256 + arg / 256 + 1)
  | .loadAttr => some (1, 1 + arg % 2)
  | .loadGlobal => some (0, 1 + arg % 2)
  | .formatValue => some (1 + arg / 4 % 2, 1)
  | .makeFunction => some (functionExtras arg + 1, 1)
  | .call => some (arg + 2, 1)
  | .callFunctionEx => some (3 + arg % 2, 1)
  | .raiseVarargs => if arg ≤ 2 then some (arg, 0) else none
  | _ => none

/-- The same, of an instruction that all code may have. -/
def plainArity? (op : Opcode) (arg : Nat) : Option (Nat × Nat) :=
  if op.isReserved then none else op.arity? arg

theorem of_plainArity? {op : Opcode} {arg n k : Nat} (h : op.plainArity? arg = some (n, k)) :
    op.isReserved = false ∧ op.arity? arg = some (n, k) := by
  simpa [plainArity?] using h

theorem effect_of_arity? {op : Opcode} {arg n k : Nat} (h : op.arity? arg = some (n, k)) :
    ∃ e, op.effectOf arg false = .ok e ∧ (k : Int) = n + e := by
  cases op
  case buildSlice | raiseVarargs =>
    obtain ⟨harg, heq⟩ := Option.ite_none_right_eq_some.mp h
    cases heq
    exact ⟨_, if_pos harg, by omega⟩
  case swap | copy =>
    obtain ⟨-, heq⟩ := Option.ite_none_right_eq_some.mp h
    cases heq
    exact ⟨_, rfl, by omega⟩
  case formatValue =>
    obtain ⟨rfl, rfl⟩ := Prod.mk.inj (Option.some.inj h)
    refine ⟨_, rfl, ?_⟩
    split_ifs
    all_goals omega
  all_goals cases h <;> exact ⟨_, rfl, by omega⟩

theorem turns_of_arity? {op : Opcode} {arg n k : Nat} (h : op.arity? arg = some (n, k)) :
    (real op).Turns arg n k := by
  have hplain : (real op).hasTarget = false := by cases op <;> first | rfl | cases h
  have hcloses : (real op).meaning ≠ .unguard := by
    cases op <;> simp [meaning]
  refine ⟨hplain, hcloses, effect_of_arity? h, fun b => ?_⟩
  cases op
  case swap | copy =>
    obtain ⟨hpos, heq⟩ := Option.ite_none_right_eq_some.mp h
    cases heq
    simp [reaches, meaning, hpos]
  case buildSlice | raiseVarargs => rfl
  all_goals cases h <;> simp [reaches, meaning]

end Opcode

theorem Setting.permits_of_plain {S : Setting} {op : Opcode} {arg n k : Nat}
    (h : op.plainArity? arg = some (n, k)) : S.Permits op :=
  grants_of fun _ _ hop => absurd hop (by simp [(of_plainArity? h).1])

/-- How many values a jump takes, how many it leaves where it goes on, and how many where it
lands. -/
def Operation.jumpArity? : Operation → Option (Nat × Nat × Nat)
  | .pseudo .jump | .pseudo .jumpNoInterrupt => some (0, 0, 0)
  | .pseudo .popJumpIfTrue | .pseudo .popJumpIfFalse | .pseudo .popJumpIfNone
  | .pseudo .popJumpIfNotNone => some (1, 0, 0)
  | .real .jumpIfTrueOrPop | .real .jumpIfFalseOrPop => some (1, 0, 1)
  | .real .forIter => some (1, 2, 0)
  | .real .send => some (2, 2, 2)
  | _ => none

theorem jumpArity?_popJumpIf (cond : Bool) : (popJumpIf cond).jumpArity? = some (1, 0, 0) := by
  cases cond <;> rfl

theorem jumpArity?_jumpIfOrPop (cond : Bool) : (jumpIfOrPop cond).jumpArity? = some (1, 0, 1) := by
  cases cond <;> rfl

namespace Gen

variable {α β γ : Type} {S : Setting} {m : Gen α} {f : α → Gen β} {n k r b : Nat}
  {H : List OpenHandler} {K : List (Label × Shape)} {U : List Label} {loc : Location}
  {op : Operation} {arg : Nat} {P : α → Terms → Spot → Prop} {xs : List γ} {inner : Site → Site}
  {p : Place}

/-! ### Code in general -/

/-- The generated code turns `n` values on top of the stack into `k`. -/
def Turns (S : Setting) (m : Gen α) (n k : Nat) : Prop :=
  ∀ b H K U, lowest H ≤ b → m.Leads S ⟨⟨b + n, H⟩, K, U⟩ ⟨⟨b + k, H⟩, K, U⟩

/-- The generated code takes `n` values and does not go on, so that anything can follow. -/
def Ends (S : Setting) (m : Gen α) (n : Nat) : Prop :=
  ∀ b H K U, lowest H ≤ b → ∀ shape, m.Leads S ⟨⟨b + n, H⟩, K, U⟩ ⟨shape, K, U⟩

theorem Turns.leads (h : m.Turns S n k) (hb : lowest H ≤ b) :
    m.Leads S ⟨⟨b + n, H⟩, K, U⟩ ⟨⟨b + k, H⟩, K, U⟩ := h b H K U hb

theorem Ends.leads (h : m.Ends S n) (hb : lowest H ≤ b) (shape : Shape) :
    m.Leads S ⟨⟨b + n, H⟩, K, U⟩ ⟨shape, K, U⟩ := h b H K U hb shape

theorem Leads.pure {a : α} : (Pure.pure a : Gen α).Leads S p p := Yields.pure rfl

theorem leads_forM {f : γ → Gen Unit} (h : ∀ x ∈ xs, (f x).Leads S p p) :
    (xs.forM f).Leads S p p := by
  induction xs with
  | nil => exact .pure
  | cons x xs ih =>
    obtain ⟨hx, hxs⟩ := List.forall_mem_cons.mp h
    exact hx.seq (ih hxs)

/-- Code does not look at what is below the values it takes. -/
theorem Turns.above (h : m.Turns S n k) (j : Nat) : m.Turns S (n + j) (k + j) := by
  intro b H K U hb
  have hj := h (b + j) H K U (le_add_right_of_le hb)
  rwa [add_assoc, add_assoc, add_comm j, add_comm j] at hj

theorem Turns.over (h : m.Turns S n k) (j : Nat) : m.Turns S (j + n) (j + k) := by
  rw [add_comm j, add_comm j]
  exact h.above j

/-- What takes nothing pushes its values on any others. -/
theorem Turns.push (h : m.Turns S 0 k) (n : Nat) : m.Turns S n (n + k) := h.over n

theorem Turns.bind (hm : m.Turns S n k) (hf : ∀ a, (f a).Turns S k r) : (m >>= f).Turns S n r :=
  fun _ _ _ _ hb => (hm.leads hb).bind fun a => (hf a).leads hb

theorem Turns.seq {m : Gen Unit} {f : Unit → Gen β} (hm : m.Turns S n k) (hf : (f ()).Turns S k r) :
    (m >>= f).Turns S n r :=
  hm.bind fun _ => hf

theorem Still.turns (hm : m.Still S P) : m.Turns S n n :=
  fun _ _ _ _ _ => hm.leads

theorem Still.turnsGiven (hm : m.Still S P) (hf : ∀ a, S.Grants (P a) → (f a).Turns S n k) :
    (m >>= f).Turns S n k :=
  fun _ _ _ _ hb => hm.bindGiven fun a ha => (hf a ha).leads hb

/-- The code of a unit inside is put together from primitives at the site of that. -/
theorem Leads.grants {q : Place} (h : m.Leads (S.inside inner) p q) :
    S.Grants fun T here => m.Composes T (inner here.toSite).toSpot := by
  cases S with
  | shaped => trivial
  | composed T here => exact h.composes

theorem Turns.composes {T : Terms} {here : Spot} (h : m.Turns (.composed T here) n k) :
    m.Composes T here :=
  (h 0 [] [] [] (le_refl 0)).composes

theorem Turns.grants (h : m.Turns (S.inside inner) n k) :
    S.Grants fun T here => m.Composes T (inner here.toSite).toSpot :=
  (h 0 [] [] [] (le_refl 0)).grants

theorem Fails.turns (hm : m.Fails S) : m.Turns S n k := fun _ _ _ _ _ => hm.yields

theorem turns_pure (a : α) : (Pure.pure a : Gen α).Turns S n n := fun _ _ _ _ _ => .pure

theorem Ends.above (h : m.Ends S n) (j : Nat) : m.Ends S (n + j) := by
  intro b H K U hb shape
  have hj := h (b + j) H K U (le_add_right_of_le hb) shape
  rwa [add_assoc, add_comm j] at hj

theorem Turns.ends (hm : m.Turns S n k) (hf : ∀ a, (f a).Ends S k) : (m >>= f).Ends S n :=
  fun _ _ _ _ hb shape => (hm.leads hb).bind fun a => (hf a).leads hb shape

theorem turns_forM {f : γ → Gen Unit} (h : ∀ x ∈ xs, (f x).Turns S n n) : (xs.forM f).Turns S n n :=
  fun _ _ _ _ hb => leads_forM fun x hx => (h x hx).leads hb

theorem turns_forM_push {f : γ → Gen Unit} {j : Nat} (h : ∀ x ∈ xs, (f x).Turns S 0 j) :
    (xs.forM f).Turns S n (n + j * xs.length) := by
  induction xs generalizing n with
  | nil => exact turns_pure ()
  | cons x xs ih =>
    obtain ⟨hx, hxs⟩ := List.forall_mem_cons.mp h
    have hxs' := ih (n := n + j) hxs
    rw [add_assoc, add_comm j, ← mul_succ] at hxs'
    exact (hx.push n).seq hxs'

theorem turns_forM_take {f : γ → Gen Unit} (h : ∀ x ∈ xs, (f x).Turns S 1 0) :
    (xs.forM f).Turns S xs.length 0 := by
  induction xs with
  | nil => exact turns_pure ()
  | cons x xs ih =>
    obtain ⟨hx, hxs⟩ := List.forall_mem_cons.mp h
    have hx' := hx.above xs.length
    rw [zero_add, add_comm 1] at hx'
    exact hx'.seq (ih hxs)

/-! ### Instructions that refer to no block -/

theorem leads_addOp (h : op.Turns arg n k) (hb : lowest H ≤ b + n) {shape : Shape}
    (hshape : op.fallsThrough → shape = ⟨b + k, H⟩)
    (hcomposes : S.Grants fun T here => (editGraph (·.addOp op arg loc)).Composes T here) :
    (editGraph (·.addOp op arg loc)).Leads S ⟨⟨b + n, H⟩, K, U⟩ ⟨shape, K, U⟩ := by
  obtain ⟨hplain, hcloses, ⟨e, heffect, hk⟩, hreaches⟩ := h
  have hlabel : (mk op arg none loc none).label? = none := by simp [label?, hplain]
  have hsuits : (mk op arg none loc none).Suits ⟨b + n, H⟩ := by
    refine ⟨?_, hreaches b, fun hop => absurd hop hcloses, hb⟩
    show op.fits arg (b + n)
    unfold fits
    rw [heffect]
    simp only [decide_eq_true_eq]
    omega
  have hguard : op.meaning ≠ .guard := by
    intro hop
    rw [hasTarget_of_guard hop] at hplain
    cases hplain
  refine leads_addInstr (i := mk op arg none loc none) hcomposes ?_ rfl ?_ ?_
  · intro g h hadd
    rw [Graph.addOp, hplain] at hadd
    exact (Except.ok.inj hadd).symm
  · intro l hl
    cases hlabel.symm.trans hl
  · intro T _
    refine ⟨hsuits, fun hop => absurd hop (by simp [hplain]), fun hfall s hs => ?_⟩
    rw [hshape hfall]
    apply hs.unique
    exact .plain hguard hcloses heffect (by push_cast; omega)

theorem grants_emit {op : Opcode} (h : S.Permits op) :
    S.Grants fun T here => (emit op arg loc).Composes T here :=
  h.imp fun _ _ h => .emit h

/-- An instruction may take what the innermost handler counts on, if it leaves as much. -/
theorem leads_permitted {op : Opcode} (h : op.arity? arg = some (n, k)) (hop : S.Permits op)
    (hb : lowest H ≤ b + n) : (emit op arg loc).Leads S ⟨⟨b + n, H⟩, K, U⟩ ⟨⟨b + k, H⟩, K, U⟩ :=
  leads_addOp (turns_of_arity? h) hb (fun _ => rfl) (grants_emit hop)

theorem turns_permitted {op : Opcode} (h : op.arity? arg = some (n, k)) (hop : S.Permits op) :
    (emit op arg loc).Turns S n k :=
  fun _ _ _ _ hb => leads_permitted h hop (le_add_right_of_le hb)

theorem leads_emit {op : Opcode} (h : op.plainArity? arg = some (n, k)) (hb : lowest H ≤ b + n) :
    (emit op arg loc).Leads S ⟨⟨b + n, H⟩, K, U⟩ ⟨⟨b + k, H⟩, K, U⟩ :=
  leads_permitted (of_plainArity? h).2 (permits_of_plain h) hb

theorem turns_emit {op : Opcode} (h : op.plainArity? arg = some (n, k)) :
    (emit op arg loc).Turns S n k :=
  turns_permitted (of_plainArity? h).2 (permits_of_plain h)

theorem turns_swap (h : 1 ≤ n) : (emit .swap n loc).Turns S n n := turns_emit (if_pos h)

theorem turns_copy (h : 1 ≤ n) : (emit .copy n loc).Turns S n (n + 1) := turns_emit (if_pos h)

theorem ends_emit {op : Opcode} (h : op.plainArity? arg = some (n, k))
    (hfalls : (real op).fallsThrough = false) : (emit op arg loc).Ends S n :=
  fun _ _ _ _ hb _ => leads_addOp (turns_of_arity? (of_plainArity? h).2)
    (le_add_right_of_le hb) (fun hfall => by simp [hfalls] at hfall)
    (grants_emit (permits_of_plain h))

theorem turns_loadClosure : (emitPseudo .loadClosure arg loc).Turns S 0 1 :=
  fun _ _ _ _ hb => leads_addOp ⟨rfl, by decide, ⟨_, rfl, rfl⟩, fun _ => rfl⟩ hb (fun _ => rfl)
    (grants_of fun _ _ => .emitPseudo)

/-! ### Jumps and handlers -/

theorem leads_addJump {here onward landing : Shape} (hop : op.hasTarget) (hl : (l, landing) ∈ K)
    (hsuits : (mk op l none loc none).Suits here)
    (hbranch : (mk op l none loc none).Branches here landing)
    (hadvance : op.fallsThrough → (mk op l none loc none).Advances (some l) here onward) :
    (emitJump op l loc).Leads S ⟨here, K, U⟩ ⟨onward, K, U⟩ := by
  have hlabel : (mk op l none loc none).label? = some l := if_pos hop
  have hcomposes : S.Grants fun T spot => (emitJump op l loc).Composes T spot :=
    grants_of fun _ _ => .emitJump
  refine leads_addInstr (i := mk op l none loc none) hcomposes ?_ rfl ?_ ?_
  · intro g h hadd
    rw [Graph.addJump, hop] at hadd
    simp only [Bool.not_true, Bool.false_eq_true, reduceIte] at hadd
    split_ifs at hadd with hsize
    · cases hadd
    · exact (Except.ok.inj hadd).symm
  · intro m hm
    cases hlabel.symm.trans hm
    exact ⟨landing, hl⟩
  · intro T hT
    refine ⟨hsuits, fun _ => ⟨l, landing, hlabel, hbranch, congrArg some (hT _ hl)⟩, ?_⟩
    intro hfall s hs
    rw [hlabel] at hs
    exact hs.unique (hadvance hfall)

theorem leads_jump {j : Nat} (h : op.jumpArity? = some (n, k, j)) (hb : lowest H ≤ b)
    {shape : Shape} (hshape : op.fallsThrough → shape = ⟨b + k, H⟩)
    (hl : (l, ⟨b + j, H⟩) ∈ K := by simp) :
    (emitJump op l loc).Leads S ⟨⟨b + n, H⟩, K, U⟩ ⟨shape, K, U⟩ := by
  have hop : op.hasTarget := by
    unfold jumpArity? at h
    split at h <;> first | rfl | cases h
  have hon : ∃ e, op.effect l false = .ok e ∧ (k : Int) = n + e := by
    unfold jumpArity? at h
    split at h <;> cases h <;> exact ⟨_, rfl, rfl⟩
  have hlands : ∃ e, op.effect l true = .ok e ∧ (j : Int) = n + e := by
    unfold jumpArity? at h
    split at h <;> cases h <;> exact ⟨_, rfl, rfl⟩
  have hreaches : op.reaches l (b + n) := by
    unfold jumpArity? at h
    split at h <;> cases h <;> simp [reaches, meaning]
  have hguard : op.meaning ≠ .guard ∧ op.meaning ≠ .unguard := by
    unfold jumpArity? at h
    split at h <;> cases h <;> simp [meaning]
  obtain ⟨e, hon, hk⟩ := hon
  obtain ⟨e', hlands, hj⟩ := hlands
  refine leads_addJump hop hl ⟨?_, hreaches, fun hclose => absurd hclose hguard.2, ?_⟩ ?_ ?_
  · show op.fits l (b + n)
    unfold fits
    rw [hon]
    simp only [decide_eq_true_eq]
    omega
  · exact le_add_right_of_le hb
  · exact ⟨e', hlands, by push_cast; omega, rfl⟩
  · intro hfall
    rw [hshape hfall]
    exact .plain hguard.1 hguard.2 hon (by push_cast; omega)

/-- A jump that is always taken: anything can follow. -/
theorem leads_leap (shape : Shape) {op : PseudoOp} (hb : lowest H ≤ b)
    (hl : (l, ⟨b, H⟩) ∈ K := by simp) (hop : op = .jump ∨ op = .jumpNoInterrupt := by simp) :
    (emitJump op l loc).Leads S ⟨⟨b, H⟩, K, U⟩ ⟨shape, K, U⟩ := by
  rcases hop with rfl | rfl
  all_goals exact leads_jump (n := 0) (k := 0) (j := 0) rfl hb (fun h => by cases h) hl

/-- A handler is opened, which finds the stack cut, with what a fault pushes on it. -/
theorem leads_guard {height cut : Nat} (hop : op.meaning = .guard)
    (hcut : op.guardHeight? height = some cut)
    (hl : (l, ⟨cut + if op.keepsPosition then 2 else 1, H⟩) ∈ K) (hb : lowest H ≤ height) :
    (emitJump op l loc).Leads S ⟨⟨height, H⟩, K, U⟩
      ⟨⟨height, ⟨l, cut, op.keepsPosition⟩ :: H⟩, K, U⟩ := by
  obtain ⟨e, heffect, hheight⟩ := effect_of_guardHeight? hop hcut l
  have hsuits : (mk op l none loc none).Suits ⟨height, H⟩ := by
    refine ⟨?_, ?_, fun hclose => absurd (hop.symm.trans hclose) (by simp), hb⟩
    · show op.fits l height
      unfold fits
      rw [op.effect_of_meaning (e := 0) (by rw [hop]; rfl)]
      simp
    · simp [reaches, hop, hcut]
  refine leads_addJump (hasTarget_of_guard hop) hl hsuits ?_ ?_
  · exact ⟨e, heffect, hheight, rfl⟩
  · intro _
    exact .guard hop rfl hcut

theorem leads_setupFinally (hb : lowest H ≤ b) (hl : (l, ⟨b + 1, H⟩) ∈ K := by simp) :
    (emitJump PseudoOp.setupFinally l loc).Leads S ⟨⟨b, H⟩, K, U⟩ ⟨⟨b, ⟨l, b, false⟩ :: H⟩, K, U⟩ :=
  leads_guard rfl rfl hl hb

theorem leads_setupCleanup (hb : lowest H ≤ b) (hl : (l, ⟨b + 2, H⟩) ∈ K := by simp) :
    (emitJump PseudoOp.setupCleanup l loc).Leads S ⟨⟨b, H⟩, K, U⟩ ⟨⟨b, ⟨l, b, true⟩ :: H⟩, K, U⟩ :=
  leads_guard rfl rfl hl hb

/-- What the block was entered with is on top of the stack, and the handler does not find it. -/
theorem leads_setupWith (hb : lowest H ≤ b) (hl : (l, ⟨b + 2, H⟩) ∈ K := by simp) :
    (emitJump PseudoOp.setupWith l loc).Leads S ⟨⟨b + 1, H⟩, K, U⟩
      ⟨⟨b + 1, ⟨l, b, true⟩ :: H⟩, K, U⟩ :=
  leads_guard rfl rfl hl (le_succ_of_le hb)

theorem leads_popBlock {height : Nat} {o : OpenHandler} (ho : o.height ≤ height := by simp) :
    (popBlock loc).Leads S ⟨⟨height, o :: H⟩, K, U⟩ ⟨⟨height, H⟩, K, U⟩ := by
  show (editGraph (·.addOp (.pseudo .popBlock) 0 loc)).Leads S _ _
  have hcomposes : S.Grants fun T spot => (popBlock loc).Composes T spot :=
    grants_of fun _ _ => .emitPseudo
  refine leads_addInstr (i := mk (.pseudo .popBlock) 0 none loc none) hcomposes ?_ rfl ?_ ?_
  · intro g h hadd
    exact (Except.ok.inj hadd).symm
  · intro l hl
    cases hl
  · intro T _
    refine .plain ⟨?_, rfl, fun _ => List.cons_ne_nil _ _, ho⟩ rfl (.unguard rfl) rfl
    show decide (0 ≤ (height : Int) + 0) = true
    simp

end Gen

end Bytecode
