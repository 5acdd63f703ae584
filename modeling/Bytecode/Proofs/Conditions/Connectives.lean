import Bytecode.Proofs.Conditions.Code

/-!
# Connectives

The code of an expression, for its value or as a condition, does what the evaluation of the
expression says, if the code of its operands does.
-/

namespace Bytecode

open List Gen Oracle Bytecode.Expr Prod

/-- What code does when control is there, with the given values on the stack. -/
abbrev Effect :=
  ∀ V : Type, Oracle V → List V → Evaluation V (Control V)

/-- Where the first `n` labels are known, what the generator adds has the effect. -/
def Gen.Does (c : GenContext) (n : Nat) (m : Gen Unit) (effect : Effect) : Prop :=
  ∀ ⦃s s' : GenState⦄ ⦃a : Unit⦄, s.unit.graph.Chained → n ≤ s.unit.graph.labels.size →
    m c s = .ok (a, s') → ∃ ps, Laid c s s' ps ∧
      ∀ V (D : Oracle V) stack, D.run ps (.here stack) = effect V D stack

/-- The effect of code that evaluates an expression and goes on by its value. -/
def Expr.thenGo (e : Expr ScopeId) (next : ∀ V : Type, Oracle V → List V → V → Control V) :
    Effect :=
  fun V D stack => D.eval e >>= fun v => pure (next V D stack v)

def Expr.loads (e : Expr ScopeId) : Effect :=
  e.thenGo fun _ _ stack v => .here (v :: stack)

def Expr.tests (e : Expr ScopeId) (target : Label) (cond : Bool) : Effect :=
  e.thenGo fun _ D stack v => D.branch target cond stack v

/-- The code of the expression does what its evaluation says, for its value and as a condition. -/
structure Computes (c : GenContext) (e : Expr ScopeId) : Prop where
  load : (lowerExpr e).load.Does c 0 e.loads
  jumpIf : ∀ {n : Nat} {target : Label} (cond : Bool), target < n →
    ((lowerExpr e).jumpIf target cond).Does c n (e.tests target cond)

section

variable {c : GenContext} {n : Nat} {e : Expr ScopeId} {es : List (Expr ScopeId)} {l target : Label}
  {loc : Location} {ops : List CompareOp} {exit : ∀ V : Type, V → List V → List V}
  {s s' s₁ : GenState} {rights : List ExprCode} {a : Unit} {cond : Bool}

theorem lowerExprs_eq_map : lowerExprs es = es.map lowerExpr := by
  induction es with
  | nil => rfl
  | cons e es ih => rw [lowerExprs, ih, map_cons]

theorem does_load_jump (h : (lowerExpr e).load.Does c 0 e.loads) (cond : Bool) :
    Gen.Does c n (do (lowerExpr e).load; emitJump (popJumpIf cond) l loc) (e.tests l cond) := by
  intro s s' a hs _ hrun
  obtain ⟨_, t, hload, hjump⟩ := bind_eq_ok.mp hrun
  obtain ⟨ps, hps, heffect⟩ := h hs (Nat.zero_le _) hload
  refine ⟨_, hps.trans (laid_emitJump hps.chained hjump), fun V D stack => ?_⟩
  simp [heffect, loads, tests, thenGo]

/-! ### Operands -/

theorem jumpIf_of_isCondition_eq_false (he : e.isCondition = false) (cond : Bool) :
    (lowerExpr e).jumpIf l cond = (do
      (lowerExpr e).load
      emitJump (popJumpIf cond) l e.loc) := by
  cases e with
  | unary _ op => cases op <;> first | rfl | cases he
  | _ => first | rfl | cases he

theorem eval_of_isCondition_eq_false {V : Type} (D : Oracle V) (he : e.isCondition = false) :
    D.eval e = D.ask (.value e) := by
  cases e with
  | unary _ op => cases op <;> first | rfl | cases he
  | _ => first | rfl | cases he

theorem computes_operand {site : Site} (hc : site.Met c.scopes c) (he : e.isCondition = false) :
    Computes c e := by
  have hload : (lowerExpr e).load.Does c 0 e.loads := by
    intro s s' a hs _ hrun
    obtain ⟨code, hcode⟩ := laid_operand hc he hs hrun
    refine ⟨_, hcode, fun V D stack => ?_⟩
    rw [loads, thenGo, eval_of_isCondition_eq_false D he, run_value]
  refine ⟨hload, fun cond _ => ?_⟩
  rw [jumpIf_of_isCondition_eq_false he]
  exact does_load_jump hload cond

/-! ### Negations -/

theorem computes_not (h : Computes c e) : Computes c (.unary loc .not e) := by
  refine ⟨fun {s s' a} hs hn hrun => ?_, fun {n target} cond htarget s s' a hs hn hrun => ?_⟩
  · obtain ⟨_, t, hload, hnot⟩ := bind_eq_ok.mp hrun
    obtain ⟨ps, hps, heffect⟩ := h.load hs hn hload
    have hinstr : Laid c t s' [.instr { op := Opcode.unaryNot, arg := 0, loc := loc }] :=
      laid_emit hps.chained hnot
    refine ⟨_, hps.trans hinstr, fun V D stack => ?_⟩
    simp [heffect, loads, thenGo, eval]
  · obtain ⟨ps, hps, heffect⟩ := h.jumpIf (!cond) htarget hs hn hrun
    refine ⟨ps, hps, fun V D stack => ?_⟩
    have hbranch : ∀ v, D.branch target (!cond) stack v =
        D.branch target cond stack (D.negate v) := by
      intro v
      simp only [branch, D.truthy_negate]
      cases D.truthy v <;> cases cond <;> rfl
    simp [heffect, tests, thenGo, eval, hbranch]

/-! ### Boolean operations -/

/-- Each operand that decides jumps to the label, with the values that `exit` says. -/
theorem does_deciders (exit : ∀ V : Type, V → List V → List V) {body : ExprCode → Gen Unit}
    {decisive : Bool} (hl : l < n)
    (hbody : ∀ e ∈ es, (body (lowerExpr e)).Does c n (e.thenGo fun V D stack v =>
      if D.truthy v = decisive then .away l (exit V v stack) else .here stack)) :
    Gen.Does c n ((es.map lowerExpr).forM body) fun V D stack =>
      D.decider? decisive (es.map D.eval) >>= fun r =>
        pure (r.elim (.here stack) fun v => .away l (exit V v stack)) := by
  induction es with
  | nil =>
    intro s s' a hs _ hrun
    cases hrun
    exact ⟨[], .refl hs, fun V D stack => by simp [decider?]⟩
  | cons e es ih =>
    intro s s' a hs hn hrun
    obtain ⟨he, hes⟩ := forall_mem_cons.mp hbody
    obtain ⟨_, t, hfirst, hrest⟩ := bind_eq_ok.mp hrun
    obtain ⟨ps, hps, heffect⟩ := he hs hn hfirst
    obtain ⟨qs, hqs, heffect'⟩ := ih hes hps.chained (Nat.le_trans hn hps.grows.size) hrest
    refine ⟨_, hps.trans hqs, fun V D stack => ?_⟩
    have hpast := hqs.free (hps.known (Nat.lt_of_lt_of_le hl hn))
    simp only [run_append, heffect, map_cons, decider?, thenGo, bind_assoc, pure_bind]
    refine bind_congr fun v => ?_
    split
    · simp [run_away hpast]
    · exact heffect' V D stack

theorem does_loadBoolOp {op : BoolOp} (h : ∀ e ∈ es, Computes c e) :
    Gen.Does c n (loadBoolOp loc op (lowerExprs es)) (boolOp loc op es).loads := by
  intro s s' a hs hn hrun
  rw [lowerExprs_eq_map] at hrun
  rcases eq_nil_or_concat es with rfl | ⟨init, e, rfl⟩
  · cases hrun
  rw [concat_eq_append] at h hrun ⊢
  simp only [loadBoolOp, map_append, map_cons, map_nil, getLast?_concat, dropLast_concat] at hrun
  obtain ⟨done, s₁, hnew, hrun⟩ := bind_eq_ok.mp hrun
  obtain ⟨_, s₂, hinit, hrun⟩ := bind_eq_ok.mp hrun
  obtain ⟨_, s₃, hlast, hbind⟩ := bind_eq_ok.mp hrun
  obtain ⟨h₁, hdone, hwaits⟩ := laid_newLabel hs hnew
  have hbody : ∀ e ∈ init, Gen.Does c s₁.unit.graph.labels.size
      (do (lowerExpr e).load; emitJump (jumpIfOrPop (op = .or)) done loc)
      (e.thenGo fun V D stack v =>
        if D.truthy v = (op = .or : Bool) then .away done (v :: stack) else .here stack) := by
    intro e he t t' a ht _ hrun
    obtain ⟨_, u, hload, hjump⟩ := bind_eq_ok.mp hrun
    obtain ⟨ps, hps, heffect⟩ := (h e (mem_append_left _ he)).load ht (Nat.zero_le _) hload
    refine ⟨_, hps.trans (laid_emitJump hps.chained hjump), fun V D stack => ?_⟩
    simp [heffect, loads, thenGo]
  obtain ⟨ps, hps, heffect⟩ := does_deciders (fun _ v stack => v :: stack) hwaits.lt hbody
    h₁.chained (Nat.le_refl _) hinit
  obtain ⟨qs, hqs, heffect'⟩ := (h e (by simp)).load hps.chained (Nat.zero_le _) hlast
  have hlaid := (h₁.trans hps).trans hqs
  have hwaits₃ := hqs.keeps done (hps.keeps done hwaits)
  refine ⟨_, hlaid.bind hdone hwaits₃ hbind, fun V D stack => ?_⟩
  have hpast := hqs.free (hps.known hwaits.lt)
  simp only [run_append, run_nil, heffect, loads, thenGo, eval,
    evalAll_eq_map, map_append, map_cons, map_nil, firstOf_append,
    bind_assoc, pure_bind]
  refine bind_congr fun r => ?_
  cases r with
  | none => simp [heffect', loads, thenGo]
  | some v => simp [run_away hpast]

/-- An operand that decides jumps where the operation would, if that jumps for its outcome, and
past the last operand otherwise. -/
theorem does_jumpIfBoolOp {op : BoolOp} (htarget : target < n) (h : ∀ e ∈ es, Computes c e) :
    Gen.Does c n (jumpIfBoolOp op (lowerExprs es) target cond)
      ((boolOp loc op es).tests target cond) := by
  intro s s' a hs hn hrun
  rw [lowerExprs_eq_map] at hrun
  rcases eq_nil_or_concat es with rfl | ⟨init, e, rfl⟩
  · cases hrun
  rw [concat_eq_append] at h hrun ⊢
  simp only [jumpIfBoolOp, map_append, map_cons, map_nil, getLast?_concat, dropLast_concat] at hrun
  have hinit : ∀ e ∈ init, Computes c e := fun e he => h e (mem_append_left _ he)
  have hlast : Computes c e := h e (by simp)
  have hknown : target < s.unit.graph.labels.size := Nat.lt_of_lt_of_le htarget hn
  split at hrun
  · next hcond =>
    obtain ⟨_, s₁, hrun₁, hrun₂⟩ := bind_eq_ok.mp hrun
    obtain ⟨ps, hps, heffect⟩ := does_deciders (fun _ _ stack => stack) hknown
      (fun e he => (hinit e he).jumpIf _ hknown) hs (Nat.le_refl _) hrun₁
    obtain ⟨qs, hqs, heffect'⟩ :=
      hlast.jumpIf cond (hps.known hknown) hps.chained (Nat.le_refl _) hrun₂
    refine ⟨_, hps.trans hqs, fun V D stack => ?_⟩
    simp only [run_append, heffect, tests, thenGo, eval,
      evalAll_eq_map, map_append, map_cons, map_nil, firstOf_append,
      bind_assoc, pure_bind]
    refine D.decider?_congr ?_ fun v hv => ?_
    · exact heffect' V D stack
    · have hpast := hqs.free (hps.known hknown)
      simp [run_away hpast, branch, hv, hcond]
  · next hcond =>
    obtain ⟨past, s₁, hnew, hrun⟩ := bind_eq_ok.mp hrun
    obtain ⟨_, s₂, hrun₁, hrun⟩ := bind_eq_ok.mp hrun
    obtain ⟨_, s₃, hrun₂, hbind⟩ := bind_eq_ok.mp hrun
    obtain ⟨h₁, hpast, hwaits⟩ := laid_newLabel hs hnew
    obtain ⟨ps, hps, heffect⟩ := does_deciders (fun _ _ stack => stack) hwaits.lt
      (fun e he => (hinit e he).jumpIf _ hwaits.lt) h₁.chained (Nat.le_refl _) hrun₁
    obtain ⟨qs, hqs, heffect'⟩ := hlast.jumpIf cond (hps.known (h₁.known hknown)) hps.chained
      (Nat.le_refl _) hrun₂
    have hlaid := (h₁.trans hps).trans hqs
    have hwaits₃ := hqs.keeps past (hps.keeps past hwaits)
    refine ⟨_, hlaid.bind hpast hwaits₃ hbind, fun V D stack => ?_⟩
    simp only [run_append, run_nil, heffect, tests, thenGo, eval,
      evalAll_eq_map, map_append, map_cons, map_nil, firstOf_append,
      bind_assoc, pure_bind]
    refine D.decider?_congr ?_ fun v hv => ?_
    · simp only [Option.elim_none, heffect', tests, thenGo, bind_assoc, pure_bind]
      exact bind_congr fun v => run_label_of_within (within_branch hknown) hpast
    · have hfree := hqs.free (hps.known hwaits.lt)
      simp [run_away hfree, branch, hv, hcond]

/-! ### Conditional expressions -/

/-- Code that is done goes past the code in which a label lands. -/
theorem exists_landing {s₂ s₃ s₄ : GenState} {ps : List Piece} {done other : Label}
    {a₁ a₂ a₃ : Unit} {fix : Effect} (h : Laid c s s₁ ps)
    (hother : s.unit.graph.labels.size ≤ other) (hwaits : s₁.unit.graph.Waits other)
    (hdone : s.unit.graph.labels.size ≤ done) (hwaits' : s₁.unit.graph.Waits done)
    (hne : done ≠ other) (hjump : emitJump PseudoOp.jumpNoInterrupt done .none c s₁ = .ok (a₁, s₂))
    (hbind : bindLabel other c s₂ = .ok (a₂, s₃))
    (hfix : s.unit.graph.labels.size ≤ s₃.unit.graph.labels.size → s₃.unit.graph.Chained →
      ∃ xs, Laid c s₃ s₄ xs ∧ ∀ V (D : Oracle V) stack, D.run xs (.here stack) = fix V D stack)
    (hbind' : bindLabel done c s₄ = .ok (a₃, s')) :
    ∃ qs, Laid c s s' (ps ++ qs) ∧ ∀ V (D : Oracle V) stack,
      D.run qs (.here stack) = pure (.here stack) ∧
      D.run qs (.away other stack) = fix V D stack >>= D.run [.label done] ∧
      ∀ l, l < s.unit.graph.labels.size → D.run qs (.away l stack) = pure (.away l stack) := by
  have h₂ := laid_emitJump h.chained hjump
  have hwaits₂ := h₂.keeps other hwaits
  have h₃ := (h.trans h₂).bind hother hwaits₂ hbind
  have hwaits₃ : s₃.unit.graph.Waits done :=
    (extends_bindLabel h₂.chained hwaits₂ hbind).2 done hne (h₂.keeps done hwaits')
  obtain ⟨xs, h₄, heffect⟩ := hfix h₃.grows.size h₃.chained
  have hlaid := (h₃.trans h₄).bind hdone (h₄.keeps done hwaits₃) hbind'
  simp only [append_assoc] at hlaid
  refine ⟨_, hlaid, fun V D stack => ?_⟩
  have hskip {l : Label} (hl : l < s₃.unit.graph.labels.size) :
      D.run xs (.away l stack) = pure (.away l stack) := run_away (h₄.free hl)
  refine ⟨?_, ?_, fun l hl => ?_⟩
  · simp only [run_append, run_jumpNoInterrupt, run_label_away, pure_bind, if_neg hne.symm,
      hskip hwaits₃.lt, if_true]
  · simp only [run_append, run_instr_away, run_label_away, pure_bind, if_true, heffect]
  · have hne₁ : other ≠ l := Nat.ne_of_gt (Nat.lt_of_lt_of_le hl hother)
    have hne₂ : done ≠ l := Nat.ne_of_gt (Nat.lt_of_lt_of_le hl hdone)
    simp only [run_append, run_instr_away, run_label_away, pure_bind, if_neg hne₁,
      hskip (h₃.known hl), if_neg hne₂]

theorem does_chooseBy {test body orElse : Expr ScopeId} {m m' : Gen Unit}
    {next : ∀ V : Type, Oracle V → List V → V → Control V} (htest : Computes c test)
    (hbody : m.Does c n (body.thenGo next)) (horElse : m'.Does c n (orElse.thenGo next))
    (hnext : ∀ V D stack v, Within n (next V D stack v)) :
    Gen.Does c n (chooseBy (lowerExpr test) m m')
      ((conditional loc test body orElse).thenGo next) := by
  intro s s' a hs hn hrun
  simp only [chooseBy, bind_eq_ok] at hrun
  obtain ⟨done, s₁, hnew, other, s₂, hnew', _, s₃, hrun₁, _, s₄, hrun₂, _, s₅, hjump, _, s₆, hbind,
    _, s₇, hrun₃, hbind'⟩ := hrun
  obtain ⟨h₁, hdone, hwaits⟩ := laid_newLabel hs hnew
  obtain ⟨h₂, hother, hwaits'⟩ := laid_newLabel h₁.chained hnew'
  obtain ⟨ps, hps, htests⟩ := htest.jumpIf false hwaits'.lt h₂.chained (Nat.le_refl _) hrun₁
  have hlaid := (h₁.trans h₂).trans hps
  obtain ⟨qs, hqs, hthen⟩ := hbody hps.chained (Nat.le_trans hn hlaid.grows.size) hrun₂
  have hkeeps := (hps.trans hqs).keeps
  obtain ⟨ts, hts, hlands⟩ := exists_landing (hlaid.trans hqs)
    (Nat.le_trans h₁.grows.size hother) (hkeeps other hwaits') hdone
    (hkeeps done (h₂.keeps done hwaits)) (Nat.ne_of_lt (Nat.lt_of_lt_of_le hwaits.lt hother)) hjump
    hbind (fun hsize hchained => horElse hchained (Nat.le_trans hn hsize) hrun₃) hbind'
  refine ⟨_, hts, fun V D stack => ?_⟩
  simp only [run_append, run_nil, htests, tests, thenGo, eval, bind_assoc, pure_bind]
  refine bind_congr fun v => ?_
  by_cases hv : D.truthy v = true
  · have hbranch : D.branch other false stack v = .here stack := by simp [branch, hv]
    rw [hbranch, if_pos hv, hthen, thenGo, bind_assoc]
    refine bind_congr fun w => ?_
    rw [pure_bind]
    have hwithin := hnext V D stack w
    cases hw : next V D stack w with
    | here st => exact (hlands V D st).1
    | away l st =>
      rw [hw] at hwithin
      exact (hlands V D st).2.2 l (Nat.lt_of_lt_of_le hwithin hn)
  · have hbranch : D.branch other false stack v = .away other stack := by simp [branch, hv]
    have hskip : D.run qs (.away other stack) = pure (.away other stack) :=
      run_away (hqs.free (hps.known hwaits'.lt))
    rw [hbranch, hskip, if_neg hv, pure_bind, (hlands V D stack).2.1, thenGo, bind_assoc]
    refine bind_congr fun w => ?_
    rw [pure_bind]
    exact run_label_of_within (hnext V D stack w) (Nat.le_trans hn hdone)

/-! ### Comparisons -/

theorem unit_warn {caution : Caution} (hrun : warn caution loc c s = .ok (a, s')) :
    s'.unit = s.unit := by
  obtain ⟨context, t, hread, hrun⟩ := bind_eq_ok.mp hrun
  cases hread
  by_cases herror : c.options.warningsAsErrors
  · rw [if_pos herror] at hrun
    cases hrun
  · rw [if_neg herror] at hrun
    cases hrun
    rfl

theorem unit_warnIdentity {left : ExprCode}
    (hrun : warnIdentity loc left ops rights c s = .ok (a, s')) : s'.unit = s.unit := by
  induction ops generalizing left rights s with
  | nil =>
    cases hrun
    rfl
  | cons op ops ih =>
    cases rights with
    | nil =>
      cases hrun
      rfl
    | cons right rights =>
      unfold warnIdentity at hrun
      split_ifs at hrun
      · cases op
        case is | isNot =>
          obtain ⟨_, t, hwarn, hrest⟩ := bind_eq_ok.mp hrun
          exact (ih hrest).trans (unit_warn hwarn)
        all_goals exact ih hrun
      · exact ih hrun

theorem laid_warnIdentity {left : ExprCode} (hs : s.unit.graph.Chained)
    (hrun : warnIdentity loc left ops rights c s = .ok (a, s')) : Laid c s s' [] := by
  have hunit := unit_warnIdentity hrun
  refine ⟨?_, fun l hl => hunit ▸ hl, fun l hl => ?_, forall_mem_nil _⟩
  · rw [hunit]
    exact .refl hs
  · cases hl

/-- The instruction jumps to the label if a comparison has failed, with the values that `exit`
says. -/
def Instr.LeavesOnFailure (l : Label) (exit : ∀ V : Type, V → List V → List V) (i : Instr) : Prop :=
  ∀ V (D : Oracle V) v stack, D.run [.instr i] (.here (v :: stack)) =
    pure (if D.truthy v then .here stack else .away l (exit V v stack))

/-- Each comparison has the right operand of the one before on the stack, and leaves its own. -/
theorem exists_links {op : Operation}
    (hchecks : Instr.LeavesOnFailure l exit { op := op, arg := l, loc := loc })
    {steps : List (CompareOp × Expr ScopeId)} (h : ∀ x ∈ steps, Computes c x.2)
    (hs : s.unit.graph.Chained) (hl : l < s.unit.graph.labels.size)
    (hrun : compareEach (steps.map (map id lowerExpr)) (emitJump op l loc) loc c s = .ok (a, s')) :
    ∃ ps, Laid c s s' ps ∧ ∀ V (D : Oracle V) left stack, D.run ps (.here (left :: stack)) =
      (D.links left (steps.map (map id D.eval)) >>= fun r =>
        pure (r.2.elim (.here (r.1 :: stack)) fun v => .away l (exit V v (r.1 :: stack)))) := by
  induction steps generalizing s with
  | nil =>
    cases hrun
    exact ⟨[], .refl hs, fun V D left stack => by simp [links]⟩
  | cons step steps ih =>
    obtain ⟨cmp, e⟩ := step
    obtain ⟨he, hsteps⟩ := forall_mem_cons.mp h
    obtain ⟨_, t, hstep, hrest⟩ := bind_eq_ok.mp hrun
    simp only [bind_eq_ok] at hstep
    obtain ⟨_, s₁, hload, _, s₂, hswap, _, s₃, hcopy, _, s₄, hcompare, hjump⟩ := hstep
    obtain ⟨ps, hps, heffect⟩ := he.load hs (Nat.zero_le _) hload
    have h₂ := hps.trans (laid_emit hps.chained hswap)
    have h₃ := h₂.trans (laid_emit h₂.chained hcopy)
    have h₄ := h₃.trans (laid_emitCompare h₃.chained hcompare)
    have h₅ := h₄.trans (laid_emitJump h₄.chained hjump)
    obtain ⟨qs, hqs, heffect'⟩ := ih hsteps h₅.chained (h₅.known hl) hrest
    refine ⟨_, h₅.trans hqs, fun V D left stack => ?_⟩
    have hpast : ∀ st, D.run qs (.away l st) = pure (.away l st) :=
      fun st => run_away (hqs.free (h₅.known hl))
    simp only [run_append, heffect, loads, thenGo, bind_assoc, pure_bind,
      run_swap, run_copy, run_compare, hchecks V D, map_cons,
      map_apply, id, links]
    refine bind_congr fun right => bind_congr fun v => ?_
    split
    · exact heffect' V D right stack
    · simp [hpast]

/-- The comparisons of a chain. The last leaves its value. -/
theorem exists_comparisons {op : Operation}
    (hchecks : Instr.LeavesOnFailure l exit { op := op, arg := l, loc := loc })
    {init : List (CompareOp × Expr ScopeId)} {cmp : CompareOp} {last : Expr ScopeId}
    (hinit : ∀ x ∈ init, Computes c x.2) (hlast : Computes c last) {s₂ : GenState} {a₁ a₂ a₃ : Unit}
    (hs : s.unit.graph.Chained) (hl : l < s.unit.graph.labels.size)
    (heach : compareEach (init.map (map id lowerExpr)) (emitJump op l loc) loc c s =
      .ok (a₁, s₁)) (hright : (lowerExpr last).load c s₁ = .ok (a₂, s₂))
    (hcompare : emitCompare cmp loc c s₂ = .ok (a₃, s')) :
    ∃ ps, Laid c s s' ps ∧ ∀ V (D : Oracle V) left stack, D.run ps (.here (left :: stack)) =
      (D.links left (init.map (map id D.eval)) >>= fun r =>
        r.2.elim (D.eval last >>= fun right => D.compare cmp r.1 right >>= fun v =>
          pure (.here (v :: stack))) fun v => pure (.away l (exit V v (r.1 :: stack)))) := by
  obtain ⟨ps, hps, hlinks⟩ := exists_links hchecks hinit hs hl heach
  obtain ⟨qs, hqs, heffect⟩ := hlast.load hps.chained (Nat.zero_le _) hright
  refine ⟨_, (hps.trans hqs).trans (laid_emitCompare hqs.chained hcompare),
    fun V D left stack => ?_⟩
  have hskip : ∀ st, D.run qs (.away l st) = pure (.away l st) :=
    fun st => run_away (hqs.free (hps.known hl))
  simp only [run_append, hlinks, bind_assoc, pure_bind]
  refine bind_congr fun r => ?_
  cases r.2 with
  | none => simp [heffect, loads, thenGo]
  | some v => simp [hskip]

theorem zip_lowerExprs : ops.zip (lowerExprs es) = (ops.zip es).map (map id lowerExpr) := by
  rw [lowerExprs_eq_map, zip_map_right]

/-- The comparisons of a chain, if there are any, up to the last and the last. -/
theorem zip_eq_nil_or_append (h : ∀ e ∈ es, Computes c e) : ops.zip es = [] ∨ ∃ init op last,
    ops.zip es = init ++ [(op, last)] ∧ (∀ x ∈ init, Computes c x.2) ∧ Computes c last := by
  rcases eq_nil_or_concat (ops.zip es) with hzip | ⟨init, ⟨op, last⟩, hzip⟩
  · exact .inl hzip
  have hsteps : ∀ x ∈ ops.zip es, Computes c x.2 := fun x hx => h x.2 (of_mem_zip hx).2
  rw [hzip, concat_eq_append, forall_mem_append, forall_mem_singleton] at hsteps
  exact .inr ⟨init, op, last, hzip.trans concat_eq_append, hsteps⟩

theorem does_loadCompare (he : Computes c e) (h : ∀ e ∈ es, Computes c e) :
    Gen.Does c n (loadCompare loc (lowerExpr e) ops (lowerExprs es))
      (compare loc e ops es).loads := by
  intro s s' a hs _ hrun
  simp only [loadCompare, zip_lowerExprs] at hrun
  rcases zip_eq_nil_or_append h with hzip | ⟨init, op, last, hzip, hinit, hlast⟩
  · rw [hzip] at hrun
    cases hrun
  simp only [hzip, map_append, map_cons, map_nil, getLast?_concat,
    dropLast_concat, map_apply, id] at hrun
  split_ifs at hrun with hlength hone hone
  · cases hrun
  · cases hrun
  · obtain ⟨_, s₁, hwarn, hrun⟩ := bind_eq_ok.mp hrun
    obtain ⟨_, s₂, hleft, hrun⟩ := bind_eq_ok.mp hrun
    obtain ⟨_, s₃, hright, hcompare⟩ := bind_eq_ok.mp hrun
    obtain rfl : init = [] := by
      have hlen := congrArg List.length hzip
      simp only [length_zip, length_append, length_singleton] at hlen
      exact length_eq_zero_iff.mp (by omega)
    have h₁ := laid_warnIdentity hs hwarn
    obtain ⟨ps, hps, heffect⟩ := he.load h₁.chained (Nat.zero_le _) hleft
    obtain ⟨qs, hqs, heffect'⟩ := hlast.load hps.chained (Nat.zero_le _) hright
    refine ⟨_, ((h₁.trans hps).trans hqs).trans (laid_emitCompare hqs.chained hcompare),
      fun V D stack => ?_⟩
    simp [heffect, heffect', loads, thenGo, eval, evalAll_eq_map, zip_map_right, hzip, chain]
  · simp only [bind_eq_ok] at hrun
    obtain ⟨_, s₁, hwarn, _, s₂, hleft, cleanup, s₃, hnew, _, s₄, heach, _, s₅, hright, _, s₆,
      hcompare, done, s₇, hnew', _, s₈, hjump, _, s₉, hbind, _, t₁, hswap, _, t₂, hpop,
      hbind'⟩ := hrun
    have h₁ := laid_warnIdentity hs hwarn
    obtain ⟨ps, hps, heffect⟩ := he.load h₁.chained (Nat.zero_le _) hleft
    obtain ⟨h₃, hcleanup, hwaits⟩ := laid_newLabel hps.chained hnew
    have hchecks : Instr.LeavesOnFailure cleanup (fun _ v stack => v :: stack)
        { op := Opcode.jumpIfFalseOrPop, arg := cleanup, loc := loc } :=
      fun _ _ _ _ => run_instr
    obtain ⟨qs, hqs, hlinks⟩ :=
      exists_comparisons hchecks hinit hlast h₃.chained hwaits.lt heach hright hcompare
    obtain ⟨h₇, hdone, hwaits'⟩ := laid_newLabel hqs.chained hnew'
    have hlaid := ((h₁.trans hps).trans h₃).trans hqs
    obtain ⟨ts, hts, hlands⟩ := exists_landing (hlaid.trans h₇)
      (Nat.le_trans (h₁.trans hps).grows.size hcleanup) ((hqs.trans h₇).keeps cleanup hwaits)
      (Nat.le_trans hlaid.grows.size hdone) hwaits'
      (Nat.ne_of_gt (Nat.lt_of_lt_of_le (hqs.known hwaits.lt) hdone)) hjump hbind
      (fun _ h => ⟨_, (laid_emit h hswap).trans (laid_emit (laid_emit h hswap).chained hpop),
        fun _ _ _ => rfl⟩) hbind'
    refine ⟨_, hts, fun V D stack => ?_⟩
    simp only [run_append, run_nil, heffect, loads, thenGo, eval,
      evalAll_eq_map, zip_map_right, hzip, map_append, map_cons,
      map_nil, map_apply, id, chain_append, bind_assoc, pure_bind, hlinks]
    refine bind_congr fun v => bind_congr fun r => ?_
    obtain ⟨w, r⟩ := r
    cases r with
    | none => simp [(hlands V D _).1]
    | some u =>
      simp only [Option.elim_some, pure_bind, (hlands V D _).2.1, run_append, run_swap, run_popTop,
        run_label_here]

/-- After a comparison that failed, its right operand is taken off. -/
theorem exists_drop {done : Label} {b : Unit} (hpop : emit .popTop 0 loc c s = .ok (a, s₁))
    (hrun : (if !cond then do
        emitJump PseudoOp.jumpNoInterrupt target .none
        bindLabel done
      else bindLabel done : Gen Unit) c s₁ = .ok (b, s')) :
    ∃ s₂ xs, bindLabel done c s₂ = .ok (b, s') ∧
      (s.unit.graph.Chained → Laid c s s₂ xs) ∧
      ∀ V (D : Oracle V) v stack, D.run xs (.here (v :: stack)) =
        pure (if cond then .here stack else .away target stack) := by
  cases cond with
  | true => exact ⟨s₁, _, hrun, fun hs => laid_emit hs hpop, fun V D v stack => by simp⟩
  | false =>
    obtain ⟨_, s₂, hjump, hbind⟩ := bind_eq_ok.mp hrun
    refine ⟨s₂, _, hbind, fun hs => (laid_emit hs hpop).trans
      (laid_emitJump (laid_emit hs hpop).chained hjump), fun V D v stack => ?_⟩
    rw [run_append, run_popTop, pure_bind, run_jumpNoInterrupt]
    rfl

theorem does_jumpIfChain (htarget : target < n) (he : Computes c e) (h : ∀ e ∈ es, Computes c e) :
    Gen.Does c n (jumpIfChain loc (lowerExpr e) ops (lowerExprs es) target cond)
      ((compare loc e ops es).tests target cond) := by
  intro s s' a hs hn hrun
  simp only [jumpIfChain, zip_lowerExprs] at hrun
  rcases zip_eq_nil_or_append h with hzip | ⟨init, op, last, hzip, hinit, hlast⟩
  · rw [hzip] at hrun
    cases hrun
  simp only [hzip, map_append, map_cons, map_nil, getLast?_concat,
    dropLast_concat, map_apply, id] at hrun
  simp only [bind_eq_ok] at hrun
  obtain ⟨_, s₁, hwarn, cleanup, s₂, hnew, _, s₃, hleft, _, s₄, heach, _, s₅, hright, _, s₆,
    hcompare, _, s₇, htest, done, s₈, hnew', _, s₉, hjump, _, t₁, hbind, _, t₂, hpop, hrun⟩ := hrun
  have h₁ := laid_warnIdentity hs hwarn
  obtain ⟨h₂, hcleanup, hwaits⟩ := laid_newLabel h₁.chained hnew
  obtain ⟨ps, hps, heffect⟩ := he.load h₂.chained (Nat.zero_le _) hleft
  have hchecks : Instr.LeavesOnFailure cleanup (fun _ _ stack => stack)
      { op := PseudoOp.popJumpIfFalse, arg := cleanup, loc := loc } := by
    intro V D v stack
    rw [run_instr]
    cases hv : D.truthy v <;> simp [step, branch, hv]
  obtain ⟨qs, hqs, hlinks⟩ := exists_comparisons hchecks hinit hlast hps.chained
    (hps.known hwaits.lt) heach hright hcompare
  have hlaid := (hps.trans hqs).trans (laid_emitJump hqs.chained htest)
  obtain ⟨t₃, xs, hbind', hfix, hdrop⟩ := exists_drop hpop hrun
  obtain ⟨h₈, hdone, hwaits'⟩ := laid_newLabel hlaid.chained hnew'
  have hlaid' := (h₁.trans h₂).trans hlaid
  obtain ⟨ts, hts, hlands⟩ := exists_landing (hlaid'.trans h₈)
    (Nat.le_trans h₁.grows.size hcleanup) ((hlaid.trans h₈).keeps cleanup hwaits)
    (Nat.le_trans hlaid'.grows.size hdone) hwaits'
    (Nat.ne_of_gt (Nat.lt_of_lt_of_le (hlaid.known hwaits.lt) hdone)) hjump hbind
    (fun _ h => ⟨xs, hfix h, fun _ _ _ => rfl⟩) hbind'
  have hknown : target < s.unit.graph.labels.size := Nat.lt_of_lt_of_le htarget hn
  refine ⟨_, hts, fun V D stack => ?_⟩
  simp only [run_append, run_nil, heffect, loads, tests, thenGo,
    eval, evalAll_eq_map, zip_map_right, hzip, map_append, map_cons,
    map_nil, map_apply, id, chain_append, bind_assoc, pure_bind, hlinks]
  refine bind_congr fun v => D.links_congr (fun w => ?_) fun w u hu => ?_
  · simp only [Option.elim_none, bind_assoc, pure_bind, run_popJumpIf]
    refine bind_congr fun right => bind_congr fun u => ?_
    unfold branch
    split
    · exact (hlands V D stack).2.2 target hknown
    · exact (hlands V D stack).1
  · have hwithin : Within s.unit.graph.labels.size (D.branch target cond stack u) :=
      within_branch hknown
    have hbranch : D.run xs (.here (w :: stack)) = pure (D.branch target cond stack u) := by
      rw [hdrop]
      cases cond <;> simp [branch, hu]
    simp only [Option.elim_some, pure_bind, run_instr_away]
    rw [(hlands V D _).2.1, hbranch, pure_bind]
    exact run_label_of_within hwithin (Nat.le_trans hlaid'.grows.size hdone)

end

end Bytecode
