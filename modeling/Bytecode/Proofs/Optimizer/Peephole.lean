import Bytecode.Proofs.Optimizer.Constants
import Bytecode.Proofs.Optimizer.Shuffles

/-!
# Peephole simplification

What a simplification puts in the place of instructions does the same from every state that the
instructions before can lead to: a constant that was pushed decides a condition, and the tuple of
the constants that were pushed is itself a constant.
-/

namespace Bytecode

open List Result Machine Operation Step Instr

variable {V W E : Type} {M : Machine V W E} {cs cs' values : List Constant} {i j : Instr}
  {op : Operation} {done loads : List Instr} {outcome : Bool} {index : Nat}

namespace Machine

variable {cs cs' : List Constant}

/-- From a state, the instruction pushes the constant at an index, unless it goes wrong. -/
def PushesAt (M : Machine V W E) (cs : List Constant) (i : Instr) (index : Nat)
    (s : State V W E) : Prop :=
  M.exec cs i s = .wrong ∨ ∃ c, cs[index]? = some c ∧ M.exec cs i s = .next (s.push (M.const c))

/-! What the jumps and the comparison do to a stack with enough values. -/

section

variable {i : Instr} (s : State V W E) (v w : V)

theorem exec_popJump (h : i.op.meaning = .popJump outcome) :
    M.exec cs i (s.push v) = if M.truthy v = outcome then s.leap i.target else .next s := by
  simp only [exec, h]
  rfl

theorem exec_keepJump (h : i.op.meaning = .keepJump outcome) :
    M.exec cs i (s.push v) =
      if M.truthy v = outcome then (s.push v).leap i.target else .next s := by
  simp only [exec, h]
  rfl

theorem exec_noneJump {onNone : Bool} (h : i.op.meaning = .noneJump onNone) :
    M.exec cs i (s.push v) =
      if M.same v (M.const .none) = onNone then s.leap i.target else .next s := by
  simp only [exec, h]
  rfl

theorem exec_identity (h : i.op.meaning = .identity) :
    M.exec cs i ((s.push v).push w) =
      .next (s.push (M.const (.bool (M.same v w == (i.arg == 0))))) := by
  simp only [exec, h]
  rfl

theorem exec_answer (h : i.op.meaning = .answer) :
    M.exec cs i (s.push v) = s.finish (.returned v) := by
  simp only [exec, h]
  rfl

end

theorem pushesAt_loadConst (hi : i.op = .real .loadConst) (s : State V W E) :
    M.PushesAt cs i i.arg s := by
  simp only [PushesAt, exec, hi, meaning]
  cases cs[i.arg]? with
  | none => exact .inl rfl
  | some c => exact .inr ⟨c, rfl, rfl⟩

theorem pushesAt_copy (hi : i.op = .real .copy) (harg : i.arg = 1) {s : State V W E} {c : Constant}
    {rest : List V} (hc : cs[index]? = some c) (hs : s.stack = M.const c :: rest) :
    M.PushesAt cs i index s := by
  right
  refine ⟨c, hc, ?_⟩
  simp [exec, hi, meaning, harg, hs]

end Machine

theorem meaning_of_popJumpOutcome? (h : popJumpOutcome? op = some outcome) :
    op.meaning = .popJump outcome := by
  unfold popJumpOutcome? at h
  split at h <;> cases h <;> rfl

theorem meaning_of_jumpOrPopOutcome? (h : jumpOrPopOutcome? op = some outcome) :
    op.meaning = .keepJump outcome := by
  unfold jumpOrPopOutcome? at h
  split at h <;> cases h <;> rfl

/-! ### After a constant -/

section

variable {cs : List Constant} {i j k : Instr} {rest : List Instr} {index : Nat} {c : Constant}
  {outcome : Bool} {s : State V W E}

theorem refinesAt_popJump (hi : M.PushesAt cs i index s) (hc : cs[index]? = some c)
    (hj : popJumpOutcome? j.op = some outcome) :
    M.RefinesAt cs (i :: j :: rest) cs (i.toNop ::
      (if c.isTruthy = outcome then { j with op := .pseudo .jump } else j.toNop) :: rest) s := by
  intro hs
  rcases hi with hw | ⟨c', hc', hpush⟩
  · exact absurd (by rw [run_cons, hw]; rfl) hs
  obtain rfl : c' = c := Option.some.inj (hc'.symm.trans hc)
  simp only [run_cons, hpush, exec_toNop, andThen,
    M.exec_popJump s _ (meaning_of_popJumpOutcome? hj), M.truthy_const]
  split_ifs with htruthy
  · rw [M.exec_jump rfl]
  · rw [M.exec_toNop]

theorem refinesAt_jumpOrPop (hi : M.PushesAt cs i index s) (hc : cs[index]? = some c)
    (hj : jumpOrPopOutcome? j.op = some outcome) :
    M.RefinesAt cs (i :: j :: rest) cs
      (if c.isTruthy = outcome then i :: { j with op := .pseudo .jump } :: rest
        else i.toNop :: j.toNop :: rest) s := by
  intro hs
  rcases hi with hw | ⟨c', hc', hpush⟩
  · exact absurd (by rw [run_cons, hw]; rfl) hs
  obtain rfl : c' = c := Option.some.inj (hc'.symm.trans hc)
  simp only [run_cons, hpush, andThen,
    M.exec_keepJump s _ (meaning_of_jumpOrPopOutcome? hj), M.truthy_const]
  split_ifs with htruthy
  · simp only [run_cons, hpush, andThen]
    rw [M.exec_jump rfl]
  · simp [andThen]

theorem meaning_noneJumpIf (onNone : Bool) : (noneJumpIf onNone).meaning = .noneJump onNone := by
  cases onNone <;> rfl

/-- A comparison with `None` and the jump on its outcome are one jump. -/
theorem refinesAt_isNone (hi : M.PushesAt cs i index s) (hc : cs[index]? = some .none)
    (hj : j.op = .real .isOp) (hk : popJumpOutcome? k.op = some outcome) :
    M.RefinesAt cs (i :: j :: k :: rest) cs
      (i.toNop :: j.toNop :: { k with op := noneJumpIf (outcome == (j.arg == 0)) } :: rest) s := by
  intro hs
  rcases hi with hw | ⟨c', hc', hpush⟩
  · exact absurd (by rw [run_cons, hw]; rfl) hs
  obtain rfl : c' = .none := Option.some.inj (hc'.symm.trans hc)
  have hmeaning : j.op.meaning = .identity := by rw [hj]; rfl
  cases hstack : s.stack with
  | nil =>
    -- There is nothing to compare.
    refine absurd ?_ hs
    rw [run_cons, hpush]
    simp [andThen, exec, hmeaning, State.push, hstack]
  | cons v stack =>
    obtain ⟨t, rfl⟩ : ∃ t : State V W E, s = t.push v :=
      ⟨{ s with stack := stack }, by rw [State.push, ← hstack]⟩
    have hnew : M.exec cs { k with op := noneJumpIf (outcome == (j.arg == 0)) } (t.push v) =
        if M.same v (M.const .none) = (outcome == (j.arg == 0)) then t.leap k.target
        else .next t :=
      M.exec_noneJump t v (meaning_noneJumpIf _)
    simp only [run_cons, hpush, exec_toNop, andThen, hnew,
      M.exec_identity _ v _ hmeaning, M.exec_popJump _ _ (meaning_of_popJumpOutcome? hk),
      M.truthy_const, Constant.isTruthy]
    cases M.same v (M.const .none) <;> cases outcome <;> cases j.arg == 0 <;> rfl

theorem refinesAt_return (hi : M.PushesAt cs i index s) (hj : j.op = .real .returnValue) :
    M.RefinesAt cs (i :: j :: rest) cs (i.toNop :: j.become .returnConst index :: rest) s := by
  intro hs
  rcases hi with hw | ⟨c, hc, hpush⟩
  · exact absurd (by rw [run_cons, hw]; rfl) hs
  have hmeaning : j.op.meaning = .answer := by rw [hj]; rfl
  simp only [run_cons, hpush, exec_toNop, andThen, M.exec_answer s _ hmeaning]
  simp only [exec, become, meaning, hc]

end

/-- After the instructions, the constant at an index is on top of the stack. -/
def Tops (cs : List Constant) (is : List Instr) (index : Nat) : Prop :=
  ∀ ⦃V W E : Type⦄ (M : Machine V W E) (s t : State V W E), M.run cs is s = .next t →
    ∃ c rest, cs[index]? = some c ∧ t.stack = M.const c :: rest

namespace Cursor

/-- After the instructions that are passed, the given one pushes the constant at an index. -/
def Pushes (c : Cursor) (i : Instr) (index : Nat) : Prop :=
  ∀ ⦃V W E : Type⦄ (M : Machine V W E) (s t : State V W E),
    M.run c.constants c.passed.reverse s = .next t → M.PushesAt c.constants i index t

variable {c c' : Cursor} {i : Instr} {ahead : List Instr} {index : Nat}

@[simp] theorem instrs_pass (c : Cursor) (done ahead : List Instr) :
    (c.pass done ahead).instrs = c.passed.reverse ++ (done ++ ahead) := by
  simp [pass, instrs]

@[simp] theorem constants_pass (c : Cursor) (done ahead : List Instr) :
    (c.pass done ahead).constants = c.constants := rfl

/-- The step puts in place of what is ahead something as good, and a copy that is ahead afterwards
copies the constant at the index. -/
structure AfterConstant (c : Cursor) (index : Nat) (ahead : List Instr) (c' : Cursor) : Prop where
  constants : c'.constants = c.constants
  rewrites : Rewrites c.constants (c.passed.reverse ++ ahead) c.constants c'.instrs
  tops : ∀ k rest, c'.ahead = k :: rest → k.op = .real .copy →
    Tops c.constants c'.passed.reverse index

/-- A rewriting after which something else than a copy is ahead. -/
theorem AfterConstant.of_refinesAt {rest : List Instr} {x : Instr} (hx : x.op ≠ .real .copy)
    (hedits : Edits ahead (done ++ x :: rest))
    (hrefines : ∀ ⦃V W E : Type⦄ (M : Machine V W E) (s t : State V W E),
      M.run c.constants c.passed.reverse s = .next t →
        M.RefinesAt c.constants ahead c.constants (done ++ x :: rest) t) :
    AfterConstant c index ahead (c.pass done (x :: rest)) := by
  refine ⟨rfl, ?_, fun k rest' hk hcopy => absurd hcopy ?_⟩
  · rw [instrs_pass]
    exact .after hedits hrefines
  · obtain rfl : x = k := (List.cons.inj hk).1
    exact hx

/-- The instruction that pushes the constant is passed. -/
theorem AfterConstant.of_keep (hpush : c.Pushes i index) :
    AfterConstant c index (i :: ahead) (c.pass [i] ahead) := by
  refine ⟨rfl, by simpa using .refl _ _, fun _ _ _ _ V W E M s t hrun => ?_⟩
  rw [show (c.pass [i] ahead).passed.reverse = c.passed.reverse ++ [i] by simp [pass],
    M.run_append] at hrun
  cases hpassed : M.run c.constants c.passed.reverse s with
  | next u =>
    rw [hpassed] at hrun
    rcases hpush M s u hpassed with hw | ⟨v, hv, hexec⟩
    · simp [andThen, hw] at hrun
    · simp only [andThen, run_cons, hexec, run_nil, next.injEq] at hrun
      exact ⟨v, u.stack, hv, by rw [← hrun]; rfl⟩
  | jump | done | wrong => simp [hpassed, andThen] at hrun

theorem tops_returnConst (cs : List Constant) (is : List Instr) (j : Instr) (k index : Nat) :
    Tops cs (is ++ [j.become .returnConst k]) index := by
  intro V W E M s t hrun
  have hend : ∀ u : State V W E, M.run cs [j.become .returnConst k] u ≠ .next t := by
    intro u
    simp only [run_cons, exec, become, meaning]
    cases cs[k]? <;> exact fun h => by cases h
  rw [M.run_append] at hrun
  cases hpassed : M.run cs is s with
  | next u =>
    rw [hpassed] at hrun
    exact absurd hrun (hend u)
  | jump | done | wrong => simp [hpassed, andThen] at hrun

theorem afterConstant_spec (hi : i.op.isPlain) (hpush : c.Pushes i index)
    (h : c.afterConstant index i ahead = .ok c') : AfterConstant c index (i :: ahead) c' := by
  have hnop : Recasts i i.toNop := .toNop (.inl hi)
  unfold afterConstant at h
  split at h
  · cases h
    exact .of_keep hpush
  · rename_i j rest
    split at h
    · rename_i outcome _ _ hj
      obtain ⟨value, hvalue, h⟩ := bind_eq_ok.mp h
      cases h
      have hc := Result.require_eq_ok.mp hvalue
      have htest := isTest_of_popJumpOutcome? hj
      refine .of_refinesAt ?_ (.recast (.cons hnop (.cons ?_ (Recasts.refl_list rest))))
        fun _ _ _ M s t hrun => refinesAt_popJump (hpush M s t hrun) hc hj
      · split_ifs <;> nofun
      · split_ifs
        · exact .test htest (.inr rfl)
        · exact .toNop (.inr htest)
    · rename_i outcome hj _
      obtain ⟨value, hvalue, h⟩ := bind_eq_ok.mp h
      have hc := Result.require_eq_ok.mp hvalue
      have htest := isTest_of_jumpOrPopOutcome? hj
      have hrefines : ∀ ⦃V W E : Type⦄ (M : Machine V W E) (s t : State V W E),
          M.run c.constants c.passed.reverse s = .next t →
          M.RefinesAt c.constants (i :: j :: rest) c.constants
            (if value.isTruthy = outcome then i :: { j with op := .pseudo .jump } :: rest
              else i.toNop :: j.toNop :: rest) t :=
        fun _ _ _ M s t hrun => refinesAt_jumpOrPop (hpush M s t hrun) hc hj
      split_ifs at h hrefines
      · cases h
        exact .of_refinesAt nofun (.recast (.cons (.refl i) (.cons (.test htest (.inr rfl))
          (Recasts.refl_list rest)))) hrefines
      · cases h
        exact .of_refinesAt nofun (.recast (.cons hnop (.cons (.toNop (.inr htest))
          (Recasts.refl_list rest)))) hrefines
    · rename_i hj _ _
      obtain ⟨value, hvalue, hstep⟩ := bind_eq_ok.mp h
      clear h
      have hc := Result.require_eq_ok.mp hvalue
      split at hstep
      · rename_i k rest
        split at hstep
        · rename_i outcome hk
          split_ifs at hstep with hnone
          · cases hstep
            subst hnone
            refine .of_refinesAt nofun (.recast (.cons hnop (.cons (.toNop (.inl ?_)) (.cons
              (.test ?_ (.inl (isTest_noneJumpIf _))) (Recasts.refl_list rest)))))
              fun _ _ _ M s t hrun => refinesAt_isNone (hpush M s t hrun) hc hj hk
            · rw [hj]; rfl
            · exact isTest_of_popJumpOutcome? hk
          · cases hstep
            exact .of_keep hpush
        · cases hstep
          exact .of_keep hpush
      · cases hstep
        exact .of_keep hpush
    · rename_i hj _ _
      cases h
      refine ⟨rfl, ?_, fun k rest' _ _ => ?_⟩
      · rw [instrs_pass]
        exact .after (.recast (.cons hnop (.cons (.answer index hj) (Recasts.refl_list rest))))
          fun _ _ _ M s t hrun => refinesAt_return (hpush M s t hrun) hj
      · have hpassed : (c.pass [i.toNop, j.become .returnConst index] rest).passed.reverse =
            (c.passed.reverse ++ [i.toNop]) ++ [j.become .returnConst index] := by simp [pass]
        rw [hpassed]
        exact tops_returnConst _ _ j index index
    · cases h
      exact .of_keep hpush

end Cursor

/-! ### Tuples -/

theorem indexOfConstant_spec {c : Constant} (h : indexOfConstant cs c = .ok (index, cs')) :
    cs <+: cs' ∧ cs'[index]? = some c := by
  unfold indexOfConstant at h
  split at h
  · rename_i k hk
    cases h
    obtain ⟨hlt, hget, _⟩ := idxOf?_eq_some_iff.mp hk
    exact ⟨List.prefix_rfl, by rw [getElem?_eq_getElem hlt, hget]⟩
  · split_ifs at h
    · simp at h
    · cases h
      exact ⟨List.prefix_append .., by simp⟩

/-- Instructions that push constants push them one on the other. -/
theorem Machine.run_loads
    (h : Forall₂ (fun i c => i.op = .real .loadConst ∧ cs[i.arg]? = some c) loads values)
    (s : State V W E) :
    M.run cs loads s = .next { s with stack := (values.map M.const).reverse ++ s.stack } := by
  induction h generalizing s with
  | nil => rfl
  | cons hi _ ih =>
    simp only [run_cons, exec, hi.1, meaning, hi.2, andThen, ih]
    simp [State.push]

theorem Machine.run_toNop (cs : List Constant) (is : List Instr) (s : State V W E) :
    M.run cs (is.map toNop) s = .next s := by
  induction is with
  | nil => rfl
  | cons i is ih => rw [map_cons, run_cons, exec_toNop]; exact ih

/-- A tuple of constants that are pushed is one constant. -/
theorem refines_foldTuple
    (h : Forall₂ (fun i c => i.op = .real .loadConst ∧ cs[i.arg]? = some c) loads values)
    (hi : i.op = .real .buildTuple) (harg : i.arg = loads.length)
    (hindex : cs'[index]? = some (.tuple values)) :
    M.Refines cs (loads ++ [i]) cs' (loads.map toNop ++ [i.become .loadConst index]) := by
  have hlength : (values.map M.const).reverse.length = i.arg := by
    rw [length_reverse, length_map, harg, h.length_eq]
  refine .of_run_eq fun s => ?_
  rw [M.run_append, M.run_append, M.run_loads h, M.run_toNop]
  simp only [andThen, run_cons, exec, hi, become, meaning, hindex]
  rw [if_pos (by simp [← hlength]), ← hlength, take_left, drop_left, reverse_reverse, M.tuple_const]
  rfl

section

variable (hi : i.op = .real .buildTuple) (hj : j.op = .real .unpackSequence) (hij : j.arg = i.arg)
include hi hj hij

/-- A tuple that is unpacked at once reverses its items. -/
theorem Machine.run_pack (cs : List Constant) {s : State V W E} (hs : M.run cs [i, j] s ≠ .wrong) :
    i.arg ≤ s.stack.length ∧ M.run cs [i, j] s =
      .next { s with stack := (s.stack.take i.arg).reverse ++ s.stack.drop i.arg } := by
  simp only [run_cons, exec, hi, meaning] at hs ⊢
  split_ifs at hs ⊢ with hlength
  · refine ⟨hlength, ?_⟩
    have hunpack := M.unpack_tuple (s.stack.take i.arg).reverse
    rw [length_reverse, length_take, Nat.min_eq_left hlength] at hunpack
    simp only [andThen, run_cons, exec, hj, hij, meaning, hunpack,
      settle, State.after, State.view, run_nil, append_nil]
  · exact absurd rfl hs

theorem rewrites_packOne (harg : i.arg = 1) (cs : List Constant) :
    Rewrites cs [i, j] cs [i.toNop, j.toNop] := by
  refine ⟨.recast (.cons (.toNop (.inl ?_)) (.cons (.toNop (.inl ?_)) .nil)),
    fun V W E M s hs => ?_⟩
  · rw [hi]; rfl
  · rw [hj]; rfl
  · have hstack : (s.stack.take 1).reverse ++ s.stack.drop 1 = s.stack := by
      cases s.stack <;> rfl
    rw [(M.run_pack hi hj hij cs hs).2, harg, hstack]
    exact M.run_toNop cs [i, j] s

theorem rewrites_packSwap (harg : i.arg = 2 ∨ i.arg = 3) (cs : List Constant) :
    Rewrites cs [i, j] cs [i.toNop, { j with op := .real .swap }] := by
  refine ⟨.recast (.cons (.toNop (.inl ?_)) (.cons (.replace j.arg ?_ rfl) .nil)),
    fun V W E M s hs => ?_⟩
  · rw [hi]; rfl
  · rw [hj]; rfl
  · obtain ⟨hlength, hrun⟩ := M.run_pack hi hj hij cs hs
    rw [hrun]
    obtain ⟨n, hn, hshort⟩ : ∃ n, i.arg = n + 2 ∧ n ≤ 1 := ⟨i.arg - 2, by omega, by omega⟩
    rw [hn] at hlength ⊢
    obtain ⟨x, mid, y, tail, hstack, rfl⟩ := exists_split hlength
    have hmid : mid.reverse = mid := by
      cases mid with
      | nil => rfl
      | cons m mid =>
        obtain rfl : mid = [] := by simpa using hshort
        rfl
    have htake : (x :: (mid ++ y :: tail)).take (mid.length + 2) = x :: (mid ++ [y]) := by
      simp [take_append]
    have hdrop : (x :: (mid ++ y :: tail)).drop (mid.length + 2) = tail := by
      simp [drop_append]
    rw [run_cons, exec_toNop, hstack, htake, hdrop]
    simp only [andThen, run_cons, exec, meaning, hij, hn, hstack, exchangeTop_split]
    simp [hmid]

end

/-! ### One step -/

theorem Rewrites.extend (h : cs <+: cs') (is : List Instr) : Rewrites cs is cs' is :=
  ⟨.refl is, fun _ _ _ M => M.refines_extend h is⟩

namespace Cursor

variable {c c' : Cursor} {i : Instr} {ahead : List Instr}

/-- The block with its constants is as good after a step as before it. -/
structure Simplifies (c c' : Cursor) : Prop where
  grows : c.constants <+: c'.constants
  rewrites : Rewrites c.constants c.instrs c'.constants c'.instrs

theorem Simplifies.of_pass {ahead' : List Instr} (hc : c.ahead = ahead)
    (h : Rewrites c.constants ahead c.constants (done ++ ahead')) :
    c.Simplifies (c.pass done ahead') := by
  refine ⟨List.prefix_rfl, ?_⟩
  rw [instrs_pass, instrs, hc, constants_pass]
  exact (Rewrites.refl _ _).append h

theorem AfterConstant.simplifies (h : AfterConstant c index (i :: ahead) c')
    (hc : c.ahead = i :: ahead) : c.Simplifies c' := by
  refine ⟨by rw [h.constants], ?_⟩
  rw [instrs, hc, h.constants]
  exact h.rewrites

theorem simplifies_foldTuple (hi : i.op = .real .buildTuple) (hc : c.ahead = i :: ahead)
    (h : c.foldTuple i.arg i ahead = .ok c') : c.Simplifies c' := by
  unfold foldTuple at h
  dsimp only at h
  split_ifs at h with hfold
  · obtain ⟨values, hvalues, h⟩ := bind_eq_ok.mp h
    obtain ⟨⟨index, constants⟩, hindex, h⟩ := bind_eq_ok.mp h
    cases h
    obtain ⟨hgrows, hget⟩ := indexOfConstant_spec hindex
    have hloads : Forall₂
        (fun i v => i.op = .real .loadConst ∧ c.constants[i.arg]? = some v)
        (c.passed.take i.arg).reverse values := by
      have hmapped := mapM_eq_ok.mp hvalues
      refine forall₂_iff_get.mpr ⟨hmapped.length_eq, fun k hk hk' => ⟨?_, ?_⟩⟩
      · have hmem := mem_reverse.mp (get_mem (c.passed.take i.arg).reverse ⟨k, hk⟩)
        exact of_decide_eq_true (all_eq_true.mp hfold.2 _ hmem)
      · exact Result.require_eq_ok.mp ((forall₂_iff_get.mp hmapped).2 k hk hk')
    have hlength : i.arg = (c.passed.take i.arg).reverse.length := by
      rw [length_reverse, length_take, Nat.min_eq_left hfold.1]
    have htuple : Rewrites c.constants ((c.passed.take i.arg).reverse ++ [i]) constants
        ((c.passed.take i.arg).reverse.map toNop ++ [i.become .loadConst index]) := by
      refine ⟨.recast (rel_append (Recasts.map_toNop fun j hj => ?_)
        (.cons (.plain index (.inl (by rw [hi]; rfl)) rfl) .nil)),
        fun _ _ _ _ => refines_foldTuple hloads hi hlength hget⟩
      have hop := all_eq_true.mp hfold.2 j (mem_reverse.mp hj)
      rw [of_decide_eq_true hop]
      rfl
    have hold : c.instrs = (c.passed.drop i.arg).reverse ++
        (((c.passed.take i.arg).reverse ++ [i]) ++ ahead) := by
      rw [instrs, hc]
      conv_lhs => rw [← take_append_drop i.arg c.passed, reverse_append]
      simp
    refine ⟨hgrows, ?_⟩
    have hall := (Rewrites.extend hgrows (c.passed.drop i.arg).reverse).append
      (htuple.append (.extend hgrows ahead))
    rw [← hold] at hall
    simpa [instrs] using hall
  · cases h
    exact .of_pass hc (.refl _ _)

theorem simplifies_atTuple (hi : i.op = .real .buildTuple) (hc : c.ahead = i :: ahead)
    (h : c.atTuple i ahead = .ok c') : c.Simplifies c' := by
  unfold atTuple at h
  split at h
  · rename_i j rest
    split_ifs at h with hone hswap
    · cases h
      obtain ⟨hj, hij, harg⟩ := hone
      exact .of_pass hc ((rewrites_packOne hi hj hij harg _).append (.refl _ rest))
    · cases h
      obtain ⟨hj, hij, harg⟩ := hswap
      exact .of_pass hc ((rewrites_packSwap hi hj hij harg _).append (.refl _ rest))
    · exact simplifies_foldTuple hi hc h
  · exact simplifies_foldTuple hi hc h

/-- Passing a list and one item more takes nothing away. -/
theorem reverse_pass_append {α : Type} (passed first rest : List α) :
    (rest.take 1 ++ (first.reverse ++ passed)).reverse ++ rest.drop 1 =
      passed.reverse ++ (first ++ rest) := by
  have hone : (rest.take 1).reverse = rest.take 1 := by cases rest <;> rfl
  rw [reverse_append, reverse_append, reverse_reverse, hone, append_assoc,
    append_assoc, take_append_drop]

theorem simplifies_atSwap (hi : i.op = .real .swap) (hc : c.ahead = i :: ahead) :
    c.Simplifies (c.atSwap i ahead) := by
  have hswap : i.isSwap := by simp [isSwap, hi]
  unfold atSwap
  split_ifs with harg
  · exact .of_pass hc (((Unswaps.idle hswap (by omega)).rewrites _).append (.refl _ ahead))
  · dsimp only
    refine ⟨List.prefix_rfl, ?_⟩
    have hfuse := rewrites_fuseSwaps c.constants (i :: ahead)
    generalize fuseSwaps (i :: ahead) = fused at hfuse
    have hback := unswaps_exchangeBack
      (fused.2.take 1 ++ (fused.1.reverse ++ c.passed)) (fused.2.drop 1)
    rw [reverse_pass_append] at hback
    simp only [instrs, hc, reverse_reverse, take_append_drop]
    exact ((Rewrites.refl _ c.passed.reverse).append hfuse).trans (hback.rewrites _)

/-- The mark of a call is pushed along with the global after it. -/
theorem rewrites_pushNull (hi : i.op = .real .pushNull) (hj : j.op = .real .loadGlobal)
    (harg : j.arg % 2 = 0) (cs : List Constant) :
    Rewrites cs [i, j] cs [i.toNop, { j with arg := j.arg + 1 }] := by
  refine ⟨.recast (.cons (.toNop (.inl ?_)) (.cons (.replace (j.arg + 1) ?_ ?_) .nil)),
    fun V W E M => .of_run_eq fun s => ?_⟩
  · rw [hi]; rfl
  iterate 2 · rw [hj]; rfl
  · rw [run_cons, exec_toNop]
    have hodd : (j.arg + 1) % 2 = 1 := by omega
    have hhalf : (j.arg + 1) / 2 = j.arg / 2 := by omega
    simp [andThen, exec, hi, hj, meaning, harg, hodd, hhalf]

theorem simplifies_atPushNull (hi : i.op = .real .pushNull) (hc : c.ahead = i :: ahead) :
    c.Simplifies (c.atPushNull i ahead) := by
  unfold atPushNull
  split
  · rename_i j rest
    split_ifs with hglobal
    · exact .of_pass hc ((rewrites_pushNull hi hglobal.1 hglobal.2 _).append (.refl _ rest))
    · exact .of_pass hc (.refl _ _)
  · exact .of_pass hc (.refl _ _)

theorem visit_loadConst (hi : i.op = .real .loadConst) (h : c.visit i ahead = .ok c') :
    AfterConstant c i.arg (i :: ahead) c' := by
  unfold visit at h
  rw [hi] at h
  exact afterConstant_spec (by rw [hi]; rfl) (fun _ _ _ M _ t _ => M.pushesAt_loadConst hi t) h

theorem simplifies_visit (hc : c.ahead = i :: ahead) (h : c.visit i ahead = .ok c') :
    c.Simplifies c' := by
  by_cases hload : i.op = .real .loadConst
  · exact (visit_loadConst hload h).simplifies hc
  unfold visit at h
  split at h
  · exact absurd ‹_› hload
  · exact simplifies_atTuple ‹_› hc h
  · cases h
    exact simplifies_atSwap ‹_› hc
  · cases h
    exact simplifies_atPushNull ‹_› hc
  · cases h
    exact .of_pass hc (.refl _ _)

end Cursor

end Bytecode
