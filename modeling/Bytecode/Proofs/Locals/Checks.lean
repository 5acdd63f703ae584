import Bytecode.Proofs.Locals.Passes
import Bytecode.Proofs.Locals.Spread

/-!
# Loads with and without a check

Whatever the analysis does not note as unbound is bound, along every path through a graph that has a
certificate. So the graph with the checks has one in which every load without a check has its local.
-/

namespace Bytecode

open List

variable {s : UnboundSet} {x : Nat}

def Operation.isFast : Operation → Bool
  | .real .storeFast | .real .deleteFast | .real .loadFast | .real .loadFastCheck => true
  | _ => false

theorem Operation.isFast_cases {op : Operation} (h : op.isFast) : op = .real .storeFast ∨
    op = .real .deleteFast ∨ op = .real .loadFast ∨ op = .real .loadFastCheck := by
  unfold isFast at h
  split at h <;> first | simp | cases h

theorem Operation.isFast_of_isJump {op : Operation} (h : op.isJump) : op.isFast = false := by
  unfold isFast
  split <;> first | cases h | rfl

namespace Instr

variable {i : Instr} {n : Nat} {far : List Nat} {s : UnboundSet} {B : Set Nat}

/-- The instruction with a check if it loads a far local that the block has not bound. -/
def withFarCheck (n : Nat) (far : List Nat) (i : Instr) : Instr :=
  if i.op = .real .loadFast ∧ trackedLocals ≤ i.arg ∧ i.arg < n ∧ i.arg ∉ far then
    { i with op := .real .loadFastCheck }
  else i

def farAfter (n : Nat) (far : List Nat) (i : Instr) : List Nat :=
  if i.arg < trackedLocals ∨ n ≤ i.arg then far
  else
    match i.op with
    | .real .deleteFast => far.filter (· ≠ i.arg)
    | .real .storeFast | .real .loadFast => i.arg :: far
    | _ => far

section

variable (h : i.op.isFast = false)

include h

theorem unboundAfter_of_not_isFast (s : UnboundSet) : i.unboundAfter s = s := by
  unfold unboundAfter
  split_ifs
  · dsimp only
    split <;> simp_all [Operation.isFast]
  · rfl

theorem farAfter_of_not_isFast (n : Nat) (far : List Nat) : i.farAfter n far = far := by
  unfold farAfter
  split_ifs
  · rfl
  · split <;> simp_all [Operation.isFast]

theorem binds_of_not_isFast (B : Set Nat) : i.binds B = B := by
  unfold binds
  split <;> simp_all [Operation.isFast]

theorem ne_loadFast_of_not_isFast : i.op ≠ .real .loadFast := by
  intro hop
  rw [hop] at h
  cases h

end

theorem arg_withFarCheck (n : Nat) (far : List Nat) (i : Instr) :
    (i.withFarCheck n far).arg = i.arg := by
  unfold withFarCheck
  split_ifs <;> rfl

theorem arg_withCheck (i : Instr) (s : UnboundSet) : (i.withCheck s).arg = i.arg := by
  unfold withCheck
  split_ifs <;> rfl

/-- A local is either followed through the graph or within its block. -/
theorem check_cases (i : Instr) (n : Nat) (far : List Nat) (s : UnboundSet) :
    (i.arg < trackedLocals ∧ (i.withFarCheck n far).unboundAfter s = i.unboundAfter s ∧
      (i.withFarCheck n far).withCheck s = i.withCheck s ∧ i.farAfter n far = far) ∨
    (trackedLocals ≤ i.arg ∧ (i.withFarCheck n far).unboundAfter s = s ∧
      (i.withFarCheck n far).withCheck s = i.withFarCheck n far) := by
  rcases Nat.lt_or_ge i.arg trackedLocals with harg | harg
  · left
    rw [show i.withFarCheck n far = i from if_neg (by omega)]
    exact ⟨harg, rfl, rfl, if_pos (.inl harg)⟩
  · have hfar : ¬ (i.withFarCheck n far).arg < trackedLocals := by
      rw [arg_withFarCheck]
      omega
    exact .inr ⟨harg, if_neg hfar, if_neg fun hif => hfar hif.2.1⟩

theorem mem_binds_of_ne (hx : x ∈ B) (hne : x ≠ i.arg) : x ∈ i.binds B := by
  unfold binds
  split
  · exact .inr hx
  · exact .inr hx
  · exact ⟨hx, hne⟩
  · exact hx

theorem getLsbD_unboundAfter_of_ne (hne : x ≠ i.arg) :
    (i.unboundAfter s).getLsbD x = s.getLsbD x := by
  unfold unboundAfter
  split_ifs
  · dsimp only
    have hbit : (BitVec.twoPow 64 i.arg).getLsbD x = false := by
      simp [BitVec.getLsbD_twoPow, hne.symm]
    have hclear : (s &&& ~~~BitVec.twoPow 64 i.arg).getLsbD x = s.getLsbD x := by
      simpa [hbit] using BitVec.lt_of_getLsbD
    split
    · rw [BitVec.getLsbD_or, hbit, Bool.or_false]
    · rw [hclear]
    · rw [hclear]
    · rw [hclear]
    · rfl
  · rfl

end Instr

theorem checkFarLoads_cons (n : Nat) (far : List Nat) (i : Instr) (is : List Instr) :
    checkFarLoads n far (i :: is) =
      i.withFarCheck n far :: checkFarLoads n (i.farAfter n far) is := by
  rw [checkFarLoads, Instr.farAfter, Instr.withFarCheck]
  by_cases harg : i.arg < trackedLocals ∨ n ≤ i.arg
  · rw [if_pos harg, if_pos harg, if_neg (by omega)]
  · have harg' : trackedLocals ≤ i.arg ∧ i.arg < n := by omega
    rw [if_neg harg, if_neg harg]
    split
    next hop => simp [hop]
    next hop => simp [hop]
    next hop => by_cases hmem : i.arg ∈ far <;> simp [hop, hmem, harg']
    next hop => simp [show i.op ≠ .real .loadFast from hop]

/-- Whatever is not noted as unbound is bound. -/
structure Accounts (n : Nat) (s : UnboundSet) (far : List Nat) (B : Set Nat) : Prop where
  near : ∀ x, x < n → x < trackedLocals → s.getLsbD x = false → x ∈ B
  far : ∀ x ∈ far, trackedLocals ≤ x ∧ x ∈ B

section

variable {i : Instr} {n : Nat} {s : UnboundSet} {far : List Nat} {B : Set Nat}

namespace Accounts

variable (h : Accounts n s far B)
include h

theorem mem_of_load (hi : i.op.isFast → i.arg < n)
    (hop : ((i.withFarCheck n far).withCheck s).op = .real .loadFast) : i.arg ∈ B := by
  rcases i.check_cases n far s with ⟨harg, _, hchecked, _⟩ | ⟨harg, _, hchecked⟩
  · rw [hchecked] at hop
    unfold Instr.withCheck at hop
    split_ifs at hop with hnear
    · cases hop
    · have hn := hi (by rw [hop]; rfl)
      exact h.near _ hn harg (by simpa [hop, harg] using hnear)
  · rw [hchecked] at hop
    unfold Instr.withFarCheck at hop
    split_ifs at hop with hfar
    · cases hop
    · have hn := hi (by rw [hop]; rfl)
      have hmem : i.arg ∈ far := by
        by_contra hmem
        exact hfar ⟨hop, harg, hn, hmem⟩
      exact (h.far _ hmem).2

theorem step_near (hfast : i.op.isFast) (hnear : i.arg < trackedLocals) :
    Accounts n (i.unboundAfter s) far ((i.withCheck s).binds B) := by
  refine ⟨fun x hx hx64 hbit => ?_, fun x hx => ⟨(h.far x hx).1, ?_⟩⟩
  · by_cases hxi : x = i.arg
    · subst hxi
      rcases Operation.isFast_cases hfast with hop | hop | hop | hop
      · simp [Instr.withCheck, Instr.binds, hop]
      · simp [Instr.unboundAfter, hop, hnear] at hbit
        exact absurd hnear (Nat.not_lt_of_le hbit.2)
      · by_cases hs : s.getLsbD i.arg
        · simp [Instr.withCheck, Instr.binds, hop, hnear, hs]
        · simpa [Instr.withCheck, Instr.binds, hop, hs] using h.near _ hx hx64 (by simpa using hs)
      · simp [Instr.withCheck, Instr.binds, hop]
    · rw [Instr.getLsbD_unboundAfter_of_ne hxi] at hbit
      exact Instr.mem_binds_of_ne (h.near x hx hx64 hbit) (by rwa [Instr.arg_withCheck])
  · refine Instr.mem_binds_of_ne (h.far x hx).2 ?_
    rw [Instr.arg_withCheck]
    have := (h.far x hx).1
    omega

theorem step_far (hfast : i.op.isFast) (hn : i.arg < n) (hfar : trackedLocals ≤ i.arg) :
    Accounts n s (i.farAfter n far) ((i.withFarCheck n far).binds B) := by
  have hafter : ¬ (i.arg < trackedLocals ∨ n ≤ i.arg) := by omega
  refine ⟨fun x hx hx64 hbit => ?_, fun x hx => ?_⟩
  · refine Instr.mem_binds_of_ne (h.near x hx hx64 hbit) ?_
    rw [Instr.arg_withFarCheck]
    omega
  · by_cases hxi : x = i.arg
    · subst hxi
      refine ⟨hfar, ?_⟩
      rcases Operation.isFast_cases hfast with hop | hop | hop | hop
      · simp [Instr.withFarCheck, Instr.binds, hop]
      · simp [Instr.farAfter, hop, hafter] at hx
      · by_cases hmem : i.arg ∈ far
        · simpa [Instr.withFarCheck, Instr.binds, hop, hmem] using (h.far _ hmem).2
        · simp [Instr.withFarCheck, Instr.binds, hop, hfar, hn, hmem]
      · simp [Instr.withFarCheck, Instr.binds, hop]
    · have hmem : x ∈ far := by
        rw [Instr.farAfter, if_neg hafter] at hx
        split at hx <;> simp_all
      exact ⟨(h.far x hmem).1,
        Instr.mem_binds_of_ne (h.far x hmem).2 (by rwa [Instr.arg_withFarCheck])⟩

theorem step (hi : i.op.isFast → i.arg < n) :
    Accounts n ((i.withFarCheck n far).unboundAfter s) (i.farAfter n far)
      (((i.withFarCheck n far).withCheck s).binds B) := by
  by_cases hfast : i.op.isFast
  · rcases i.check_cases n far s with ⟨harg, hafter, hchecked, hfar⟩ | ⟨harg, hafter, hchecked⟩
    · rw [hafter, hchecked, hfar]
      exact h.step_near hfast harg
    · rw [hafter, hchecked]
      exact h.step_far hfast (hi hfast) harg
  · rw [Bool.not_eq_true] at hfast
    have hload := Instr.ne_loadFast_of_not_isFast hfast
    rw [show i.withFarCheck n far = i from if_neg fun hif => hload hif.1,
      show i.withCheck s = i from if_neg fun hif => hload hif.1,
      Instr.unboundAfter_of_not_isFast hfast, Instr.farAfter_of_not_isFast hfast,
      Instr.binds_of_not_isFast hfast]
    exact h

end Accounts

end

/-! ### Blocks -/

def boundAt (n : Nat) (sets : Array UnboundSet) (t : BlockId) : Set Nat :=
  { x | x < n ∧ x < trackedLocals ∧ (sets.getD t 0).getLsbD x = false }

/-- The facts with the locals that the sets do not note as unbound. -/
def settle (n : Nat) (sets : Array UnboundSet) (types : BlockId → Option Facts) (t : BlockId) :
    Option Facts :=
  (types t).map fun f => { f with bound := boundAt n sets t }

/-- The set at the start of a block has all locals of a set that is sent there. -/
def Receives (sets : Array UnboundSet) (t : BlockId) (s : UnboundSet) : Prop :=
  ∀ x, s.getLsbD x → (sets.getD t 0).getLsbD x

section

variable {types : BlockId → Option Facts} {n : Nat} {sets : Array UnboundSet} {s : UnboundSet}
  {far : List Nat} {S : HandlerStack} {B B₀ : Set Nat} {t : BlockId} {i j : Instr}
  {is : List Instr} {k k' : HandlerStack → Set Nat → Prop}

theorem Accounts.boundAt_subset (h : Accounts n s far B) (ht : Receives sets t s) :
    boundAt n sets t ⊆ B := by
  rintro x ⟨hx, hx64, hbit⟩
  refine h.near x hx hx64 ?_
  by_contra hs
  rw [ht x (by simpa using hs)] at hbit
  cases hbit

theorem settle_eq_some {f : Facts} (hf : types t = some f) :
    settle n sets types t = some { f with bound := boundAt n sets t } :=
  congrArg (Option.map _) hf

theorem Enters.settle (h : Enters types S B₀ t) (hB : boundAt n sets t ⊆ B) :
    Enters (Bytecode.settle n sets types) S B t := by
  obtain ⟨f, hf, hS, _⟩ := h
  exact ⟨_, settle_eq_some hf, hS, hB⟩

theorem Instr.Checks.handlers (h : i.Checks j) (S : HandlerStack) :
    j.handlersAt S = i.handlersAt S ∧ j.handlersAfter S = i.handlersAfter S := by
  rcases h with rfl | ⟨hop, rfl⟩
  · exact ⟨rfl, rfl⟩
  · simp [handlersAt, handlersAfter, hop, Operation.isBlockPush]

theorem Instr.checks_withFarCheck (n : Nat) (far : List Nat) (i : Instr) :
    i.Checks (i.withFarCheck n far) := by
  unfold withFarCheck
  split_ifs with h
  · exact .inr ⟨h.1, rfl⟩
  · exact .inl rfl

theorem Instr.checks_withCheck (i : Instr) (s : UnboundSet) : i.Checks (i.withCheck s) := by
  unfold withCheck
  split_ifs with h
  · exact .inr ⟨h.1, rfl⟩
  · exact .inl rfl

/-- An instruction of a graph with a certificate is in order with its check. -/
theorem Accounts.tracked (h : Accounts n s far B) (hi : i.Tracked False types S B₀)
    (hfast : i.op.isFast → i.arg < n) (hhandler : ∀ t, i.handler = some t → Receives sets t s)
    (hjump : i.op.isJump → ∀ t, i.target = some t → Receives sets t s) :
    ((i.withFarCheck n far).withCheck s).Tracked True (settle n sets types) S B := by
  have hchecks : i.Checks ((i.withFarCheck n far).withCheck s) :=
    IsTrans.trans _ _ _ (i.checks_withFarCheck n far) (Instr.checks_withCheck _ s)
  have hloads := h.mem_of_load hfast
  have harg : ((i.withFarCheck n far).withCheck s).arg = i.arg := by
    rw [Instr.arg_withCheck, Instr.arg_withFarCheck]
  generalize (i.withFarCheck n far).withCheck s = j at hchecks hloads harg
  obtain ⟨halike, hsame⟩ := hchecks.alike
  obtain ⟨hat, _⟩ := hchecks.handlers S
  have hhead : i.handler = (i.handlersAt S).head? := hi.handled.resolve_right fun h => h.1
  refine ⟨.inl (by rw [hsame, hat, hhead]), fun _ t ht => ?_, fun _ hop => harg ▸ hloads hop,
    fun hop t ht => ?_, fun hop t ht => ?_⟩
  · rw [hat] at ht
    have ht' := hhead.trans ht
    obtain ⟨f, hf, _⟩ := hi.guarded (.inl (by rw [ht']; rfl)) t ht
    exact ⟨_, settle_eq_some hf, h.boundAt_subset (hhandler t ht')⟩
  · rw [halike.jumps] at hop
    rw [halike.target] at ht
    exact (hi.jump hop t ht).settle (h.boundAt_subset (hjump hop t ht))
  · rw [halike.pushes] at hop
    rw [halike.target] at ht
    exact (hi.push hop t ht).settle (Set.subset_univ _)

theorem flowThrough_cons (s : UnboundSet) (i : Instr) (is : List Instr) :
    flowThrough s (i :: is) = (i.handler.toList.map (·, s) ++ (flowThrough (i.unboundAfter s) is).1,
      (flowThrough (i.unboundAfter s) is).2) :=
  rfl

theorem Tracks.checked (h : Tracks False types k is S B₀) (hends : TerminatorsLast is)
    (hfast : ∀ i ∈ is, i.op.isFast → i.arg < n) (hacc : Accounts n s far B)
    (hsent : ∀ m ∈ (flowThrough s (checkFarLoads n far is)).1, Receives sets m.1 m.2)
    (hjump : ∀ i ∈ is.getLast?, i.op.isJump → ∀ t, i.target = some t →
      Receives sets t (flowThrough s (checkFarLoads n far is)).2)
    (hk : ∀ S B₀ B far', k S B₀ →
      Accounts n (flowThrough s (checkFarLoads n far is)).2 far' B → k' S B) :
    Tracks True (settle n sets types) k' (checkLoads s (checkFarLoads n far is)) S B := by
  induction is generalizing s far S B B₀ with
  | nil => exact hk S B₀ B far h hacc
  | cons i is ih =>
    obtain ⟨hi, hfast⟩ := forall_mem_cons.mp hfast
    obtain ⟨hnot, hends⟩ := terminatorsLast_cons.mp hends
    rw [checkFarLoads_cons] at hsent hjump hk ⊢
    simp only [flowThrough_cons, mem_append, mem_map] at hsent hjump hk
    have hchecks := i.checks_withFarCheck n far
    have hhandler : ∀ t, i.handler = some t → Receives sets t s := by
      intro t ht
      refine hsent (t, s) (.inl ⟨t, ?_, rfl⟩)
      rw [hchecks.alike.2, ht]
      simp
    have hleap : i.op.isJump → ∀ t, i.target = some t → Receives sets t s := by
      intro hop t ht
      -- A jump is the last instruction of its block, and touches no local.
      obtain rfl : is = [] := by
        by_contra hne
        have hterm := hnot hne
        rw [Operation.isTerminator, hop] at hterm
        cases hterm
      have hlast := hjump i rfl hop t ht
      have hstill := Operation.isFast_of_isJump (hchecks.alike.1.jumps.trans hop)
      rwa [Instr.unboundAfter_of_not_isFast hstill] at hlast
    have hfinal := IsTrans.trans _ _ _ hchecks (Instr.checks_withCheck (i.withFarCheck n far) s)
    refine ⟨hacc.tracked h.1 hi hhandler hleap, fun hfall => ?_⟩
    rw [(hfinal.handlers S).2]
    rw [hfinal.alike.1.falls] at hfall
    refine ih (h.2 hfall) hends hfast (hacc.step hi) (fun m hm => hsent m (.inr hm))
      (fun j hj => hjump j ?_) hk
    rw [getLast?_cons, Option.mem_def.mp hj]
    rfl

/-- Without operations on locals there is nothing to check. -/
theorem Tracks.late (h : Tracks False types k is S B) (hfast : ∀ i ∈ is, i.op.isFast = false) :
    Tracks True types k is S B := by
  induction is generalizing S B with
  | nil => exact h
  | cons i is ih =>
    obtain ⟨hi, hfast⟩ := forall_mem_cons.mp hfast
    refine ⟨⟨.inl (h.1.handled.resolve_right fun h => h.1), h.1.guarded, fun _ hop => ?_, h.1.jump,
      h.1.push⟩, fun hfall => ih (h.2 hfall) hfast⟩
    exact absurd hop (Instr.ne_loadFast_of_not_isFast hi)

end

/-! ### Graphs -/

theorem checkFarLoads_eq_self {n : Nat} (hn : n ≤ trackedLocals) (far : List Nat)
    (is : List Instr) : checkFarLoads n far is = is := by
  induction is generalizing far with
  | nil => rfl
  | cons i is ih => rw [checkFarLoads, if_pos (by omega), ih]

theorem exists_handler_of_mem_flowThrough {is : List Instr} {m : BlockId × UnboundSet}
    (h : m ∈ (flowThrough s is).1) : ∃ i ∈ is, i.handler = some m.1 := by
  induction is generalizing s with
  | nil => cases h
  | cons i is ih =>
    rw [flowThrough_cons, mem_append] at h
    rcases h with h | h
    · obtain ⟨t, ht, rfl⟩ := mem_map.mp h
      exact ⟨i, mem_cons_self, Option.mem_toList.mp ht⟩
    · obtain ⟨j, hj, hm⟩ := ih h
      exact ⟨j, mem_cons_of_mem _ hj, hm⟩

theorem exists_getLast?_of_forall₂ {R : Instr → Instr → Prop} {is js : List Instr}
    (h : Forall₂ R is js) {i : Instr} (hi : i ∈ is.getLast?) : ∃ j ∈ js.getLast?, R i j := by
  rw [← head?_reverse, Option.mem_def] at hi
  obtain ⟨pre, hpre⟩ := head?_eq_some_iff.mp hi
  have hreverse := forall₂_reverse_iff.mpr h
  rw [hpre] at hreverse
  obtain ⟨j, js, hij, _, heq⟩ := forall₂_cons_left_iff.mp hreverse
  exact ⟨j, by rw [← head?_reverse, heq]; rfl, hij⟩

/-- At the entry all locals but the parameters are noted as unbound. -/
theorem getLsbD_foldl_unbound {params : Nat} (hparams : params ≤ x) (hx : x < 64) {ids : List Nat}
    (hmem : x ∈ ids) (s : UnboundSet) :
    (ids.foldl (fun s k => if params ≤ k then s ||| BitVec.twoPow 64 k else s) s).getLsbD x := by
  have hkeep : ∀ (ids : List Nat) (s : UnboundSet), s.getLsbD x →
      (ids.foldl (fun s k => if params ≤ k then s ||| BitVec.twoPow 64 k else s) s).getLsbD x := by
    intro ids
    induction ids with
    | nil => exact fun s hs => hs
    | cons k ids ih =>
      intro s hs
      refine ih _ ?_
      dsimp only
      split_ifs
      · rw [BitVec.getLsbD_or, hs, Bool.true_or]
      · exact hs
  induction ids generalizing s with
  | nil => cases hmem
  | cons k ids ih =>
    rcases mem_cons.mp hmem with rfl | hmem
    · refine hkeep ids _ ?_
      dsimp only
      rw [if_pos hparams, BitVec.getLsbD_or]
      simp [hx]
    · exact ih hmem _

namespace Graph

variable {g h : Graph} {types : BlockId → Option Facts} {n params : Nat}

theorem unboundSets_spec (g : Graph) (n params : Nat) :
    g.spreadOnce g.order (g.unboundSets n params) = g.unboundSets n params ∧
      (g.unboundSets n params).size = g.blocks.size ∧
      ∀ x, g.entry < g.blocks.size → params ≤ x → x < n → x < 64 →
        ((g.unboundSets n params).getD g.entry 0).getLsbD x := by
  unfold unboundSets
  dsimp only
  generalize hstart : (List.range (min n trackedLocals)).foldl _ _ = start
  have hfuel : 64 * ((Array.replicate g.blocks.size 0).setIfInBounds g.entry start).size <
      trackedLocals * g.blocks.size + 1 +
        (bitsOf ((Array.replicate g.blocks.size 0).setIfInBounds g.entry start)).card := by
    rw [Array.size_setIfInBounds, Array.size_replicate, trackedLocals]
    omega
  obtain ⟨hgrows, hfixed⟩ := g.spread_spec g.order hfuel
  refine ⟨hfixed, by simpa using hgrows.size, fun x hentry hparams hxn hx64 => hgrows.bits _ _ ?_⟩
  have hget : ((Array.replicate g.blocks.size 0).setIfInBounds g.entry start).getD g.entry 0 =
      start := by
    simp [Array.getD, hentry]
  rw [hget, ← hstart]
  exact getLsbD_foldl_unbound hparams hx64 (mem_range.mpr (by rw [trackedLocals]; omega)) _

theorem mem_sendUnbound {id t : BlockId}
    (h : g.fallthrough? id = some t ∨ ∃ i ∈ (g.block id).last?, i.op.isJump ∧ i.target = some t) :
    (t, (flowThrough s (g.block id).instrs).2) ∈ g.sendUnbound id s := by
  refine mem_append_right _ (mem_map.mpr ⟨t, mem_append.mpr ?_, rfl⟩)
  rcases h with h | ⟨i, hi, hop, ht⟩
  · exact .inl (by simp [h])
  · exact .inr (by simp [Option.mem_def.mp hi, hop, ht])

/-- The checks are put in as the sets at which the analysis ends ask for. -/
theorem checkUnboundLoads_spec (hg : g.Closed) (hn : n ≠ 0) (params : Nat) : ∃ far : Graph,
    Relates Instr.Checks g far ∧
      (∀ id ∈ g.order, (far.block id).instrs = checkFarLoads n [] (g.block id).instrs) ∧
      ∀ id ∈ g.order, ((g.checkUnboundLoads n params).block id).instrs =
        checkLoads ((far.unboundSets n params).getD id 0) (far.block id).instrs := by
  have hlast : ∀ far : Graph, Relates Instr.Checks g far → ∀ id ∈ g.order,
      (({ far with blocks := far.blocks.mapIdx fun id b =>
        if far.order.contains id || (far.unboundSets n params).getD id 0 ≠ 0 then
          { b with instrs := checkLoads ((far.unboundSets n params).getD id 0) b.instrs }
        else b } : Graph).block id).instrs =
          checkLoads ((far.unboundSets n params).getD id 0) (far.block id).instrs := by
    intro far hfar id hid
    have hlt := hg.layout.bound id hid
    have hmem : far.order.contains id := by
      rw [hfar.links.order]
      exact contains_iff_mem.mpr hid
    rw [block_mapIdx, if_pos (hfar.links.size ▸ hlt), if_pos (by rw [hmem, Bool.true_or])]
  unfold checkUnboundLoads
  rw [if_neg hn]
  by_cases hmany : trackedLocals < n
  · have hfar : Relates Instr.Checks g (g.mapInstrs (checkFarLoads n [])) :=
      .mapInstrs (checks_checkFarLoads n []) g
    rw [if_pos hmany]
    refine ⟨_, hfar, fun id hid => ?_, hlast _ hfar⟩
    rw [mapInstrs, instrs_foldl_modify _ hg.layout.nodup, if_pos ⟨hid, hg.layout.bound id hid⟩]
  · rw [if_neg hmany]
    refine ⟨g, .refl g, fun id _ => ?_, hlast _ (.refl g)⟩
    rw [checkFarLoads_eq_self (by omega)]

/-- The operands of the operations on locals are below the number of locals. -/
def Fits (g : Graph) (n : Nat) : Prop :=
  ∀ id ∈ g.order, ∀ i ∈ (g.block id).instrs, i.op.isFast → i.arg < n

namespace Certified

theorem receives {far : Graph} (hr : g.Regular) (hfar : Relates Instr.Checks g far) {id t : BlockId}
    (hid : id ∈ g.order) (ht : t ∈ g.order)
    (hsend : (t, s) ∈ far.sendUnbound id ((far.unboundSets n params).getD id 0)) :
    Receives (far.unboundSets n params) t s := by
  obtain ⟨hfixed, hsize, _⟩ := far.unboundSets_spec n params
  have hlt : ∀ {a}, a ∈ g.order → a < (far.unboundSets n params).size := fun ha => by
    rw [hsize, hfar.links.size]
    exact hr.layout.bound _ ha
  intro x hx
  exact bits_of_send hfixed (hfar.links.order.symm ▸ hid) (hlt hid) hsend (hlt ht) hx

theorem checkUnboundLoads (hg : g.Certified False params types) (hr : g.Regular)
    (hfits : g.Fits n) : ∃ types', (g.checkUnboundLoads n params).Certified True params types' := by
  have hlinks := (relates_checkUnboundLoads g n params).links
  by_cases hn : n = 0
  · subst hn
    refine ⟨types, hg.entry, fun id hid f hf => (hg.tracks id hid f hf).late fun i hi => ?_⟩
    by_contra hfast
    exact absurd (hfits id hid i hi (by simpa using hfast)) (Nat.not_lt_zero _)
  obtain ⟨far, hfar, hinstrs, hchecked⟩ := checkUnboundLoads_spec hr.closed hn params
  obtain ⟨_, _, hentry⟩ := far.unboundSets_spec n params
  refine ⟨settle n (far.unboundSets n params) types, ?_, fun id hid f hf => ?_⟩
  · rw [hlinks.entry]
    refine hg.entry.settle fun x ⟨hxn, hx64, hbit⟩ => ?_
    by_contra hparams
    have hlt := hfar.links.size ▸ hr.layout.bound _ hr.layout.entry_mem
    rw [← hfar.links.entry,
      hentry x (hfar.links.entry.symm ▸ hlt) (by simpa using hparams) hxn hx64] at hbit
    cases hbit
  · rw [hlinks.order] at hid
    obtain ⟨f, hold, rfl⟩ := Option.map_eq_some_iff.mp hf
    have hblock := hinstrs id hid
    rw [hchecked id hid, hblock]
    have hfalls : Tracks False types
        (fun S B => (g.block id).fallsThrough ∧ g.Continues types id S B)
        (g.block id).instrs f.handlers f.bound :=
      (hg.tracks id hid f hold).weaken_block fun hfall _ _ hk => ⟨hfall, hk⟩
    have hacc : Accounts n ((far.unboundSets n params).getD id 0) []
        (boundAt n (far.unboundSets n params) id) :=
      ⟨fun x hx hx64 hbit => ⟨hx, hx64, hbit⟩, by simp⟩
    refine hfalls.checked (hr.ended id hid) (hfits id hid) hacc (fun m hm => ?_)
      (fun i hi hop t ht => ?_) fun S B₀ B far' ⟨hfall, t, ht, henters⟩ hacc => ?_
    · rw [← hblock] at hm
      obtain ⟨j, hj, hm'⟩ := exists_handler_of_mem_flowThrough hm
      obtain ⟨i, hi, hij⟩ := Result.exists_of_mem_forall₂ (hfar.instrs id) hj
      exact receives hr hfar hid ((hr.holds id hid i hi).handler _ (hij.alike.2 ▸ hm'))
        (mem_append_left _ hm)
    · rw [← hblock]
      refine receives hr hfar hid ((hr.holds id hid i (mem_of_getLast? hi)).target t ht)
        (mem_sendUnbound (.inr ?_))
      obtain ⟨j, hj, hij⟩ := exists_getLast?_of_forall₂ (hfar.instrs id) hi
      exact ⟨j, hj, hij.alike.1.jumps.trans hop, hij.alike.1.target.trans ht⟩
    · rw [← hblock] at hacc
      refine ⟨t, (hlinks.next id).trans ht, henters.settle (hacc.boundAt_subset ?_)⟩
      refine receives hr hfar hid (hr.closed.next_mem hid ht) (mem_sendUnbound (.inl ?_))
      rw [fallthrough?_eq_of_alike ((hfar.instrs id).imp fun _ _ h => h.alike.1)
        (hfar.links.next id), fallthrough?_eq_some]
      exact ⟨hfall, ht⟩

end Certified

end Graph

end Bytecode
