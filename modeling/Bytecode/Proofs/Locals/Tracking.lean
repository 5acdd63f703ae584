import Bytecode.Proofs.Optimizer.Edits
import Mathlib.Data.Set.Insert

/-!
# Tracks of locals and handlers

Every block can be given what holds whenever it is entered: which handlers are open, and which
locals are bound for sure. The block keeps track of them if what it is given is true of all that its
instructions lead to.
-/

namespace Bytecode

open List Operation Instr

/-- The operations that touch neither locals nor handlers. -/
def Operation.isQuiet : Operation → Bool
  | .real .storeFast | .real .deleteFast | .real .loadFast | .real .loadFastCheck
  | .pseudo .popBlock => false
  | op => !op.isBlockPush

theorem Operation.isQuiet_of_isPlain {op : Operation} (h : op.isPlain) : op.isQuiet := by
  unfold isPlain at h
  split at h <;> first | rfl | cases h

theorem Operation.isQuiet_of_isJump {op : Operation} (h : op.isJump) : op.isQuiet := by
  unfold isQuiet
  split
  all_goals first
    | cases h
    | rw [isBlockPush_eq, Bool.not_eq_true', decide_eq_false_iff_not]
      intro hm
      rw [isJump_eq, hm] at h
      cases h

namespace Instr

variable {i : Instr} {B B' : Set Nat} {S : HandlerStack}

/-- The locals that are bound after an instruction, if control goes on. A load with a check goes on
only if its local is bound. -/
def binds (i : Instr) (B : Set Nat) : Set Nat :=
  match i.op with
  | .real .storeFast | .real .loadFastCheck => insert i.arg B
  | .real .deleteFast => B \ {i.arg}
  | _ => B

theorem binds_mono (h : B ⊆ B') : i.binds B ⊆ i.binds B' := by
  unfold binds
  split
  case h_3 => exact Set.sdiff_subset_sdiff_left h
  case h_4 => exact h
  all_goals exact Set.insert_subset_insert h

section

variable (h : i.op.isQuiet)

include h

theorem binds_of_isQuiet (B : Set Nat) : i.binds B = B := by
  unfold binds
  split <;> simp_all [isQuiet]

theorem handlersAt_of_isQuiet (S : HandlerStack) : i.handlersAt S = S := by
  refine if_neg fun hop => ?_
  rw [hop] at h
  cases h

theorem handlersAfter_of_isQuiet (S : HandlerStack) : i.handlersAfter S = S := by
  have hpush : ¬ i.op.isBlockPush := by
    unfold isQuiet at h
    split at h <;> simp_all
  exact (if_neg hpush).trans (handlersAt_of_isQuiet h S)

theorem ne_storeFast_of_isQuiet : i.op ≠ .real .storeFast := by
  intro hop
  rw [hop] at h
  cases h

theorem ne_loadFast_of_isQuiet : i.op ≠ .real .loadFast := by
  intro hop
  rw [hop] at h
  cases h

end

end Instr

/-- What holds whenever a block is entered. -/
structure Facts where
  handlers : HandlerStack
  /-- Locals that are bound for sure. -/
  bound : Set Nat

section

variable {types : BlockId → Option Facts} {late : Prop} {S : HandlerStack} {B B' : Set Nat}
  {t : BlockId} {i j : Instr} {is js : List Instr} {k k' : HandlerStack → Set Nat → Prop}

def Enters (types : BlockId → Option Facts) (S : HandlerStack) (B : Set Nat) (t : BlockId) : Prop :=
  ∃ f, types t = some f ∧ f.handlers = S ∧ f.bound ⊆ B

/-- The innermost handler may be entered with these locals. -/
def Guards (types : BlockId → Option Facts) (S : HandlerStack) (B : Set Nat) : Prop :=
  ∀ t, S.head? = some t → ∃ f, types t = some f ∧ f.bound ⊆ B

theorem Enters.mono (h : Enters types S B t) (hB : B ⊆ B') : Enters types S B' t := by
  obtain ⟨f, hf, hS, hb⟩ := h
  exact ⟨f, hf, hS, hb.trans hB⟩

theorem Guards.mono (h : Guards types S B) (hB : B ⊆ B') : Guards types S B' := by
  intro t ht
  obtain ⟨f, hf, hb⟩ := h t ht
  exact ⟨f, hf, hb.trans hB⟩

/-- The instruction is in order where these handlers are open and these locals are bound. Until the
loads have their checks it has its handler written on it, and any load is allowed; then it may also
have no handler, and a load without a check needs its local. -/
structure Instr.Tracked (late : Prop) (types : BlockId → Option Facts) (i : Instr)
    (S : HandlerStack) (B : Set Nat) : Prop where
  handled : i.handler = (i.handlersAt S).head? ∨ late ∧ i.handler = none
  guarded : i.handler.isSome ∨ i.op = .real .storeFast → Guards types (i.handlersAt S) B
  bound : late → i.op = .real .loadFast → i.arg ∈ B
  jump : i.op.isJump → ∀ t, i.target = some t → Enters types S B t
  push : i.op.isBlockPush → ∀ t, i.target = some t → Enters types S Set.univ t

/-- A run of instructions is in order, and so is what follows it. -/
def Tracks (late : Prop) (types : BlockId → Option Facts) (k : HandlerStack → Set Nat → Prop) :
    List Instr → HandlerStack → Set Nat → Prop
  | [], S, B => k S B
  | i :: rest, S, B => i.Tracked late types S B ∧
      (i.op.fallsThrough → Tracks late types k rest (i.handlersAfter S) (i.binds B))

theorem Instr.Tracked.mono (h : i.Tracked late types S B) (hB : B ⊆ B') :
    i.Tracked late types S B' where
  handled := h.handled
  guarded hi := (h.guarded hi).mono hB
  bound hlate hop := hB (h.bound hlate hop)
  jump hop t ht := (h.jump hop t ht).mono hB
  push := h.push

namespace Tracks

theorem mono (h : Tracks late types k is S B) (hB : B ⊆ B')
    (hk : ∀ S B B', B ⊆ B' → k S B → k S B') : Tracks late types k is S B' := by
  induction is generalizing S B B' with
  | nil => exact hk S B B' hB h
  | cons i is ih => exact ⟨h.1.mono hB, fun hfall => ih (h.2 hfall) (binds_mono hB)⟩

theorem weaken (h : Tracks late types k is S B) (hk : ∀ S B, k S B → k' S B) :
    Tracks late types k' is S B := by
  induction is generalizing S B with
  | nil => exact hk S B h
  | cons i is ih => exact ⟨h.1, fun hfall => ih (h.2 hfall)⟩

theorem append_iff : Tracks late types k (is ++ js) S B ↔
    Tracks late types (Tracks late types k js) is S B := by
  induction is generalizing S B with
  | nil => exact Iff.rfl
  | cons i is ih => simp only [cons_append, Tracks, ih]

theorem of_stop (h : Tracks late types k is S B) (hstop : ∃ i ∈ is, i.op.fallsThrough = false) :
    Tracks late types k' is S B := by
  induction is generalizing S B with
  | nil =>
    obtain ⟨i, hi, _⟩ := hstop
    cases hi
  | cons i is ih =>
    refine ⟨h.1, fun hfall => ih (h.2 hfall) ?_⟩
    obtain ⟨j, hj, hstop⟩ := hstop
    rcases mem_cons.mp hj with rfl | hj
    · rw [hfall] at hstop
      cases hstop
    · exact ⟨j, hj, hstop⟩

end Tracks

/-! ### Edits -/

theorem Instr.Tracked.quiet (hi : i.Tracked late types S B) (hquiet : i.op.isQuiet)
    (hquiet' : j.op.isQuiet) (hhandler : j.handler = i.handler)
    (hjump : j.op.isJump → ∀ t, j.target = some t → Enters types S B t) :
    j.Tracked late types S B where
  handled := by
    rw [hhandler, handlersAt_of_isQuiet hquiet', ← handlersAt_of_isQuiet hquiet S]
    exact hi.handled
  guarded hj := by
    rw [handlersAt_of_isQuiet hquiet', ← handlersAt_of_isQuiet hquiet S]
    refine hi.guarded (.inl ?_)
    rw [← hhandler]
    exact hj.resolve_right (ne_storeFast_of_isQuiet hquiet')
  bound _ hop := absurd hop (ne_loadFast_of_isQuiet hquiet')
  jump := hjump
  push hop := by
    unfold isQuiet at hquiet'
    split at hquiet' <;> simp_all

/-- An instruction in the place of another is in order, and does the same to locals and handlers. -/
theorem Recasts.tracked (h : Recasts i j) (hi : i.Tracked late types S B) :
    j.Tracked late types S B ∧ (j.op.fallsThrough → i.op.fallsThrough ∧
      j.handlersAfter S = i.handlersAfter S ∧ j.binds B = i.binds B) := by
  have hquiet : ∀ {i : Instr}, i.op.isPlain ∨ i.op.isTest → i.op.isQuiet := fun hi =>
    hi.elim isQuiet_of_isPlain fun h =>
      isQuiet_of_isJump (isJump_of_isTest h)
  have hsame : ∀ {i j : Instr}, i.op.isQuiet → j.op.isQuiet → i.op.fallsThrough →
      i.op.fallsThrough ∧ j.handlersAfter S = i.handlersAfter S ∧ j.binds B = i.binds B := by
    intro i j hi hj hfall
    rw [handlersAfter_of_isQuiet hi, handlersAfter_of_isQuiet hj,
      binds_of_isQuiet hi, binds_of_isQuiet hj]
    exact ⟨hfall, rfl, rfl⟩
  have hplain : ∀ {op : Operation}, op.isPlain → op.isJump = false := fun hop => by
    have htarget := hasTarget_of_isPlain hop
    simp only [hasTarget, Bool.or_eq_false_iff] at htarget
    exact htarget.1
  have hfalls : ∀ {op : Operation}, op.isPlain ∨ op.isTest → op.fallsThrough := by
    rintro op (hop | hop)
    · exact fallsThrough_of_isTerminator (isTerminator_of_isPlain hop)
    · unfold isTest at hop
      split at hop <;> first | rfl | cases hop
  cases h with
  | refl => exact ⟨hi, fun hfall => ⟨hfall, rfl, rfl⟩⟩
  | plain arg hold hop =>
    refine ⟨hi.quiet (hquiet hold) (hquiet (.inl hop)) rfl fun hjump => ?_,
      fun _ => hsame (hquiet hold) (hquiet (.inl hop)) (hfalls hold)⟩
    rw [hplain hop] at hjump
    cases hjump
  | replace arg hold hop =>
    refine ⟨hi.quiet (hquiet (.inl hold)) (hquiet (.inl hop)) rfl fun hjump => ?_,
      fun _ => hsame (hquiet (.inl hold)) (hquiet (.inl hop)) (hfalls (.inl hold))⟩
    rw [hplain hop] at hjump
    cases hjump
  | @test op hold hop =>
    have hnew : op.isQuiet := hop.elim (fun h => hquiet (i := { i with op := op }) (.inr h))
      fun h => h ▸ rfl
    exact ⟨hi.quiet (hquiet (.inr hold)) hnew rfl fun _ => hi.jump (isJump_of_isTest hold),
      fun _ => hsame (hquiet (.inr hold)) hnew (hfalls (.inr hold))⟩
  | answer index hold =>
    refine ⟨hi.quiet (by rw [hold]; rfl) rfl rfl fun hjump => ?_, fun hfall => ?_⟩
    · cases hjump
    · cases hfall

/-! ### Exchanges -/

def storedBy (is : List Instr) : Set Nat :=
  { x | ∃ i ∈ is, i.op = .real .storeFast ∧ i.arg = x }

theorem storedBy_cons (i : Instr) (is : List Instr) :
    storedBy (i :: is) = storedBy [i] ∪ storedBy is := by
  ext x
  simp [storedBy]

/-- The instructions among which consumers change places. -/
def Instr.isMild (i : Instr) : Prop :=
  i.op.isPlain ∨ i.op = .real .storeFast

theorem Instr.isMild_of_consumes (h : i.consumes) : i.isMild := by
  rcases h with hnop | hconsumer
  · exact .inl (by rw [show i.op = .real .nop by simpa [isNop] using hnop]; rfl)
  · rcases (Bool.or_eq_true _ _).mp hconsumer with hop | hop
    · exact .inr (of_decide_eq_true hop)
    · exact .inl (by rw [of_decide_eq_true hop]; rfl)

theorem Instr.isMild.same (h : i.isMild) : i.op.fallsThrough ∧ i.handlersAfter S = S ∧
    i.handlersAt S = S ∧ i.binds B = B ∪ storedBy [i] := by
  rcases h with hop | hop
  · have hquiet := isQuiet_of_isPlain hop
    refine ⟨fallsThrough_of_isTerminator (isTerminator_of_isPlain hop),
      handlersAfter_of_isQuiet hquiet S, handlersAt_of_isQuiet hquiet S, ?_⟩
    rw [binds_of_isQuiet hquiet]
    simp [storedBy, ne_storeFast_of_isQuiet hquiet]
  · refine ⟨by rw [hop]; rfl, by simp [handlersAfter, hop, isBlockPush],
      by simp [handlersAt, hop], ?_⟩
    ext x
    simp [binds, storedBy, hop, or_comm, eq_comm]

theorem Instr.isMild.tracked_iff (h : i.isMild) : i.Tracked late types S B ↔
    (i.handler = S.head? ∨ late ∧ i.handler = none) ∧
      (i.handler.isSome ∨ i.op = .real .storeFast → Guards types S B) := by
  obtain ⟨_, _, hat, _⟩ := h.same (S := S) (B := B)
  have hnot : i.op ≠ .real .loadFast ∧ i.op.isJump = false ∧ i.op.isBlockPush = false := by
    rcases h with hop | hop
    · have htarget := hasTarget_of_isPlain hop
      rw [hasTarget, Bool.or_eq_false_iff] at htarget
      exact ⟨ne_loadFast_of_isQuiet (isQuiet_of_isPlain hop), htarget⟩
    · rw [hop]
      exact ⟨by simp, rfl, rfl⟩
  constructor
  · exact fun hi => ⟨hat ▸ hi.handled, hat ▸ hi.guarded⟩
  · refine fun hi => ⟨hat.symm ▸ hi.1, hat.symm ▸ hi.2, fun _ hop => absurd hop hnot.1, ?_, ?_⟩
    · simp [hnot.2.1]
    · simp [hnot.2.2]

/-- What a run of such instructions needs does not depend on their order: the first store already
needs that the handler may be entered with what is bound at the start. -/
theorem tracks_mild_iff (his : ∀ i ∈ is, i.isMild) : Tracks late types k is S B ↔
    (∀ i ∈ is, (i.handler = S.head? ∨ late ∧ i.handler = none) ∧
      (i.handler.isSome ∨ i.op = .real .storeFast → Guards types S B)) ∧
      k S (B ∪ storedBy is) := by
  induction is generalizing B with
  | nil => simp [Tracks, storedBy]
  | cons i is ih =>
    obtain ⟨hi, his⟩ := forall_mem_cons.mp his
    obtain ⟨hfall, hafter, _, hbinds⟩ := hi.same (S := S) (B := B)
    rw [Tracks, hi.tracked_iff, hafter, hbinds, ih his, storedBy_cons i is, ← Set.union_assoc,
      forall_mem_cons]
    have hmono : Guards types S B → Guards types S (B ∪ storedBy [i]) :=
      fun h => h.mono Set.subset_union_left
    constructor
    · rintro ⟨hfirst, hrest⟩
      obtain ⟨hrest, hend⟩ := hrest hfall
      refine ⟨⟨hfirst, fun j hj => ⟨(hrest j hj).1, fun hneed => ?_⟩⟩, hend⟩
      by_cases hstore : i.op = .real .storeFast
      · exact hfirst.2 (.inr hstore)
      · have hguards := (hrest j hj).2 hneed
        rwa [show storedBy [i] = ∅ by simp [storedBy, hstore], Set.union_empty] at hguards
    · rintro ⟨⟨hfirst, hrest⟩, hend⟩
      exact ⟨hfirst, fun _ => ⟨fun j hj => ⟨(hrest j hj).1, fun h => hmono ((hrest j hj).2 h)⟩,
        hend⟩⟩

theorem Edits.tracks (h : Edits is js) (his : Tracks late types k is S B) :
    Tracks late types k js S B := by
  induction h generalizing S B k with
  | recast h =>
    induction h generalizing S B with
    | nil => exact his
    | cons hij _ ih =>
      obtain ⟨hj, hsame⟩ := hij.tracked his.1
      refine ⟨hj, fun hfall => ?_⟩
      obtain ⟨hfall, hhandlers, hbinds⟩ := hsame hfall
      rw [hhandlers, hbinds]
      exact ih (his.2 hfall)
  | @exchange i a b pre mid hi hpre ha hmid hb _ =>
    have hswap := isPlain_of_isSwap hi
    have hmild : ∀ x ∈ i :: (pre ++ a :: (mid ++ [b])), x.isMild := by
      simp only [mem_cons, mem_append, not_mem_nil, or_false]
      rintro x (rfl | hx | rfl | hx | rfl)
      exacts [.inl hswap, isMild_of_consumes (.inl (hpre x hx)),
        isMild_of_consumes (.inr ha), isMild_of_consumes (hmid x hx),
        isMild_of_consumes (.inr hb)]
    have hmem : ∀ x, x ∈ i.toNop :: (pre ++ b :: (mid ++ [a])) → x = i.toNop ∨
        x ∈ i :: (pre ++ a :: (mid ++ [b])) := by
      simp only [mem_cons, mem_append, not_mem_nil, or_false]
      tauto
    have hstored : storedBy (i.toNop :: (pre ++ b :: (mid ++ [a]))) =
        storedBy (i :: (pre ++ a :: (mid ++ [b]))) := by
      have hne : i.op ≠ .real .storeFast :=
        ne_storeFast_of_isQuiet (isQuiet_of_isPlain hswap)
      ext x
      simp only [storedBy, mem_cons, mem_append, not_mem_nil, or_false, Set.mem_ofPred_eq]
      constructor
      · rintro ⟨y, rfl | hy, hop, harg⟩
        · cases hop
        · exact ⟨y, .inr (by tauto), hop, harg⟩
      · rintro ⟨y, rfl | hy, hop, harg⟩
        · exact absurd hop hne
        · exact ⟨y, .inr (by tauto), hop, harg⟩
    rw [tracks_mild_iff hmild] at his
    rw [tracks_mild_iff, hstored]
    · refine ⟨fun x hx => ?_, his.2⟩
      rcases hmem x hx with rfl | hx
      · obtain ⟨hhandler, hguards⟩ := his.1 i mem_cons_self
        exact ⟨hhandler, fun h => hguards (.inl (h.resolve_right nofun))⟩
      · exact his.1 x hx
    · intro x hx
      rcases hmem x hx with rfl | hx
      · exact .inl rfl
      · exact hmild x hx
  | append _ _ ih ih' =>
    rw [Tracks.append_iff] at his ⊢
    exact (ih his).weaken fun _ _ => ih'
  | trans _ _ ih ih' => exact ih' (ih his)

end

end Bytecode
