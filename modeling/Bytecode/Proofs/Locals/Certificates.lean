import Bytecode.Proofs.Locals.Tracking
import Bytecode.Proofs.Optimizer.Compact

/-!
# Certificates

A certificate gives every block that may be entered its facts, so that all these blocks keep track
of them. Every step of the optimizer leaves a certificate, mostly the same one.
-/

namespace Bytecode

open List Operation Tracks

section

variable {types : BlockId → Option Facts} {late : Prop} {S : HandlerStack} {B : Set Nat}
  {i : Instr} {is js : List Instr} {k k' : HandlerStack → Set Nat → Prop}

/-- What follows a block matters only if control falls through it. -/
theorem Tracks.weaken_block {b : Block} (h : Tracks late types k b.instrs S B)
    (hk : b.fallsThrough → ∀ S B, k S B → k' S B) : Tracks late types k' b.instrs S B := by
  by_cases hfall : b.fallsThrough
  · exact h.weaken (hk hfall)
  · refine h.of_stop ?_
    rw [Block.fallsThrough, Bool.not_eq_true, Option.all_eq_false] at hfall
    obtain ⟨i, hi, hstop⟩ := hfall
    exact ⟨i, mem_of_getLast? hi, by simpa using hstop⟩

theorem Instr.Tracked.toNop (h : i.Tracked late types S B) (hquiet : i.op.isQuiet)
    (his : Tracks late types k is S B) : Tracks late types k (i.toNop :: is) S B := by
  refine ⟨h.quiet hquiet rfl rfl nofun, fun _ => ?_⟩
  rw [handlersAfter_of_isQuiet rfl, binds_of_isQuiet rfl]
  exact his

theorem Thinned.tracks (h : Thinned is js) (his : Tracks late types k is S B) :
    Tracks late types k js S B := by
  induction h generalizing S B with
  | nil => exact his
  | keep i loc _ ih =>
    exact ⟨⟨his.1.handled, his.1.guarded, his.1.bound, his.1.jump, his.1.push⟩,
      fun hfall => ih (his.2 hfall)⟩
  | @drop i _ _ hi _ ih =>
    have hop : i.op = .real .nop := by simpa [Instr.isNop] using hi
    have hrest := his.2 (by rw [hop]; rfl)
    rw [Instr.handlersAfter_of_isQuiet (by rw [hop]; rfl),
      Instr.binds_of_isQuiet (by rw [hop]; rfl)] at hrest
    exact ih hrest

/-! ### Walks through a block -/

section

variable {P : BlockId → Prop} (hS : ∀ t ∈ S, P t) (his : ∀ i ∈ is, ∀ t, i.target = some t → P t)

include hS his

theorem Tracks.exists_end (h : Tracks late types k is S B) (hfall : ∀ i ∈ is, i.op.fallsThrough) :
    ∃ S B, (∀ t ∈ S, P t) ∧ k S B := by
  induction is generalizing S B with
  | nil => exact ⟨S, B, hS, h⟩
  | cons i is ih =>
    obtain ⟨hi, his⟩ := forall_mem_cons.mp his
    obtain ⟨hfirst, hfall⟩ := forall_mem_cons.mp hfall
    exact ih (Instr.forall_mem_handlersAfter hS hi) his (h.2 hfirst) hfall

theorem Tracks.exists_enters (h : Tracks late types k is S B) (hends : TerminatorsLast is)
    (hrefers : ∀ i ∈ is, i.target.isSome = i.op.hasTarget) (hi : i ∈ is) {t : BlockId}
    (ht : i.target = some t) : ∃ S B, (∀ t ∈ S, P t) ∧ Enters types S B t := by
  induction is generalizing S B with
  | nil => cases hi
  | cons j is ih =>
    obtain ⟨hj, his⟩ := forall_mem_cons.mp his
    obtain ⟨hnot, hends⟩ := terminatorsLast_cons.mp hends
    obtain ⟨href, hrefers⟩ := forall_mem_cons.mp hrefers
    rcases mem_cons.mp hi with rfl | hi
    · rw [ht, Option.isSome_some, hasTarget, eq_comm, Bool.or_eq_true] at href
      rcases href with hop | hop
      · exact ⟨S, B, hS, h.1.jump hop t ht⟩
      · exact ⟨S, Set.univ, hS, h.1.push hop t ht⟩
    · have hfall := fallsThrough_of_isTerminator (hnot (ne_nil_of_mem hi))
      exact ih (Instr.forall_mem_handlersAfter hS hj) his (h.2 hfall) hends hrefers hi

end

def Instr.relocate (f : BlockId → BlockId) (i : Instr) : Instr :=
  { i with target := i.target.map f, handler := i.handler.map f }

def Facts.relocate (f : BlockId → BlockId) (F : Facts) : Facts :=
  { F with handlers := F.handlers.map f }

theorem Instr.handlersAt_relocate (f : BlockId → BlockId) (i : Instr) (S : HandlerStack) :
    (i.relocate f).handlersAt (S.map f) = (i.handlersAt S).map f := by
  by_cases hop : i.op = .pseudo .popBlock <;> simp [handlersAt, relocate, hop, map_tail]

section

variable {P : BlockId → Prop} {f : BlockId → BlockId} {types' : BlockId → Option Facts}
  (hP : ∀ t F, P t → types t = some F → ∀ u ∈ F.handlers, P u)
  (henters : ∀ S B t, (∀ u ∈ S, P u) → P t → Enters types S B t → Enters types' (S.map f) B (f t))

include hP henters

theorem Guards.relocate (h : Guards types S B) (hS : ∀ t ∈ S, P t) : Guards types' (S.map f) B := by
  intro u hu
  rw [head?_map] at hu
  obtain ⟨t, ht, rfl⟩ := Option.map_eq_some_iff.mp hu
  obtain ⟨F, hF, hB⟩ := h t ht
  have htP := hS t (mem_of_mem_head? ht)
  obtain ⟨F', hF', _, hB'⟩ := henters F.handlers F.bound t (hP t F htP hF) htP
    ⟨F, hF, rfl, subset_rfl⟩
  exact ⟨F', hF', hB'.trans hB⟩

theorem Instr.Tracked.relocate (h : i.Tracked late types S B) (hS : ∀ t ∈ S, P t)
    (hi : ∀ t, i.target = some t → P t) :
    (i.relocate f).Tracked late types' (S.map f) B := by
  have hat := i.handlersAt_relocate f S
  have hatP : ∀ t ∈ i.handlersAt S, P t := forall_mem_handlersAt hS
  refine ⟨?_, fun hneed => ?_, h.bound, fun hop u hu => ?_, fun hop u hu => ?_⟩
  · rw [hat, head?_map]
    refine h.handled.imp (fun h => congrArg (Option.map f) h) fun h => ⟨h.1, ?_⟩
    exact congrArg (Option.map f) h.2
  · rw [hat]
    refine (h.guarded (hneed.imp_left fun h => ?_)).relocate hP henters hatP
    simpa [Instr.relocate] using h
  · obtain ⟨t, ht, rfl⟩ := Option.map_eq_some_iff.mp hu
    exact henters S B t hS (hi t ht) (h.jump hop t ht)
  · obtain ⟨t, ht, rfl⟩ := Option.map_eq_some_iff.mp hu
    exact henters S Set.univ t hS (hi t ht) (h.push hop t ht)

/-- The facts may be moved along with the blocks that they are about. -/
theorem Tracks.relocate (h : Tracks late types k is S B) (hS : ∀ t ∈ S, P t)
    (his : ∀ i ∈ is, ∀ t, i.target = some t → P t)
    (hk : ∀ S B, (∀ t ∈ S, P t) → k S B → k' (S.map f) B) :
    Tracks late types' k' (is.map (Instr.relocate f)) (S.map f) B := by
  induction is generalizing S B with
  | nil => exact hk S B hS h
  | cons i is ih =>
    obtain ⟨hi, his⟩ := forall_mem_cons.mp his
    refine ⟨h.1.relocate hP henters hS hi, fun hfall => ?_⟩
    have hafter : (i.relocate f).handlersAfter (S.map f) = (i.handlersAfter S).map f := by
      by_cases hpush : i.op.isBlockPush
      · cases htarget : i.target <;> simp [Instr.handlersAfter, Instr.relocate, hpush, htarget]
      · have hpush' : ¬ (i.relocate f).op.isBlockPush := hpush
        rw [Instr.handlersAfter, if_neg hpush', Instr.handlersAfter, if_neg hpush]
        exact Instr.handlersAt_relocate f i S
    rw [hafter]
    exact ih (h.2 hfall) (Instr.forall_mem_handlersAfter hS hi) his

end

end

namespace Graph

variable {g h k : Graph} {id : BlockId} {types types' : BlockId → Option Facts} {late : Prop}
  {params : Nat} {S : HandlerStack} {B B' : Set Nat} {i j : Instr} {is : List Instr}

def Continues (g : Graph) (types : BlockId → Option Facts) (id : BlockId) (S : HandlerStack)
    (B : Set Nat) : Prop :=
  ∃ n, (g.block id).next = some n ∧ Enters types S B n

/-- The facts that a graph is given are true on every path from the entry, where the parameters and
no other locals are bound. -/
structure Certified (g : Graph) (late : Prop) (params : Nat) (types : BlockId → Option Facts) :
    Prop where
  entry : Enters types [] { x | x < params } g.entry
  tracks : ∀ id ∈ g.order, ∀ f, types id = some f →
    Tracks late types (g.Continues types id) (g.block id).instrs f.handlers f.bound

/-- The facts are about blocks in reach, and so are the handlers in them. -/
structure Confined (g : Graph) (types : BlockId → Option Facts) : Prop where
  reaches : ∀ t f, types t = some f → Reaches g.successors [g.entry] t
  handlers : ∀ t f, types t = some f → ∀ u ∈ f.handlers, Reaches g.successors [g.entry] u

theorem Continues.mono (h : g.Continues types id S B) (hB : B ⊆ B') :
    g.Continues types id S B' := by
  obtain ⟨n, hn, henters⟩ := h
  exact ⟨n, hn, henters.mono hB⟩

namespace Certified

theorem enters (hg : g.Certified late params types) (hid : id ∈ g.order)
    (h : Enters types S B id) :
    Tracks late types (g.Continues types id) (g.block id).instrs S B := by
  obtain ⟨f, hf, rfl, hB⟩ := h
  exact (hg.tracks id hid f hf).mono hB fun _ _ _ hB hk => hk.mono hB

theorem rewrite (hg : g.Certified late params types) (id : BlockId) (hlinks : g.SameLinks h)
    (hother : ∀ a, a ≠ id → (h.block a).instrs = (g.block a).instrs)
    (hid : ∀ S B, Tracks late types (g.Continues types id) (g.block id).instrs S B →
      Tracks late types (g.Continues types id) (h.block id).instrs S B) :
    h.Certified late params types := by
  have hcontinues : ∀ a, h.Continues types a = g.Continues types a := by
    intro a
    funext S B
    simp only [Continues, hlinks.next]
  refine ⟨hlinks.entry ▸ hg.entry, fun a ha f hf => ?_⟩
  rw [hlinks.order] at ha
  rw [hcontinues]
  have hold := hg.tracks a ha f hf
  by_cases haid : a = id
  · subst haid
    exact hid _ _ hold
  · rwa [hother a haid]

theorem setInstrs (hg : g.Certified late params types)
    (his : ∀ S B, Tracks late types (g.Continues types id) (g.block id).instrs S B →
      Tracks late types (g.Continues types id) is S B) :
    (g.setInstrs id is).Certified late params types := by
  refine hg.rewrite id (.setInstrs id is) (fun a ha => ?_) fun S B hold => ?_
  · rw [block_setInstrs_of_ne _ _ ha.symm]
  · rw [block_setInstrs]
    split_ifs
    · exact his S B hold
    · exact hold

/-! ### Steps that keep the facts -/

section

variable (hg : g.Certified late params types)
include hg

theorem threads (hr : g.Regular) (hi : g.Holds i) (h : g.Threads i j)
    (htracked : i.Tracked late types S B) :
    j.Tracked late types S B ∧ (j.op.fallsThrough → i.op.fallsThrough ∧
      j.handlersAfter S = i.handlersAfter S ∧ j.binds B = i.binds B) := by
  have hold := h.isJump.1
  have hquiet := isQuiet_of_isJump hold
  have htest : ∀ {op : Operation}, op.isTest → op.fallsThrough := by
    intro op hop
    unfold isTest at hop
    split at hop <;> first | rfl | cases hop
  -- The new jump has a target that may be entered, and falls through only if the old one did.
  have hjump : j.op.isJump ∧ j.handler = i.handler ∧ (j.op.fallsThrough → i.op.fallsThrough) ∧
      ∀ t, j.target = some t → Enters types S B t := by
    cases h with
    | @along t dest rest op hi' ht hblock hdest hop =>
      have hnew : op.isJump := hop.elim (fun h => h ▸ hold) fun h => isJump_of_isTest h.2
      refine ⟨hnew, rfl, fun hfall => hop.elim (fun h => h ▸ hfall) fun h => htest h.1, ?_⟩
      intro u hu
      have htracks := hg.enters (hi.target t ht) (htracked.jump hold t ht)
      rw [hblock] at htracks
      refine htracks.1.jump ?_ u hu
      exact hdest.elim isJump_of_isTest fun h => h ▸ rfl
    | @past t next dest rest op hi' ht hblock hdest hnext hop =>
      refine ⟨isJump_of_isTest hop, rfl, fun _ => htest hi', fun u hu => ?_⟩
      obtain rfl := Option.some.inj hu
      have htmem := hi.target t ht
      have htracks := hg.enters htmem (htracked.jump hold t ht)
      -- A test is the last instruction of its block.
      have hends := hr.ended t htmem
      rw [hblock, terminatorsLast_cons] at hends
      have hdestjump := isJump_of_isTest hdest
      have hrest : rest = [] := by
        by_contra hne
        have hnot := hends.1 hne
        rw [isTerminator, hdestjump] at hnot
        cases hnot
      rw [hblock, hrest] at htracks
      have hdestquiet := isQuiet_of_isJump hdestjump
      obtain ⟨n, hn, henters⟩ := htracks.2 (htest hdest)
      rw [Instr.handlersAfter_of_isQuiet hdestquiet, Instr.binds_of_isQuiet hdestquiet] at henters
      obtain rfl : next = n := Option.some.inj (hnext.symm.trans hn)
      exact henters
  obtain ⟨hnew, hhandler, hfalls, htarget⟩ := hjump
  have hquiet' := isQuiet_of_isJump hnew
  refine ⟨htracked.quiet hquiet hquiet' hhandler fun _ => htarget,
    fun hfall => ⟨hfalls hfall, ?_, ?_⟩⟩
  · rw [Instr.handlersAfter_of_isQuiet hquiet, Instr.handlersAfter_of_isQuiet hquiet']
  · rw [Instr.binds_of_isQuiet hquiet, Instr.binds_of_isQuiet hquiet']

theorem thread (hr : g.Regular) {pre rest : List Instr} (hid : id ∈ g.order)
    (hblock : (g.block id).instrs = pre ++ i :: rest) (h : g.Threads i j) :
    (g.setInstrs id (pre ++ j :: rest)).Certified late params types := by
  refine hg.setInstrs fun S B hold => ?_
  rw [hblock, append_iff] at hold
  rw [append_iff]
  refine hold.weaken fun S B hold => ?_
  obtain ⟨hj, hsame⟩ := hg.threads hr (hr.holds id hid i (by simp [hblock])) h hold.1
  refine ⟨hj, fun hfall => ?_⟩
  obtain ⟨hfall, hhandlers, hbinds⟩ := hsame hfall
  rw [hhandlers, hbinds]
  exact hold.2 hfall

/-- A block that leaves the scope is entered by a jump or copied there. -/
theorem copyExit (hr : g.Regular) (hid : id ∈ g.order) {t : BlockId}
    (hinstrs : (g.block id).instrs = is ++ [i]) (hjump : i.op.isUnconditionalJump)
    (ht : i.target = some t) (hexit : (g.block t).exitsScope) :
    (g.setInstrs id (is ++ i.toNop :: (g.block t).instrs)).Certified late params types := by
  refine hg.setInstrs fun S B hold => ?_
  rw [hinstrs, append_iff] at hold
  rw [append_iff]
  refine hold.weaken fun S B hold => ?_
  have hjump := isJump_of_isUnconditionalJump hjump
  have htmem := (hr.holds id hid i (by simp [hinstrs])).target t ht
  refine hold.1.toNop (isQuiet_of_isJump hjump) ?_
  refine (hg.enters htmem (hold.1.jump hjump t ht)).weaken_block fun hfall => ?_
  rw [Block.fallsThrough_of_exitsScope hexit] at hfall
  cases hfall

theorem idleJump {t : BlockId} (hinstrs : (g.block id).instrs = is ++ [i])
    (hjump : i.op.isUnconditionalJump) (ht : i.target = some t)
    (hnext : (g.block id).next = some t) :
    (g.setInstrs id (is ++ [i.toNop])).Certified late params types := by
  refine hg.setInstrs fun S B hold => ?_
  rw [hinstrs, append_iff] at hold
  rw [append_iff]
  refine hold.weaken fun S B hold => ?_
  have hjump := isJump_of_isUnconditionalJump hjump
  exact hold.1.toNop (isQuiet_of_isJump hjump) ⟨t, hnext, hold.1.jump hjump t ht⟩

theorem absorb (hc : g.Closed) {pre post : List BlockId} {next : BlockId}
    (hj : g.Joint pre id next post) : (g.absorb id next).Certified late params types := by
  have horder := (hj.laysOut hc).order
  have hentry : (g.absorb id next).entry = g.entry := by
    unfold Graph.absorb
    rfl
  refine ⟨hentry ▸ hg.entry, fun a ha f hf => ?_⟩
  rw [horder] at ha
  have hold := hg.tracks a (hj.order ▸ by simp at ha ⊢; tauto) f hf
  by_cases haid : a = id
  · subst haid
    rw [hj.block_id hc, append_iff]
    refine hold.weaken fun S B hk => ?_
    obtain ⟨n, hn, henters⟩ := hk
    obtain rfl : next = n := Option.some.inj (hj.next_eq.symm.trans hn)
    refine (hg.enters hj.mem_next henters).weaken fun S B hk => ?_
    rwa [Continues, hj.block_id hc]
  · rw [hj.block_mem hc haid ha]
    refine hold.weaken fun S B hk => ?_
    rwa [Continues, hj.block_mem hc haid ha]

end

/-! ### Blocks in reach -/

variable (hg : g.Certified late params types)
include hg

/-- A block in reach may be entered, and all handlers that are open there are in reach. -/
theorem of_reaches (hr : g.Regular) (h : Reaches g.successors [g.entry] id) :
    ∃ f, types id = some f ∧ ∀ t ∈ f.handlers, Reaches g.successors [g.entry] t := by
  suffices henters : ∃ S B, (∀ t ∈ S, Reaches g.successors [g.entry] t) ∧ Enters types S B id by
    obtain ⟨S, B, hS, f, hf, rfl, _⟩ := henters
    exact ⟨f, hf, hS⟩
  induction h with
  | root ha => exact ⟨[], _, by simp, mem_singleton.mp ha ▸ hg.entry⟩
  | @step a b ha hb ih =>
    have hmem := hr.closed.within.inside ha
    obtain ⟨S, B, hS, henters⟩ := ih
    have htracks := hg.enters hmem henters
    have htargets : ∀ i ∈ (g.block a).instrs, ∀ t, i.target = some t →
        Reaches g.successors [g.entry] t :=
      fun i hi t ht => ha.step (mem_successors.mpr (.inl ⟨i, hi, ht⟩))
    rcases mem_successors.mp hb with ⟨i, hi, ht⟩ | ⟨hfall, hnext⟩
    · exact htracks.exists_enters hS htargets (hr.ended a hmem)
        (fun i hi => (hr.holds a hmem i hi).refers) hi ht
    · obtain ⟨S, B, hS, n, hn, henters⟩ := htracks.exists_end hS htargets
        ((Block.fallsThrough_iff (hr.ended a hmem)).mp hfall)
      obtain rfl : b = n := Option.some.inj (hnext.symm.trans hn)
      exact ⟨S, B, hS, henters⟩

/-- The facts about the blocks in reach are enough. -/
theorem exists_confined (hr : g.Regular) :
    ∃ types', g.Certified late params types' ∧ g.Confined types' := by
  classical
  have hP : ∀ t F, Reaches g.successors [g.entry] t → types t = some F →
      ∀ u ∈ F.handlers, Reaches g.successors [g.entry] u := by
    intro t F ht hF
    obtain ⟨f, hf, hS⟩ := hg.of_reaches hr ht
    obtain rfl : F = f := Option.some.inj (hF.symm.trans hf)
    exact hS
  let types' := fun id => if Reaches g.successors [g.entry] id then types id else none
  have hsome : ∀ {t F},
      types' t = some F ↔ Reaches g.successors [g.entry] t ∧ types t = some F := by
    intro t F
    simp [types']
  have henters : ∀ S B t, (∀ u ∈ S, Reaches g.successors [g.entry] u) →
      Reaches g.successors [g.entry] t → Enters types S B t →
        Enters types' (S.map fun t => t) B t := by
    rintro S B t _ ht ⟨f, hf, hS, hB⟩
    exact ⟨f, hsome.mpr ⟨ht, hf⟩, by rwa [map_id'], hB⟩
  refine ⟨types', ⟨henters [] _ _ (by simp) (.root (by simp)) hg.entry, fun a ha f hf => ?_⟩,
    fun t F hF => (hsome.mp hF).1, fun t F hF => hP t F (hsome.mp hF).1 (hsome.mp hF).2⟩
  obtain ⟨hreach, hf⟩ := hsome.mp hf
  -- The next block is in reach only if control falls through this one.
  have hfalls : Tracks late types (fun S B => (g.block a).fallsThrough ∧ g.Continues types a S B)
      (g.block a).instrs f.handlers f.bound :=
    (hg.tracks a ha f hf).weaken_block fun hfall _ _ hk => ⟨hfall, hk⟩
  have hmoved : Tracks late types' (g.Continues types' a)
      ((g.block a).instrs.map (Instr.relocate fun t => t)) (f.handlers.map fun t => t) f.bound := by
    refine hfalls.relocate hP henters (hP a f hreach hf)
      (fun i hi t ht => hreach.step (mem_successors.mpr (.inl ⟨i, hi, ht⟩))) ?_
    rintro S B hS ⟨hfall, n, hn, hk⟩
    exact ⟨n, hn, henters S B n hS (hreach.step (mem_successors.mpr (.inr ⟨hfall, hn⟩))) hk⟩
  rwa [map_id', show Instr.relocate (fun t => t) = fun i => i by
    funext i
    simp [Instr.relocate], map_id'] at hmoved

theorem clear (hr : g.Regular) :
    ∃ types', g.countPredecessors.clearUnreachable.Certified late params types' := by
  obtain ⟨types', hg, hconfined⟩ := hg.exists_confined hr
  have hlinks : g.SameLinks g.countPredecessors.clearUnreachable :=
    g.sameLinks_countPredecessors.trans g.countPredecessors.sameLinks_clearUnreachable
  refine ⟨types', hlinks.entry ▸ hg.entry, fun a ha f hf => ?_⟩
  rw [hlinks.order] at ha
  have hreach := hr.closed.within.mem_reachable_iff.mpr (hconfined.reaches a f hf)
  obtain ⟨n, hn⟩ := g.block_countPredecessors a
  have hcontinues : g.countPredecessors.clearUnreachable.Continues types' a =
      g.Continues types' a := by
    funext S B
    simp only [Continues, hlinks.next]
  rw [hcontinues, hr.closed.block_clear hreach, hn]
  exact hg.tracks a ha f hf

/-- A run of empty blocks that may be entered does not go off the end. -/
theorem exists_find {a : BlockId} {rest : List BlockId} (hlinked : g.Linked (a :: rest))
    (hmem : ∀ b ∈ a :: rest, b ∈ g.order) (h : Enters types S B a) :
    ∃ l, ((a :: rest).find? fun b => !(g.block b).isEmpty) = some l ∧ Enters types S B l := by
  induction rest generalizing a with
  | nil =>
    cases hempty : (g.block a).isEmpty with
    | false => exact ⟨a, by simp [hempty], h⟩
    | true =>
      have htracks := hg.enters (hmem a (by simp)) h
      rw [List.isEmpty_iff.mp hempty] at htracks
      obtain ⟨n, hn, _⟩ := htracks
      cases (show (g.block a).next = none from hlinked).symm.trans hn
  | cons b rest ih =>
    cases hempty : (g.block a).isEmpty with
    | false => exact ⟨a, by simp [hempty], h⟩
    | true =>
      have htracks := hg.enters (hmem a (by simp)) h
      rw [List.isEmpty_iff.mp hempty] at htracks
      obtain ⟨n, hn, henters⟩ := htracks
      obtain rfl : b = n := Option.some.inj (hlinked.1.symm.trans hn)
      rw [find?_cons_of_neg (by simp [hempty])]
      exact ih hlinked.2 (fun c hc => hmem c (mem_cons_of_mem _ hc)) henters

theorem exists_landing (hc : g.Closed) (hid : id ∈ g.order) (h : Enters types S B id) :
    g.landing? g.order id = some (g.land id) ∧ Enters types S B (g.land id) := by
  obtain ⟨pre, post, horder, hpre⟩ := eq_append_cons_of_mem hid
  obtain ⟨l, hl, henters⟩ := hg.exists_find (horder ▸ hc.layout.linked).of_append
    (fun b hb => horder ▸ mem_append_right _ hb) h
  have hland : g.landing? g.order id = some l := by rw [horder, landing?_eq hpre, hl]
  rw [land_eq hland]
  exact ⟨hland, henters⟩

theorem compacts (hr : g.Regular) (h : g.Compacts k) :
    ∃ types', k.Certified late params types' := by
  obtain ⟨types, hg, hconfined⟩ := hg.exists_confined hr
  have hc := hr.closed
  have hmem : ∀ {a}, Reaches g.successors [g.entry] a → a ∈ g.order :=
    hc.within.inside
  have henters : ∀ S B t, (∀ u ∈ S, u ∈ g.order) → t ∈ g.order → Enters types S B t →
      Enters (fun t => (types t).map (Facts.relocate g.land)) (S.map g.land) B (g.land t) := by
    intro S B t _ ht henters
    obtain ⟨_, f, hf, rfl, hB⟩ := hg.exists_landing hc ht henters
    exact ⟨f.relocate g.land, congrArg (Option.map (Facts.relocate g.land)) hf, rfl, hB⟩
  refine ⟨fun t => (types t).map (Facts.relocate g.land), ?_, fun a ha F hF => ?_⟩
  · have hentry := henters [] _ _ (by simp) hc.layout.entry_mem hg.entry
    rwa [land_eq (h.drops.landing_entry hc)] at hentry
  · rw [h.drops.layout.order] at ha
    obtain ⟨f, hf, rfl⟩ := Option.map_eq_some_iff.mp hF
    have hamem := (mem_live.mp ha).1
    rw [h.instrs a ha]
    refine (hg.tracks a hamem f hf).relocate
      (fun t F _ hF u hu => hmem (hconfined.handlers t F hF u hu)) henters
      (fun u hu => hmem (hconfined.handlers a f hf u hu))
      (fun i hi t ht => (hr.holds a hamem i hi).target t ht) ?_
    rintro S B hS ⟨n, hn, hk⟩
    have hnmem := hc.next_mem hamem hn
    obtain ⟨hland, _⟩ := hg.exists_landing hc hnmem hk
    exact ⟨g.land n, h.drops.next hc ha hn hland, henters S B n hS hnmem hk⟩

theorem step (hr : g.Regular) (h : g.Step k) : ∃ types', k.Certified late params types' := by
  cases h with
  | put hid h =>
    refine ⟨types, ?_⟩
    cases h with
    | edit h => exact hg.setInstrs fun _ _ hold => h.tracks hold
    | thin h => exact hg.setInstrs fun _ _ hold => h.tracks hold
    | thread hblock h => exact hg.thread hr hid hblock h
    | copyExit hblock hjump ht hexit => exact hg.copyExit hr hid hblock hjump ht hexit
    | idleJump hblock hjump ht hnext => exact hg.idleJump hblock hjump ht hnext
  | absorb hj => exact ⟨types, hg.absorb hr.closed hj⟩
  | clear => exact hg.clear hr
  | dropEmpty h =>
    rcases compacts_dropEmpty hr.closed h with ⟨rfl, _⟩ | h
    · exact ⟨types, hg⟩
    · exact hg.compacts hr h

theorem steps (hr : g.Regular) (h : g.Steps k) : ∃ types', k.Certified late params types' := by
  induction h with
  | refl => exact ⟨types, hg⟩
  | tail hsteps hstep ih =>
    obtain ⟨types', ih⟩ := ih
    exact ih.step (hr.steps hsteps) hstep

end Certified

end Graph

end Bytecode
