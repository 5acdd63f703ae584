import Bytecode.Proofs.Optimizer.Cold
import Bytecode.Proofs.Optimizer.Origins

/-!
# Compact graphs

A graph is compact if no block of its layout is empty and every one can be reached. The optimizer
leaves a regular graph compact, unless no instruction is left at all.
-/

namespace Bytecode

open List Result

variable {is : List Instr}

theorem Reaches.mono {succ succ' : Nat → List Nat} {roots : List Nat} {a : Nat}
    (h : Reaches succ roots a) (hsucc : ∀ a b, b ∈ succ a → b ∈ succ' a) :
    Reaches succ' roots a := by
  induction h with
  | root ha => exact .root ha
  | step _ hb ih => exact ih.step (hsucc _ _ hb)

/-- No target is lost with the idle instructions. -/
theorem Thinned.exists_target {js : List Instr} (h : Thinned is js)
    (his : ∀ i ∈ is, i.target.isSome = i.op.hasTarget) {i : Instr} (hi : i ∈ is) {t : BlockId}
    (ht : i.target = some t) : ∃ j ∈ js, j.target = some t := by
  induction h with
  | nil => cases hi
  | keep x loc _ ih =>
    obtain ⟨_, his⟩ := forall_mem_cons.mp his
    rcases mem_cons.mp hi with rfl | hi
    · exact ⟨_, mem_cons_self, ht⟩
    · obtain ⟨j, hj, hjt⟩ := ih his hi
      exact ⟨j, mem_cons_of_mem _ hj, hjt⟩
  | drop hnop _ ih =>
    obtain ⟨hx, his⟩ := forall_mem_cons.mp his
    rcases mem_cons.mp hi with rfl | hi
    · rw [show i.op = .real .nop by simpa [Instr.isNop] using hnop, ht] at hx
      cases hx
    · exact ih his hi

/-- Control gets through a block if it gets through every instruction. -/
theorem Block.fallsThrough_iff {b : Block} (h : TerminatorsLast b.instrs) :
    b.fallsThrough ↔ ∀ i ∈ b.instrs, i.op.fallsThrough := by
  simp only [Block.fallsThrough, Block.last?, Option.all_eq_true]
  constructor
  · intro hlast i hi
    rcases eq_nil_or_concat b.instrs with hnil | ⟨is, j, hj⟩
    · rw [hnil] at hi
      cases hi
    · rw [hj, concat_eq_append] at hi hlast h
      rcases mem_append.mp hi with hi | hi
      · exact Operation.fallsThrough_of_isTerminator (h i (by simpa using hi))
      · exact hlast i (by simpa using (mem_singleton.mp hi).symm)
  · exact fun hall i hi => hall i (mem_of_getLast? hi)

namespace Graph

variable {g h k : Graph} {id : BlockId}

theorem mem_successors {a b : BlockId} : b ∈ g.successors a ↔
    (∃ i ∈ (g.block a).instrs, i.target = some b) ∨
      (g.block a).fallsThrough ∧ (g.block a).next = some b := by
  rw [successors, mem_append, mem_filterMap, Option.mem_toList, fallthrough?_eq_some]

def Silent (g : Graph) : Prop :=
  ∀ id ∈ g.order, (g.block id).instrs = []

def Full (g : Graph) : Prop :=
  ∀ id ∈ g.order, (g.block id).instrs ≠ []

def Reached (g : Graph) : Prop :=
  ∀ id ∈ g.order, Reaches g.successors [g.entry] id

def LiveReached (g : Graph) : Prop :=
  ∀ id ∈ g.live, Reaches g.successors [g.entry] id

/-- A graph in good order in which nothing is left to remove. -/
structure Compact (g : Graph) : Prop where
  regular : g.Regular
  full : g.Full
  reached : g.Reached

theorem silent_of_live (h : g.live = []) : g.Silent := by
  intro id hid
  by_contra hne
  exact not_mem_nil (h ▸ mem_live.mpr ⟨hid, hne⟩)

theorem Reached.live (hg : g.Reached) : g.LiveReached :=
  fun id hid => hg id (mem_live.mp hid).1

theorem LiveReached.reached (hg : g.LiveReached) (hfull : g.Full) : g.Reached :=
  fun id hid => hg id (mem_live.mpr ⟨hid, hfull id hid⟩)

theorem Silent.steps (hg : g.Silent) (hr : g.Regular) (h : g.Steps k) : k.Silent := by
  refine fun id hid => eq_nil_iff_forall_not_mem.mpr fun j hj => ?_
  obtain ⟨a, ha, i, hi, -⟩ := h.supplies hr id hid j hj
  rw [hg a ha] at hi
  cases hi

/-! ### Steps that take no edge away -/

/-- Other instructions in a block that lead to all blocks that the old ones did. -/
theorem LiveReached.setInstrs (hg : g.LiveReached) (hlive : (g.block id).instrs = [] → is = [])
    (hsucc : ∀ b ∈ g.successors id, id < g.blocks.size → (∃ i ∈ is, i.target = some b) ∨
      ({ g.block id with instrs := is } : Block).fallsThrough ∧ (g.block id).next = some b) :
    (g.setInstrs id is).LiveReached := by
  have hlinks : g.SameLinks (g.setInstrs id is) := .setInstrs id is
  intro j hj
  obtain ⟨hmem, hne⟩ := mem_live.mp hj
  rw [hlinks.order] at hmem
  have hold : j ∈ g.live := by
    refine mem_live.mpr ⟨hmem, fun hnil => hne ?_⟩
    rw [block_setInstrs]
    split_ifs with heq
    · exact hlive (heq.1 ▸ hnil)
    · exact hnil
  rw [hlinks.entry]
  refine (hg j hold).mono fun a b hb => mem_successors.mpr ?_
  rw [block_setInstrs]
  split_ifs with heq
  · obtain ⟨rfl, hlt⟩ := heq
    exact hsucc b hb hlt
  · exact mem_successors.mp hb

theorem Full.setInstrs (hg : g.Full) (his : is ≠ []) : (g.setInstrs id is).Full := by
  intro j hj
  rw [(SameLinks.setInstrs id is).order] at hj
  rw [block_setInstrs]
  split_ifs
  exacts [his, hg j hj]

theorem LiveReached.dropNopsAt (hg : g.LiveReached) (hr : g.Regular) (hid : id ∈ g.order) :
    (g.dropNopsAt id).LiveReached := by
  have hthin := thinned_dropNops (g.lineAfter id) (g.block id).instrs
  have hfalls := Block.fallsThrough_iff (hr.ended id hid)
  refine hg.setInstrs (fun hnil => ?_) fun b hb _ => ?_
  · rw [hnil]
    rfl
  rcases mem_successors.mp hb with ⟨i, hi, ht⟩ | ⟨hfall, hnext⟩
  · left
    exact hthin.exists_target (fun i hi => (hr.holds id hid i hi).refers) hi ht
  · refine .inr ⟨(Block.fallsThrough_iff ((hr.ended id hid).thinned hthin)).mpr ?_, hnext⟩
    exact hthin.forall_mem (fun i loc hi => hi) (hfalls.mp hfall)

theorem LiveReached.idleJump (hg : g.LiveReached) (hr : g.Regular) (hid : id ∈ g.order)
    {i : Instr} {t : BlockId} (hinstrs : (g.block id).instrs = is ++ [i]) (ht : i.target = some t)
    (hnext : (g.block id).next = some t) : (g.setInstrs id (is ++ [i.toNop])).LiveReached := by
  refine hg.setInstrs (by simp [hinstrs]) fun b hb _ => ?_
  have hends : ∀ j ∈ is, j.op.isTerminator = false := fun j hj =>
    hr.ended id hid j (by simp [hinstrs, hj])
  have hfalls : ({ g.block id with instrs := is ++ [i.toNop] } : Block).fallsThrough := by
    simp [Block.fallsThrough, Block.last?, Instr.toNop]
    rfl
  rcases mem_successors.mp hb with ⟨j, hj, hjt⟩ | ⟨_, hn⟩
  · rw [hinstrs] at hj
    rcases mem_append.mp hj with hj | hj
    · exact .inl ⟨j, mem_append_left _ hj, hjt⟩
    · obtain rfl : j = i := by simpa using hj
      exact .inr ⟨hfalls, hnext.trans (ht.symm.trans hjt)⟩
  · exact .inr ⟨hfalls, hn⟩

theorem foldl_keeps {I : Graph → Prop} {step : Graph → BlockId → Graph} {ids : List BlockId}
    (hstep : ∀ (h : Graph) (id : BlockId), I h → id ∈ h.order →
      h.SameLinks (step h id) ∧ I (step h id)) (hids : ids ⊆ g.order) (hg : I g) :
    I (ids.foldl step g) := by
  induction ids generalizing g with
  | nil => exact hg
  | cons id ids ih =>
    obtain ⟨hid, hids⟩ := cons_subset.mp hids
    obtain ⟨hlinks, hI⟩ := hstep g id hg hid
    exact ih (hlinks.order ▸ hids) hI

theorem LiveReached.dropAllNops (hg : g.LiveReached) (hr : g.Regular) :
    g.dropAllNops.LiveReached := by
  refine (foldl_keeps (I := fun h => h.Regular ∧ h.LiveReached) (fun h id hI hid => ?_)
    (List.Subset.refl _) ⟨hr, hg⟩).2
  exact ⟨.setInstrs _ _, hI.1.steps (becomes_dropNopsAt hid []).steps, hI.2.dropNopsAt hI.1 hid⟩

theorem Compact.dropRedundantJumps (hg : g.Compact) : g.dropRedundantJumps.Compact := by
  refine foldl_keeps (fun h id hI hid => ?_) (List.Subset.refl _) hg
  split_ifs with hjump
  · obtain ⟨is, i, t, hinstrs, hop, ht, hnext, heq⟩ := idleJump_eq hjump
    rw [heq]
    have hlive := hI.reached.live.idleJump hI.regular hid hinstrs ht hnext
    have hfull : (h.setInstrs id (is ++ [i.toNop])).Full := hI.full.setInstrs (by simp)
    exact ⟨.setInstrs _ _, hI.regular.step (.put hid (.idleJump hinstrs hop ht hnext)), hfull,
      hlive.reached hfull⟩
  · exact ⟨.refl h, hI⟩

/-! ### Blocks that leave the layout -/

/-- The blocks in which the ways from the entry land can be reached. -/
theorem Compacts.reaches (hc : g.Compacts k) (hg : g.Closed) {a l : BlockId}
    (ha : Reaches g.successors [g.entry] a) (hl : g.landing? g.order a = some l) :
    Reaches k.successors [k.entry] l := by
  have hmem : ∀ {a}, Reaches g.successors [g.entry] a → a ∈ g.order :=
    hg.within.inside
  induction ha generalizing l with
  | root hroot =>
    obtain rfl := mem_singleton.mp hroot
    refine .root (mem_singleton.mpr ?_)
    exact Option.some.inj (hl.symm.trans (hc.drops.landing_entry hg))
  | @step a b ha hb ih =>
    have hself : (g.block a).instrs ≠ [] → Reaches k.successors [k.entry] a ∧ a ∈ g.live ∧
        (k.block a).instrs = (g.block a).instrs.map g.relocate := by
      intro hne
      have hlive := mem_live.mpr ⟨hmem ha, hne⟩
      refine ⟨ih (landing?_self (hmem ha) ?_), hlive, hc.instrs a hlive⟩
      simpa [Block.isEmpty] using hne
    rcases mem_successors.mp hb with ⟨i, hi, ht⟩ | ⟨hfall, hnext⟩
    · obtain ⟨hreach, hlive, hinstrs⟩ := hself (ne_nil_of_mem hi)
      refine hreach.step (mem_successors.mpr (.inl ⟨g.relocate i, ?_, ?_⟩))
      · rw [hinstrs]
        exact mem_map_of_mem hi
      · simp [relocate, ht, land_eq hl]
    · by_cases hne : (g.block a).instrs = []
      · -- An empty block lands where the next one does.
        obtain ⟨pre, post, horder⟩ := hg.layout.linked.split (hmem ha) hnext
        have hnodup := horder ▸ hg.layout.nodup
        refine ih ?_
        rw [horder, landing?_eq fun h => (nodup_append.mp hnodup).2.2 a h a (by simp) rfl]
        rw [horder] at hl
        rw [show pre ++ a :: b :: post = (pre ++ [a]) ++ b :: post by simp] at hl hnodup
        rw [landing?_eq fun h => (nodup_append.mp hnodup).2.2 b h b (by simp) rfl] at hl
        rw [find?_cons_of_neg (by simp [Block.isEmpty, hne]), hl]
      · obtain ⟨hreach, hlive, hinstrs⟩ := hself hne
        refine hreach.step (mem_successors.mpr (.inr ⟨?_, hc.drops.next hg hlive hnext hl⟩))
        simp only [Block.fallsThrough, Block.last?, hinstrs, getLast?_map, Option.all_map]
        exact hfall

/-- Without the empty blocks the graph is compact, unless it has none but these. -/
theorem LiveReached.dropEmpty (hg : g.LiveReached) (hr : g.Regular) (h : g.dropEmpty = .ok k) :
    k.Silent ∨ k.Compact := by
  have hkr := hr.step (.dropEmpty h)
  rcases compacts_dropEmpty hr.closed h with ⟨rfl, hlive | hlive⟩ | hc
  · exact .inl (silent_of_live hlive)
  · have hfull : k.Full := fun id hid => (mem_live.mp (hlive ▸ hid)).2
    exact .inr ⟨hkr, hfull, hg.reached hfull⟩
  · have horder := hc.drops.layout.order
    refine .inr ⟨hkr, fun id hid => ?_, fun id hid => ?_⟩ <;> rw [horder] at hid
    · rw [hc.instrs id hid]
      simpa using (mem_live.mp hid).2
    · obtain ⟨hmem, hne⟩ := mem_live.mp hid
      exact hc.reaches hr.closed (hg id hid)
        (landing?_self hmem (by simpa [Block.isEmpty] using hne))

theorem Regular.dropUnreachable (hg : g.Regular) (h : g.dropUnreachable = .ok k) :
    k.Silent ∨ k.Compact := by
  have hc := hg.closed
  have hlinks : g.SameLinks g.countPredecessors.clearUnreachable :=
    g.sameLinks_countPredecessors.trans g.countPredecessors.sameLinks_clearUnreachable
  refine LiveReached.dropEmpty (fun id hid => ?_) (hg.step (.clear g)) h
  obtain ⟨hmem, hne⟩ := mem_live.mp hid
  rw [hlinks.order] at hmem
  have hreach : id ∈ g.reachable := by
    by_contra hnot
    exact hne (hc.instrs_clear hmem hnot)
  rw [hlinks.entry]
  have hkeep : ∀ {a}, Reaches g.successors [g.entry] a →
      Reaches g.countPredecessors.clearUnreachable.successors [g.entry] a := by
    intro a ha
    induction ha with
    | root ha => exact .root ha
    | @step a b ha hb ih =>
      refine ih.step (mem_successors.mpr ?_)
      obtain ⟨n, hn⟩ := g.block_countPredecessors a
      rw [hc.block_clear (hc.within.mem_reachable_iff.mpr ha), hn]
      exact mem_successors.mp hb
  exact hkeep (hc.within.mem_reachable_iff.mp hreach)

/-- What is tidied is compact or silent; without fuel nothing happens. -/
theorem tidy_compact {fuel : Nat} (hr : g.Regular) (hg : g.LiveReached)
    (hzero : fuel = 0 → g.Silent ∨ g.Compact) (h : g.tidy fuel = .ok k) :
    k.Silent ∨ k.Compact := by
  induction fuel generalizing g with
  | zero => exact Except.ok.inj h ▸ hzero rfl
  | succ fuel ih =>
    obtain ⟨b, hdrop, h⟩ := bind_eq_ok.mp h
    have hnops := (becomes_dropAllNops g []).steps
    have hb := (hg.dropAllNops hr).dropEmpty (hr.steps hnops) hdrop
    have hbr : b.Regular := hr.steps (hnops.tail (.dropEmpty hdrop))
    split_ifs at h
    · have hsteps := (becomes_dropRedundantJumps b []).steps
      have hnext : b.dropRedundantJumps.Silent ∨ b.dropRedundantJumps.Compact :=
        hb.imp (fun hs => hs.steps hbr hsteps) fun hc => hc.dropRedundantJumps
      refine ih (hbr.steps hsteps) (fun id hid => ?_) (fun _ => hnext) h
      rcases hnext with hs | hc
      · exact absurd (hs id (mem_live.mp hid).1) (mem_live.mp hid).2
      · exact hc.reached.live id hid
    · exact Except.ok.inj h ▸ hb

/-- Joining two blocks takes no way from the entry away. -/
theorem Compact.absorb (hg : g.Compact) {pre post : List BlockId} {next : BlockId}
    (hj : g.Joint pre id next post) (hend : (g.block id).isTerminated = false)
    (hhidden : g.Unreferenced next) : (g.absorb id next).Compact := by
  have hc := hg.regular.closed
  have horder := (hj.laysOut hc).order
  have hnew := hj.block_id hc
  have hne := hj.ne hc
  have hmem : ∀ {a}, Reaches g.successors [g.entry] a → a ∈ g.order :=
    hc.within.inside
  refine ⟨hg.regular.step (.absorb hj hend hhidden), fun j hjmem => ?_, fun j hjmem => ?_⟩
  · rw [horder] at hjmem
    by_cases hid : j = id
    · rw [hid, hnew]
      exact append_ne_nil_of_left_ne_nil (hg.full id hj.mem_id) _
    · rw [hj.block_mem hc hid hjmem]
      refine hg.full j ?_
      rw [hj.order]
      simp only [mem_append, mem_cons] at hjmem ⊢
      tauto
  · have hreach : ∀ {a}, Reaches g.successors [g.entry] a →
        Reaches (g.absorb id next).successors [g.entry] (if a = next then id else a) := by
      intro a ha
      induction ha with
      | root ha =>
        obtain rfl := mem_singleton.mp ha
        rw [if_neg (hc.layout.next_ne_entry hj.mem_id hj.next_eq).symm]
        exact .root ha
      | @step a b ha hb ih =>
        by_cases hbn : b = next
        · -- Only the first of the two blocks leads to the second.
          obtain rfl := hbn
          rw [if_pos rfl]
          rcases mem_successors.mp hb with ⟨i, hi, ht⟩ | ⟨_, hn⟩
          · exact absurd ht (hhidden a (hmem ha) i hi).1
          · by_cases hid : a = id
            · rwa [if_neg (hid ▸ hne), hid] at ih
            · exact absurd rfl (hj.next_ne hc (hmem ha) hid hn)
        rw [if_neg hbn]
        refine ih.step (mem_successors.mpr ?_)
        have hfalls : ∀ x : Block, x.instrs = (g.block id).instrs ++ (g.block next).instrs →
            (g.block next).fallsThrough → x.fallsThrough := by
          intro x hx hfall
          have hlast : x.last? = (g.block next).last? := by
            rw [Block.last?, hx, getLast?_append, Block.last?]
            obtain ⟨is, i, hi⟩ := (eq_nil_or_concat _).resolve_left (hg.full next hj.mem_next)
            rw [hi]
            simp
          rwa [Block.fallsThrough, hlast]
        rcases mem_successors.mp hb with ⟨i, hi, ht⟩ | ⟨hfall, hn⟩
        · left
          split_ifs with han
          · refine ⟨i, ?_, ht⟩
            rw [hnew]
            exact mem_append_right _ (han ▸ hi)
          · refine ⟨i, ?_, ht⟩
            by_cases hid : a = id
            · rw [hid, hnew]
              exact mem_append_left _ (hid ▸ hi)
            · rwa [Joint.block_other hid han]
        · split_ifs with han
          · subst han
            rw [hnew]
            exact .inr ⟨hfalls _ rfl hfall, hn⟩
          · by_cases hid : a = id
            · subst hid
              exact absurd (Option.some.inj (hn.symm.trans hj.next_eq)) hbn
            · rw [Joint.block_other hid han]
              exact .inr ⟨hfall, hn⟩
    rw [horder] at hjmem
    have hnot : j ≠ next := fun he => hj.not_mem hc (he ▸ hjmem)
    have hold : j ∈ g.order := by
      rw [hj.order]
      simp only [mem_append, mem_cons] at hjmem ⊢
      tauto
    have := hreach (hg.reached j hold)
    rwa [if_neg hnot] at this

theorem Compact.mergeFallthrough (hg : g.Compact) : g.mergeFallthrough.Compact :=
  mergeFallthrough_induction (fun h => h.regular.closed)
    (fun h hj hend hhidden => h.absorb hj hend hhidden) hg

/-! ### Rounds -/

variable {config : PassConfig} {cs cs' : List Constant}

theorem Regular.optimizeOnce (hg : g.Regular) (h : g.optimizeOnce config cs = .ok (k, cs')) :
    k.Silent ∨ k.Compact := by
  unfold Graph.optimizeOnce at h
  obtain ⟨⟨⟩, _, h⟩ := bind_eq_ok.mp h
  obtain ⟨a, ha, h⟩ := bind_eq_ok.mp h
  obtain ⟨⟨b, cs₁⟩, hb, h⟩ := bind_eq_ok.mp h
  obtain ⟨c, hc, h⟩ := bind_eq_ok.mp h
  obtain ⟨d, hd, h⟩ := bind_eq_ok.mp h
  cases h
  have hbr := hg.steps (becomes_simplify hg.closed hg.ended ha hb).steps
  have hcr := hbr.steps (becomes_dropUnreachable hbr.closed hc []).steps
  have hdr := hcr.steps (becomes_tidy hcr.closed hd []).steps
  have hlive : c.LiveReached := by
    rcases hbr.dropUnreachable hc with hs | hc
    · exact fun id hid => absurd (hs id (mem_live.mp hid).1) (mem_live.mp hid).2
    · exact hc.reached.live
  refine (tidy_compact hcr hlive (fun h => by cases h) hd).imp (fun hs => ?_)
    fun hc => hc.mergeFallthrough
  exact hs.steps hdr (becomes_mergeFallthrough hdr.closed []).steps

theorem Regular.optimizeRounds (hg : g.Regular) {rounds : Nat}
    (h : g.optimizeRounds config (rounds + 1) cs = .ok (k, cs')) : k.Silent ∨ k.Compact := by
  induction rounds generalizing g cs with
  | zero =>
    obtain ⟨⟨b, cs₁⟩, hb, h⟩ := bind_eq_ok.mp h
    have hfirst := hg.optimizeOnce hb
    dsimp only at h
    split_ifs at h <;> cases h <;> exact hfirst
  | succ rounds ih =>
    obtain ⟨⟨b, cs₁⟩, hb, h⟩ := bind_eq_ok.mp h
    dsimp only at h
    split_ifs at h
    · cases h
      exact hg.optimizeOnce hb
    · exact ih (hg.steps (becomes_optimizeOnce hg.closed hb).steps) h

theorem Regular.prune (hg : g.Regular) (h : g.prune cs = .ok (k, cs')) : k.Silent ∨ k.Compact := by
  unfold Graph.prune at h
  obtain ⟨a, ha, h⟩ := bind_eq_ok.mp h
  obtain ⟨b, hb, h⟩ := bind_eq_ok.mp h
  cases h
  exact (hg.step (.dropEmpty ha)).dropUnreachable hb

end Graph

end Bytecode
