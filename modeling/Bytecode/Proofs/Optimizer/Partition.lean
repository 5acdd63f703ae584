import Bytecode.Proofs.Optimizer.Drafts
import Mathlib.Data.List.Nodup

/-!
# Warm and cold blocks apart

The layout has the blocks first that can be reached without a fault, and then all others, with a new
block behind each that fell through into one of the first. The new block only jumps there. So every
block leads where it led, and of the instructions only jumps to the next block have changed, into
idle ones.
-/

namespace Bytecode.Graph

open List Function Option

variable {g h k l m : Graph} {id j n : BlockId} {jump : BlockId → Option BlockId}
  {ids : List BlockId}

/-! ### Warm blocks -/

/-- The blocks that a block leads to: by a jump, by falling through, and by opening a handler. -/
def leadsTo (g : Graph) (id : BlockId) : List BlockId :=
  g.plainSuccessors id ++ ((g.block id).instrs.filter (·.op.isBlockPush)).filterMap (·.target)

/-- The block can be reached from the entry without a fault. -/
def Warm (g : Graph) : BlockId → Prop :=
  Reaches g.plainSuccessors [g.entry]

theorem warm_markCold (hg : g.Closed) (hid : id ∈ g.order) :
    (g.markCold.block id).warm ↔ g.Warm id := by
  rw [markCold, block_mapIdx, if_pos (hg.layout.bound id hid)]
  exact contains_iff_mem.trans hg.mem_reach_plainSuccessors

/-- A block that can be reached, but not without a fault, is cold. -/
theorem cold_markCold (hg : g.Closed) (hreach : ∀ id ∈ g.order, Reaches g.leadsTo [g.entry] id)
    (hid : id ∈ g.order) : (g.markCold.block id).cold ↔ ¬ g.Warm id := by
  have ht := hg.tempered_markCold
  have hmarked : id ∈ g.markCold.order ∧
      ((g.markCold.block id).warm ∨ (g.markCold.block id).cold) := by
    refine (hreach id hid).inside (B := fun id => id ∈ g.markCold.order ∧
      ((g.markCold.block id).warm ∨ (g.markCold.block id).cold)) (fun a ha => ?_)
        fun a ha b hb => ?_
    · obtain rfl := mem_singleton.mp ha
      exact ⟨g.order_markCold ▸ hg.layout.entry_mem, .inl ht.entry⟩
    · rcases mem_append.mp hb with hb | hb
      · rw [← plainSuccessors_markCold] at hb
        exact ht.step hg.bridging_markCold.closed ha hb
      · obtain ⟨i, hi, htarget⟩ := mem_filterMap.mp hb
        obtain ⟨hi, hpush⟩ := mem_filter.mp hi
        obtain ⟨hmem, hhandler⟩ := hg.admits a (g.order_markCold ▸ ha.1) i hi b htarget
        rw [← order_markCold] at hmem
        refine ⟨hmem, ht.handler b hmem ?_⟩
        rw [(relates_markCold g).handler]
        exact hhandler hpush
  rw [← warm_markCold hg hid]
  constructor
  · intro hcold hwarm
    rw [ht.apart id (g.order_markCold ▸ hid) hwarm] at hcold
    cases hcold
  · exact hmarked.2.resolve_left

/-! ### Jumps behind blocks -/

def Spills (g : Graph) (id next : BlockId) : Prop :=
  (g.block id).cold ∧ g.fallthrough? id = some next ∧ (g.block next).warm

def withJumps (jump : BlockId → Option BlockId) (ids : List BlockId) : List BlockId :=
  ids.flatMap fun id => id :: (jump id).toList

theorem withJumps_append (jump : BlockId → Option BlockId) (ids ids' : List BlockId) :
    withJumps jump (ids ++ ids') = withJumps jump ids ++ withJumps jump ids' :=
  flatMap_append ..

theorem withJumps_congr {jump' : BlockId → Option BlockId} (h : ∀ id ∈ ids, jump id = jump' id) :
    withJumps jump ids = withJumps jump' ids := by
  rw [withJumps, withJumps]
  exact flatMap_congr fun id hid => by rw [h id hid]

theorem mem_withJumps : j ∈ withJumps jump ids ↔ j ∈ ids ∨ ∃ id ∈ ids, jump id = some j := by
  simp only [withJumps, mem_flatMap, mem_cons, mem_toList]
  constructor
  · rintro ⟨id, hid, rfl | hj⟩
    · exact .inl hid
    · exact .inr ⟨id, hid, hj⟩
  · rintro (hj | ⟨id, hid, hj⟩)
    · exact ⟨j, hj, .inl rfl⟩
    · exact ⟨id, hid, .inr hj⟩

def jumpBlock (next : BlockId) : Block where
  instrs := [{ op := .pseudo .jump, target := some next }]
  next := some next
  predecessors := 1
  cold := true

/-- In the middle of the pass: the blocks in `done` have the jumps behind them that they need, and
those in `rest` are as they were. -/
structure Bridged (m h : Graph) (jump : BlockId → Option BlockId) (done rest : List BlockId) :
    Prop where
  order : h.order = withJumps jump done ++ rest
  size : m.blocks.size ≤ h.blocks.size
  old : ∀ id ∈ m.order, ∃ n, h.block id = { m.block id with next := n }
  rest : ∀ id ∈ rest, h.block id = m.block id
  jumps : ∀ id j, jump id = some j → id ∈ done ∧ ∃ n, m.Spills id n ∧ m.blocks.size ≤ j ∧
    j < h.blocks.size ∧ h.block j = jumpBlock n
  needed : ∀ id ∈ done, jump id = none → ∀ n, ¬ m.Spills id n

namespace Bridged

variable {done rest : List BlockId}

theorem start (m : Graph) : m.Bridged m (fun _ => none) [] m.order :=
  ⟨rfl, Nat.le_refl _, fun _ _ => ⟨_, rfl⟩, fun _ _ => rfl, nofun, nofun⟩

/-- Before a block is looked at, it spills as it did at first. -/
theorem spills_iff (hb : m.Bridged h jump done (id :: rest)) (hm : m.Closed) (hid : id ∈ m.order) :
    h.Spills id n ↔ m.Spills id n := by
  have hself := hb.rest id (by simp)
  have hfall : h.fallthrough? id = m.fallthrough? id := by rw [fallthrough?, fallthrough?, hself]
  rw [Spills, Spills, hfall, hself]
  refine and_congr_right fun _ => and_congr_right fun hn => ?_
  obtain ⟨n', hn'⟩ := hb.old n (hm.next_mem hid (fallthrough?_eq_some.mp hn).2)
  rw [hn']

theorem step (hb : m.Bridged h jump done (id :: rest)) (hm : m.Closed) (hh : h.Closed)
    (horder : m.order = done ++ id :: rest) :
    ∃ jump', m.Bridged (h.bridge id) jump' (done ++ [id]) rest := by
  have hid : id ∈ m.order := by simp [horder]
  have hnodup := horder ▸ hm.layout.nodup
  obtain ⟨hdone, hrest⟩ : id ∉ done ∧ id ∉ rest := by
    rw [nodup_middle, nodup_cons, mem_append, not_or] at hnodup
    exact hnodup.1
  have hnone : jump id = none :=
    eq_none_iff_forall_ne_some.mpr fun j hj => hdone (hb.jumps id j hj).1
  have hlast : withJumps jump [id] = [id] := by simp [withJumps, hnone]
  have hmem : id ∈ h.order := by simp [hb.order]
  obtain ⟨heq, hkeep⟩ | ⟨next, hbridges⟩ := bridge_cases hh hmem
  · refine ⟨jump, ?_⟩
    rw [heq]
    refine ⟨?_, hb.size, hb.old, fun j hj => hb.rest j (mem_cons_of_mem _ hj),
      fun j j' hj => ?_, fun j hj hj' n hspills => ?_⟩
    · rw [hb.order, withJumps_append, hlast, append_assoc]
      rfl
    · obtain ⟨hmem, hjump⟩ := hb.jumps j j' hj
      exact ⟨mem_append_left _ hmem, hjump⟩
    · rcases mem_append.mp hj with hj | hj
      · exact hb.needed j hj hj' n hspills
      · obtain rfl := mem_singleton.mp hj
        obtain ⟨hcold, hfall, hwarm⟩ := (hb.spills_iff hm hid).mpr hspills
        exact hkeep n hcold hfall hwarm
  · have hspills : m.Spills id next := by
      refine (hb.spills_iff hm hid).mp ⟨hbridges.cold, ?_, hbridges.warm⟩
      exact fallthrough?_eq_some.mpr ⟨hbridges.falls, hbridges.link⟩
    have hnew : ∀ j ∈ m.order, j ≠ h.blocks.size := fun j hj =>
      Nat.ne_of_lt (Nat.lt_of_lt_of_le (hm.layout.bound j hj) hb.size)
    refine ⟨update jump id (some h.blocks.size), ?_, ?_, fun j hj => ?_, fun j hj => ?_,
      fun j j' hj => ?_, fun j hj hj' n hspills' => ?_⟩
    · obtain ⟨pre, post, hpre, hlays⟩ := hbridges.laysOut hh
      have hsplit : withJumps jump done ++ id :: rest = pre ++ id :: next :: post :=
        hb.order.symm.trans hpre
      have hnodup' := hb.order ▸ hh.layout.nodup
      rw [nodup_middle, nodup_cons, mem_append, not_or] at hnodup'
      obtain ⟨hpre, -, hpost⟩ :=
        (append_cons_inj_of_notMem hnodup'.1.1 hnodup'.1.2).mp hsplit
      have hsame : withJumps (update jump id (some h.blocks.size)) done = withJumps jump done := by
        refine withJumps_congr fun j hj => update_of_ne ?_ ..
        exact fun heq => hdone (heq ▸ hj)
      rw [hlays.order, withJumps_append, hsame, hpre, ← hpost]
      simp [withJumps]
    · rw [hbridges.size]
      exact Nat.le_succ_of_le hb.size
    · by_cases hne : j = id
      · subst hne
        exact ⟨_, by rw [hbridges.self, hb.rest j (by simp)]⟩
      · rw [hbridges.other j (hnew j hj) hne]
        exact hb.old j hj
    · have hjm : j ∈ m.order := by simp [horder, hj]
      have hne : j ≠ id := fun heq => hrest (heq ▸ hj)
      rw [hbridges.other j (hnew j hjm) hne]
      exact hb.rest j (mem_cons_of_mem _ hj)
    · by_cases hne : j = id
      · subst hne
        rw [update_self] at hj
        obtain rfl := some.inj hj
        refine ⟨by simp, next, hspills, hb.size, ?_, hbridges.jump⟩
        rw [hbridges.size]
        exact Nat.lt_succ_self _
      · rw [update_of_ne hne] at hj
        obtain ⟨hmem, n, hspills', hle, hlt, hblock⟩ := hb.jumps j j' hj
        have hne' : j' ≠ id := fun heq => Nat.not_lt.mpr hle (heq ▸ hm.layout.bound id hid)
        refine ⟨mem_append_left _ hmem, n, hspills', hle, ?_, ?_⟩
        · rw [hbridges.size]
          exact Nat.lt_succ_of_lt hlt
        · rw [hbridges.other j' (Nat.ne_of_lt hlt) hne', hblock]
    · rcases mem_append.mp hj with hj | hj
      · have hne : j ≠ id := fun heq => hdone (heq ▸ hj)
        rw [update_of_ne hne] at hj'
        exact hb.needed j hj hj' n hspills'
      · obtain rfl := mem_singleton.mp hj
        rw [update_self] at hj'
        cases hj'

theorem foldl (hm : m.Closed) (hb : m.Bridged h jump done rest) (hh : h.Bridging rest)
    (horder : m.order = done ++ rest) :
    ∃ jump', m.Bridged (rest.foldl bridge h) jump' m.order [] := by
  induction rest generalizing h jump done with
  | nil =>
    rw [append_nil] at horder
    exact ⟨jump, horder ▸ hb⟩
  | cons id rest ih =>
    obtain ⟨jump', hb'⟩ := hb.step hm hh.closed horder
    exact ih hb' hh.bridge (by simp [horder])

end Bridged

/-! ### The new layout -/

open Classical in
/-- The layout with the warm blocks first, and a jump behind each of the others that has one. -/
noncomputable def warmFirst (g : Graph) (jump : BlockId → Option BlockId) : List BlockId :=
  g.order.filter (fun id => decide (g.Warm id)) ++
    withJumps jump (g.order.filter fun id => decide (¬ g.Warm id))

/-- The warm blocks of a graph have been laid out first, and jumps stand where other blocks fell
through into them. -/
structure Parted (g l : Graph) (jump : BlockId → Option BlockId) : Prop where
  laysOut : l.LaysOut (g.warmFirst jump)
  instrs : ∀ id ∈ g.order, (l.block id).instrs = (g.block id).instrs
  jumps : ∀ id j, jump id = some j → id ∈ g.order ∧ ¬ g.Warm id ∧ g.blocks.size ≤ j ∧
    ∃ n, g.fallthrough? id = some n ∧ g.Warm n ∧
      l.block j = { jumpBlock n with next := (l.block j).next }
  needed : ∀ id ∈ g.order, ¬ g.Warm id → jump id = none → ∀ n, g.fallthrough? id = some n →
    ¬ g.Warm n

theorem Warm.next (h : g.Warm id) (hn : g.fallthrough? id = some n) : g.Warm n :=
  Reaches.step h (mem_plainSuccessors_of_fallthrough hn)

/-- The blocks where a block leads, through the blocks that are not in the first graph. -/
def landings (g l : Graph) (id : BlockId) : List BlockId :=
  (l.plainSuccessors id).flatMap fun s => if s < g.blocks.size then [s] else l.plainSuccessors s

namespace Parted

/-- Where a block fell through, the layout leads to the same block, perhaps by way of a jump. -/
theorem next (hp : g.Parted l jump) (hg : g.Closed) (hid : id ∈ g.order)
    (hn : g.fallthrough? id = some n) : (l.block id).next = some ((jump id).getD n) := by
  classical
  obtain ⟨pre, post, horder⟩ := hg.layout.linked.split hid (fallthrough?_eq_some.mp hn).2
  have hlinked := hp.laysOut.linked
  rw [warmFirst] at hlinked
  by_cases hwarm : g.Warm id
  · have hnone : jump id = none :=
      eq_none_iff_forall_ne_some.mpr fun j hj => (hp.jumps id j hj).2.1 hwarm
    rw [horder, filter_adjacent (by simpa using hwarm) (by simpa using hwarm.next hn),
      append_assoc] at hlinked
    rw [hnone]
    exact hlinked.next_of_append
  · have hlinked := hlinked.of_append
    cases hj : jump id with
    | some j =>
      rw [horder, filter_append, filter_cons, if_pos (by simpa using hwarm),
        withJumps_append] at hlinked
      have hcons : ∀ ids, withJumps jump (id :: ids) = id :: j :: withJumps jump ids := by
        simp [withJumps, hj]
      rw [hcons] at hlinked
      exact hlinked.next_of_append
    | none =>
      have hcold := hp.needed id hid hwarm hj n hn
      rw [horder, filter_adjacent (by simpa using hwarm) (by simpa using hcold),
        withJumps_append] at hlinked
      have hcons : ∀ ids, withJumps jump (id :: n :: ids) =
          id :: n :: ((jump n).toList ++ withJumps jump ids) := by
        simp [withJumps, hj]
      rw [hcons] at hlinked
      exact hlinked.next_of_append

theorem plainSuccessors_jump (hp : g.Parted l jump) (hj : jump id = some j)
    (hn : g.fallthrough? id = some n) : l.plainSuccessors j = [n] := by
  obtain ⟨-, -, -, n', hn', -, hblock⟩ := hp.jumps id j hj
  obtain rfl : n = n' := some.inj (hn.symm.trans hn')
  have hfall : l.fallthrough? j = none := by
    rw [fallthrough?, hblock]
    rfl
  rw [plainSuccessors, hfall, hblock]
  rfl

theorem landings_eq (hp : g.Parted l jump) (hg : g.Closed)
    (hlast : ∀ id ∈ g.order, (g.block id).next = none → (g.block id).fallsThrough = false)
    (hid : id ∈ g.order) : g.landings l id = g.plainSuccessors id := by
  have hinside : ∀ s ∈ g.order, s < g.blocks.size := hg.layout.bound
  have hfalls : (l.block id).fallsThrough = (g.block id).fallsThrough := by
    rw [Block.fallsThrough, Block.last?, hp.instrs id hid]
    rfl
  rw [landings, plainSuccessors, plainSuccessors, hp.instrs id hid, flatMap_append]
  congr 1
  · rw [flatMap_congr (g := fun s => [s])]
    · exact flatMap_singleton' _
    · intro s hs
      obtain ⟨i, hi, ht⟩ := mem_filterMap.mp hs
      exact if_pos (hinside s (hg.admits id hid i (mem_of_mem_filter hi) s ht).1)
  · cases hn : g.fallthrough? id with
    | none =>
      have hnot : (g.block id).fallsThrough = false := by
        cases hfall : (g.block id).fallsThrough with
        | false => rfl
        | true =>
          rw [fallthrough?, if_pos hfall] at hn
          rw [hlast id hid hn] at hfall
          cases hfall
      rw [fallthrough?, hfalls, hnot]
      rfl
    | some n =>
      have hnext := hp.next hg hid hn
      have hlf : l.fallthrough? id = some ((jump id).getD n) := by
        rw [fallthrough?, hfalls, if_pos (fallthrough?_eq_some.mp hn).1, hnext]
      rw [hlf]
      cases hj : jump id with
      | none =>
        have hlt := hinside n (hg.next_mem hid (fallthrough?_eq_some.mp hn).2)
        simp [hlt]
      | some j =>
        have hnot : ¬ j < g.blocks.size := Nat.not_lt.mpr (hp.jumps id j hj).2.2.1
        simp [hnot, hp.plainSuccessors_jump hj hn]

end Parted

/-! ### Jumps to the next block -/

/-- The last instruction of a block was a jump to the next one and has become idle. -/
def Idled (b b' : Block) : Prop :=
  ∃ is i t, b.instrs = is ++ [i] ∧ i.op.isUnconditionalJump ∧ i.target = some t ∧
    b.next = some t ∧ b' = { b with instrs := is ++ [i.toNop] }

theorem idled_modifyLast (h : g.endsInRedundantJump id) :
    Idled (g.block id) ((g.block id).modifyLast Instr.toNop) := by
  obtain ⟨is, i, t, hinstrs, hjump, htarget, hnext, -⟩ := idleJump_eq h
  have hlast : (g.block id).last? = some i := by simp [Block.last?, hinstrs]
  refine ⟨is, i, t, hinstrs, hjump, htarget, hnext, ?_⟩
  rw [Block.modifyLast, hlast, hinstrs, dropLast_concat]

theorem endsInRedundantJump_of_idled {b : Block} (h : Idled b (g.block id)) :
    g.endsInRedundantJump id = false := by
  obtain ⟨is, i, t, -, -, -, -, hblock⟩ := h
  rw [endsInRedundantJump, hblock, Block.last?, getLast?_concat]
  rfl

/-- Of the blocks, some have lost a jump to the next one. -/
def Idles (g h : Graph) : Prop :=
  ∀ id, h.block id = g.block id ∨ Idled (g.block id) (h.block id)

theorem Idles.refl (g : Graph) : g.Idles g :=
  fun _ => .inl rfl

theorem Idles.step (hh : g.Idles h) (a : BlockId) : g.Idles
    (if h.endsInRedundantJump a then h.modify a (·.modifyLast Instr.toNop) else h) := by
  intro id
  split_ifs with hjump
  · rw [block_modify]
    split_ifs with hid
    · obtain ⟨rfl, -⟩ := hid
      rcases hh a with heq | hidled
      · rw [heq]
        rw [endsInRedundantJump, heq] at hjump
        exact .inr (idled_modifyLast hjump)
      · rw [endsInRedundantJump_of_idled hidled] at hjump
        cases hjump
    · exact hh id
  · exact hh id

theorem idles_dropRedundantJumps (g : Graph) : g.Idles g.dropRedundantJumps :=
  List.foldlRecOn g.order _ (.refl g) fun _ hh a _ => hh.step a

/-- A block leads where it led once a jump to the next block has become idle. -/
theorem Idles.plainSuccessors (hh : g.Idles h) (id : BlockId) :
    h.plainSuccessors id = g.plainSuccessors id := by
  rcases hh id with heq | ⟨is, i, t, hinstrs, hjump, htarget, hnext, heq⟩
  · rw [Graph.plainSuccessors, Graph.plainSuccessors, fallthrough?, fallthrough?, heq]
  · have hold : g.fallthrough? id = none := by
      simp [fallthrough?, Block.fallsThrough, Block.last?, hinstrs, Operation.fallsThrough, hjump]
    have hnew : h.fallthrough? id = some t := by
      rw [fallthrough?_eq_some, heq]
      exact ⟨by simp [Block.fallsThrough, Block.last?, Instr.toNop]; rfl, hnext⟩
    rw [Graph.plainSuccessors, Graph.plainSuccessors, hold, hnew, heq, hinstrs]
    have hop := Operation.isJump_of_isUnconditionalJump hjump
    have hnop : i.toNop.op.isJump = false := rfl
    simp [hop, hnop, htarget]

theorem sameLinks_dropRedundantJumps (g : Graph) : g.SameLinks g.dropRedundantJumps := by
  refine .foldl (fun h id => ?_) _ _
  split_ifs
  · exact .modify id fun b => b.next_modifyLast _
  · exact .refl h

/-! ### The pass -/

section

variable (hg : g.Closed) (hreach : ∀ id ∈ g.order, Reaches g.leadsTo [g.entry] id)
  (hb : g.markCold.Bridged h jump g.markCold.order [])

include hg hreach hb

theorem Bridged.of_jump (hj : jump id = some j) : id ∈ g.order ∧ ¬ g.Warm id ∧
    g.blocks.size ≤ j ∧ ∃ n, g.fallthrough? id = some n ∧ g.Warm n ∧ h.block j = jumpBlock n := by
  obtain ⟨hid, n, ⟨hcold, hn, hwarm⟩, hle, -, hblock⟩ := hb.jumps id j hj
  rw [order_markCold] at hid
  rw [fallthrough?_markCold] at hn
  have hnmem := hg.next_mem hid (fallthrough?_eq_some.mp hn).2
  refine ⟨hid, (cold_markCold hg hreach hid).mp hcold, ?_, n, hn,
    (warm_markCold hg hnmem).mp hwarm, hblock⟩
  rwa [(relates_markCold g).links.size] at hle

theorem Bridged.cold_iff (hid : id ∈ g.order) : (h.block id).cold ↔ ¬ g.Warm id := by
  obtain ⟨n, hn⟩ := hb.old id (g.order_markCold ▸ hid)
  rw [hn]
  exact cold_markCold hg hreach hid

open Classical in
/-- The cold blocks are those that are not warm, and the jumps behind them. -/
theorem Bridged.coldLast_eq : h.coldLast = g.warmFirst jump := by
  have hkinds : ∀ ids ⊆ g.order,
      (withJumps jump ids).filter (fun id => !(h.block id).cold) =
          ids.filter (fun id => decide (g.Warm id)) ∧
        (withJumps jump ids).filter (fun id => (h.block id).cold) =
          withJumps jump (ids.filter fun id => decide (¬ g.Warm id)) := by
    intro ids hsub
    induction ids with
    | nil => exact ⟨rfl, rfl⟩
    | cons id ids ih =>
      obtain ⟨ihwarm, ihcold⟩ := ih fun j hj => hsub (mem_cons_of_mem _ hj)
      have hcold := hb.cold_iff hg hreach (hsub mem_cons_self)
      have hjump : ∀ j ∈ (jump id).toList, (h.block j).cold := by
        intro j hj
        obtain ⟨-, -, -, n, -, -, hblock⟩ := hb.of_jump hg hreach (mem_toList.mp hj)
        rw [hblock]
        rfl
      have hnone : g.Warm id → jump id = none := fun hwarm =>
        eq_none_iff_forall_ne_some.mpr fun j hj => (hb.of_jump hg hreach hj).2.1 hwarm
      have hcons : withJumps jump (id :: ids) = (id :: (jump id).toList) ++ withJumps jump ids :=
        flatMap_cons
      by_cases hwarm : g.Warm id
      · have hnot : (h.block id).cold = false := by
          rw [← Bool.not_eq_true, hcold]
          exact not_not.mpr hwarm
        rw [hcons, hnone hwarm]
        simp [hnot, hwarm, ihwarm, ihcold]
      · have hall : ∀ j ∈ id :: (jump id).toList, (h.block j).cold :=
          forall_mem_cons.mpr ⟨hcold.mpr hwarm, hjump⟩
        have hfirst : (id :: (jump id).toList).filter (fun id => !(h.block id).cold) = [] := by
          refine filter_eq_nil_iff.mpr fun j hj => ?_
          rw [hall j hj]
          simp
        rw [hcons, filter_append, filter_append, hfirst, filter_eq_self.mpr hall,
          ihwarm, ihcold, filter_cons_of_neg (by simpa using hwarm),
          filter_cons_of_pos (by simpa using hwarm)]
        exact ⟨rfl, rfl⟩
  rw [coldLast, hb.order, append_nil, warmFirst, order_markCold]
  obtain ⟨hwarm, hcold⟩ := hkinds g.order (List.Subset.refl _)
  rw [hwarm, hcold]

theorem Bridged.parted (hlays : l.LaysOut h.coldLast)
    (hblock : ∀ id, ∃ n, l.block id = { h.block id with next := n }) : g.Parted l jump := by
  refine ⟨hb.coldLast_eq hg hreach ▸ hlays, fun id hid => ?_, fun id j hj => ?_,
    fun id hid hcold hnone n hn hwarm => ?_⟩
  · obtain ⟨n, hn⟩ := hblock id
    obtain ⟨n', hn'⟩ := hb.old id (g.order_markCold ▸ hid)
    obtain ⟨w, c, hmark⟩ := g.block_markCold id
    rw [hn, hn', hmark]
  · obtain ⟨hid, hcold, hle, n, hn, hwarm, hjump⟩ := hb.of_jump hg hreach hj
    obtain ⟨n', hn'⟩ := hblock j
    refine ⟨hid, hcold, hle, n, hn, hwarm, ?_⟩
    rw [hn', hjump]
  · refine hb.needed id (g.order_markCold ▸ hid) hnone n ⟨?_, ?_, ?_⟩
    · exact (cold_markCold hg hreach hid).mpr hcold
    · rw [fallthrough?_markCold, hn]
    · exact (warm_markCold hg (hg.next_mem hid (fallthrough?_eq_some.mp hn).2)).mpr hwarm

end

theorem parted_of_next_none (hg : g.Closed) (hnone : (g.block g.entry).next = none) :
    g.Parted g fun _ => none := by
  classical
  have hwarm : g.Warm g.entry := .root (by simp)
  have horder : g.order = [g.entry] := by
    obtain ⟨rest, horder⟩ := head?_eq_some_iff.mp hg.layout.head
    have hlinked := horder ▸ hg.layout.linked
    cases rest with
    | nil => exact horder
    | cons a rest => exact absurd (hnone.symm.trans hlinked.1) nofun
  refine ⟨?_, fun _ _ => rfl, nofun, fun id hid hcold => ?_⟩
  · have hfirst : g.warmFirst (fun _ => none) = g.order := by
      rw [warmFirst, horder]
      simp [hwarm, withJumps]
    rw [hfirst]
    exact hg.layout
  · rw [horder, mem_singleton] at hid
    exact absurd (hid ▸ hwarm) hcold

theorem exists_parted (hg : g.Closed) (hreach : ∀ id ∈ g.order, Reaches g.leadsTo [g.entry] id) :
    ∃ jump l, g.Parted l jump ∧ l.Idles g.moveColdToEnd ∧ l.SameLinks g.moveColdToEnd := by
  unfold moveColdToEnd
  split_ifs with hnone
  · exact ⟨_, g, parted_of_next_none hg (isNone_iff_eq_none.mp hnone), .refl g, .refl g⟩
  dsimp only
  have hmarked := hg.bridging_markCold
  obtain ⟨jump, hb⟩ :=
    (Bridged.start g.markCold).foldl hmarked.closed hmarked (nil_append _).symm
  have hbridging : (g.markCold.order.foldl bridge g.markCold).Bridging [] :=
    (hmarked.foldl_induction (I := fun _ => True) (fun _ _ _ _ => trivial) trivial).1
  generalize g.markCold.order.foldl bridge g.markCold = h at hb hbridging
  rw [partition_eq_filter_filter]
  dsimp only
  split_ifs with hempty
  · have hlays : h.LaysOut h.coldLast := by
      have hnil := List.isEmpty_iff.mp hempty
      have hall : h.coldLast = h.order := by
        rw [coldLast, hnil, append_nil, filter_eq_self]
        intro id hid
        simpa using filter_eq_nil_iff.mp hnil id hid
      rw [hall]
      exact hbridging.closed.layout
    exact ⟨jump, h, hb.parted hg hreach hlays fun id => ⟨_, rfl⟩, .refl h, .refl h⟩
  · exact ⟨jump, _, hb.parted hg hreach (laysOut_coldLast hbridging.closed hbridging.tempered)
      (h.block_setLayout h.coldLast), idles_dropRedundantJumps _, sameLinks_dropRedundantJumps _⟩

/-- A jump behind a block is never to the next block, which is not warm. -/
theorem Parted.instrs_jump (hp : g.Parted l jump) (hg : g.Closed) (hk : l.Idles k)
    (hj : jump id = some j) :
    (k.block j).instrs = [{ op := .pseudo .jump, target := g.fallthrough? id }] := by
  classical
  obtain ⟨hid, hcold, -, n, hn, hwarm, hblock⟩ := hp.jumps id j hj
  have hinstrs : (l.block j).instrs = [{ op := .pseudo .jump, target := some n }] := by
    rw [hblock]
    rfl
  rcases hk j with heq | ⟨is, i, t, his, -, htarget, hnext, -⟩
  · rw [heq, hinstrs, hn]
  · obtain ⟨-, rfl⟩ : is = [] ∧ i = { op := .pseudo .jump, target := some n } := by
      have hsingle := his.symm.trans hinstrs
      cases is with
      | nil => exact ⟨rfl, by simpa using hsingle⟩
      | cons => simp at hsingle
    obtain rfl : n = t := some.inj htarget
    have hlinked := hp.laysOut.linked
    have hnodup := hp.laysOut.nodup
    rw [warmFirst] at hlinked hnodup
    have hjmem : j ∈ withJumps jump (g.order.filter fun id => decide (¬ g.Warm id)) :=
      mem_withJumps.mpr (.inr ⟨id, mem_filter.mpr ⟨hid, by simpa using hcold⟩, hj⟩)
    have hnmem := hlinked.of_append.next_mem hjmem hnext
    have hnwarm : n ∈ g.order.filter fun id => decide (g.Warm id) :=
      mem_filter.mpr ⟨hg.next_mem hid (fallthrough?_eq_some.mp hn).2, by simpa using hwarm⟩
    exact absurd rfl ((nodup_append.mp hnodup).2.2 n hnwarm n hnmem)

/-- The second layout has the warm blocks first, and behind each other block that fell through into
a warm one a new block that only jumps there. All blocks lead where they led, and only jumps to the
next block have changed, which do nothing any more. -/
def Reorders (g h : Graph) : Prop :=
  ∃ jump : BlockId → Option BlockId,
    (∀ id, (jump id).isSome ↔
      id ∈ g.order ∧ ¬ g.Warm id ∧ ∃ n, g.fallthrough? id = some n ∧ g.Warm n) ∧
    h.LaysOut (g.warmFirst jump) ∧
    (∀ id j, jump id = some j → g.blocks.size ≤ j ∧ (h.block j).instrs =
      [{ op := .pseudo .jump, target := g.fallthrough? id }]) ∧
    ∀ id ∈ g.order, g.landings h id = g.plainSuccessors id ∧
      ((h.block id).instrs = (g.block id).instrs ∨
        ∃ is i t, (g.block id).instrs = is ++ [i] ∧ i.op.isUnconditionalJump ∧
          i.target = some t ∧ (h.block id).next = some t ∧ (h.block id).instrs = is ++ [i.toNop])

/-- Moving the cold blocks only reorders, if nothing leads out of the layout, all blocks can be
reached and the last one does not fall through. -/
theorem moveColdToEnd_reorders (hg : g.Closed)
    (hreach : ∀ id ∈ g.order, Reaches g.leadsTo [g.entry] id)
    (hlast : ∀ id ∈ g.order, (g.block id).next = none → (g.block id).fallsThrough = false) :
    g.Reorders g.moveColdToEnd := by
  obtain ⟨jump, l, hp, hk, hlinks⟩ := exists_parted hg hreach
  refine ⟨jump, fun id => ⟨fun hsome => ?_, fun ⟨hid, hcold, n, hn, hwarm⟩ => ?_⟩,
    hlinks.laysOut hp.laysOut, fun id j hj => ?_, fun id hid => ⟨?_, ?_⟩⟩
  · obtain ⟨j, hj⟩ := isSome_iff_exists.mp hsome
    obtain ⟨hid, hcold, -, n, hn, hwarm, -⟩ := hp.jumps id j hj
    exact ⟨hid, hcold, n, hn, hwarm⟩
  · rw [isSome_iff_ne_none]
    exact fun hnone => hp.needed id hid hcold hnone n hn hwarm
  · exact ⟨(hp.jumps id j hj).2.2.1, hp.instrs_jump hg hk hj⟩
  · rw [← hp.landings_eq hg hlast hid, landings, landings]
    simp only [hk.plainSuccessors]
  · rcases hk id with heq | ⟨is, i, t, his, hop, htarget, hnext, heq⟩
    · rw [heq]
      exact .inl (hp.instrs id hid)
    · rw [hp.instrs id hid] at his
      exact .inr ⟨is, i, t, his, hop, htarget, by rw [heq, hnext], by rw [heq]⟩

/-- Whether a search along all edges finds every block of the layout. -/
def findsAll (g : Graph) : Bool :=
  g.order.all fun id => (reach g.leadsTo g.blocks.size [g.entry]).contains id

theorem Closed.reaches_of_findsAll (hg : g.Closed) (h : g.findsAll) :
    ∀ id ∈ g.order, Reaches g.leadsTo [g.entry] id := by
  intro id hid
  have hfound := contains_iff_mem.mp (all_eq_true.mp h id hid)
  refine (mem_reach_iff (B := (· ∈ g.order)) ?_ hg.layout.bound fun a ha b hb => ?_).mp hfound
  · simpa using hg.layout.entry_mem
  · rcases mem_append.mp hb with hb | hb
    · exact hg.mem_of_plainSuccessors ha hb
    · obtain ⟨i, hi, htarget⟩ := mem_filterMap.mp hb
      exact (hg.admits a ha i (mem_of_mem_filter hi) b htarget).1

/-- A guarded region jumps over its handler, which falls through to the block behind. -/
def fallingHandler : List ListingItem :=
  [.pseudo .setupFinally 1 1, .real .loadName 0 2, .real .popTop 0 2, .pseudo .popBlock 0 2,
   .pseudo .jump 2 2, .label 1, .real .popTop 0 3, .label 2, .real .returnConst 0 4]

theorem moveColdToEnd_reorders_fallingHandler : ∃ r, ofItems fallingHandler = .ok r ∧
    let g := r.markHandlers
    g.Closed ∧ (∀ id ∈ g.order, Reaches g.leadsTo [g.entry] id) ∧
    (∀ id ∈ g.order, (g.block id).next = none → (g.block id).fallsThrough = false) ∧
    g.moveColdToEnd.order = [0, 2, 1, 3] ∧
    g.Reorders g.moveColdToEnd := by
  have hok : (ofItems fallingHandler).toOption.any fun r =>
      r.markHandlers.findsAll &&
        (r.markHandlers.order.all fun id => (r.markHandlers.block id).next.isSome ||
          !(r.markHandlers.block id).fallsThrough) &&
        r.markHandlers.moveColdToEnd.order = [0, 2, 1, 3] := by decide +kernel
  obtain ⟨r, hitems, hok⟩ := Result.exists_of_any hok
  simp only [Bool.and_eq_true, decide_eq_true_eq] at hok
  obtain ⟨⟨hfinds, hstops⟩, horder⟩ := hok
  have hclosed := (resolved_ofItems hitems).regular_markHandlers.closed
  have hreach := hclosed.reaches_of_findsAll hfinds
  have hlast : ∀ id ∈ r.markHandlers.order, (r.markHandlers.block id).next = none →
      (r.markHandlers.block id).fallsThrough = false := by
    intro id hid hnone
    simpa [hnone] using List.all_eq_true.mp hstops id hid
  exact ⟨r, hitems, hclosed, hreach, hlast, horder, moveColdToEnd_reorders hclosed hreach hlast⟩

/-- The handler is outside the layout, and only from there a block between warm ones is reached. -/
def offside : Graph where
  blocks := #[
    { instrs := [{ op := .pseudo .setupFinally, target := some 3 }, { op := .pseudo .popBlock },
        { op := .pseudo .jump, target := some 2 }], next := some 1 },
    { instrs := [{ op := .real .returnConst }], next := some 2 },
    { instrs := [{ op := .real .returnConst }] },
    { instrs := [{ op := .pseudo .jump, target := some 1 }], isHandler := true }]

/-- That the targets are in the layout cannot be left out. -/
theorem not_reorders_offside : ¬∀ g : Graph, g.LaysOut g.order →
    (∀ id ∈ g.order, ∀ i ∈ (g.block id).instrs, i.op.isBlockPush →
      ∀ t ∈ i.target, (g.block t).isHandler) →
    (∀ id ∈ g.order, Reaches g.leadsTo [g.entry] id) →
    (∀ id ∈ g.order, (g.block id).next = none → (g.block id).fallsThrough = false) →
    g.Reorders g.moveColdToEnd := by
  intro h
  have hlays : offside.LaysOut [0, 1, 2] := ⟨rfl, ⟨rfl, rfl, rfl⟩, by decide, by decide⟩
  have hmem : ∀ succ : BlockId → List BlockId, (∀ a < 4, ∀ b ∈ succ a, b < 4) → ∀ id,
      id ∈ reach succ 4 [0] ↔ Reaches succ [0] id := fun succ hsucc id =>
    mem_reach_iff (B := (· < 4)) (by simp) (fun _ ha => ha) hsucc
  have hfound : ∀ id ∈ offside.order, id ∈ reach offside.leadsTo 4 [0] := by decide
  obtain ⟨jump, -, hjump, -⟩ := h offside (hlays.order.symm ▸ hlays) (by decide)
    (fun id hid => (hmem offside.leadsTo (by decide) id).mp (hfound id hid)) (by decide)
  have hwarm : ∀ id, offside.Warm id ↔ id ∈ reach offside.plainSuccessors 4 [0] := fun id =>
    (hmem offside.plainSuccessors (by decide) id).symm
  have hwarm₀ : offside.Warm 0 := (hwarm 0).mpr (by decide)
  have hwarm₁ : ¬ offside.Warm 1 := mt (hwarm 1).mp (by decide)
  have hwarm₂ : offside.Warm 2 := (hwarm 2).mpr (by decide)
  have horder : offside.moveColdToEnd.order = [0, 1, 2] := by decide
  rw [hjump.order, warmFirst, hlays.order] at horder
  simp [hwarm₀, hwarm₁, hwarm₂] at horder

end Bytecode.Graph
