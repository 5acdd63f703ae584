import Bytecode.Proofs.Optimizer.Sweeps

/-!
# Cold blocks

A run that comes to a block without a fault comes to a warm one, so no warm block falls through into
a cold one. Once a jump stands where a cold block fell through into a warm one, the two kinds can be
laid out apart.
-/

namespace Bytecode

open List Machine Program

variable {V W E : Type} {M : Machine V W E} {I : Graph → Prop}
variable {j : BlockId}

namespace Graph

variable {g h : Graph} {id next : BlockId} {pre post : List BlockId}

/-! ### Warm and cold -/

/-- The marks of the blocks agree with what the blocks lead to. -/
structure Tempered (g : Graph) : Prop where
  entry : (g.block g.entry).warm
  apart : ∀ id ∈ g.order, (g.block id).warm → (g.block id).cold = false
  handler : ∀ id ∈ g.order, (g.block id).isHandler → (g.block id).warm ∨ (g.block id).cold
  warm : ∀ id ∈ g.order, (g.block id).warm → ∀ s ∈ g.plainSuccessors id, (g.block s).warm
  cold : ∀ id ∈ g.order, (g.block id).cold → ∀ s ∈ g.plainSuccessors id,
    (g.block s).warm ∨ (g.block s).cold

/-- The block does not fall through from a cold place into a warm one. -/
def Settled (g : Graph) (id : BlockId) : Prop :=
  (g.block id).cold → ∀ n, g.fallthrough? id = some n → (g.block n).cold

theorem plainSuccessors_subset (g : Graph) (id : BlockId) :
    g.plainSuccessors id ⊆ g.successors id := by
  intro s hs
  simp only [plainSuccessors, successors, mem_append, mem_filterMap, mem_filter] at hs ⊢
  rcases hs with ⟨i, hi, ht⟩ | hs
  · exact .inl ⟨i, hi.1, ht⟩
  · exact .inr hs

theorem Closed.mem_of_plainSuccessors (hg : g.Closed) (hid : id ∈ g.order)
    (hj : j ∈ g.plainSuccessors id) : j ∈ g.order :=
  hg.within.step _ hid _ (g.plainSuccessors_subset id hj)

theorem mem_plainSuccessors_of_jump {i : Instr} (hi : i ∈ (g.block id).instrs)
    (hjump : i.op.isJump) (ht : i.target = some next) : next ∈ g.plainSuccessors id :=
  mem_append_left _ (mem_filterMap.mpr ⟨i, mem_filter.mpr ⟨hi, hjump⟩, ht⟩)

theorem mem_plainSuccessors_of_fallthrough (h : g.fallthrough? id = some next) :
    next ∈ g.plainSuccessors id :=
  mem_append_right _ (by simp [h])

theorem fallthrough?_eq_some :
    g.fallthrough? id = some next ↔ (g.block id).fallsThrough ∧ (g.block id).next = some next := by
  unfold fallthrough?
  split_ifs with hfall <;> simp [hfall]

theorem block_markCold (g : Graph) (id : BlockId) :
    ∃ w c, g.markCold.block id = { g.block id with warm := w, cold := c } := by
  rw [markCold]
  dsimp only
  rw [block_mapIdx]
  split_ifs
  · exact ⟨_, _, rfl⟩
  · exact ⟨(g.block id).warm, (g.block id).cold, rfl⟩

theorem fallthrough?_markCold (g : Graph) (id : BlockId) :
    g.markCold.fallthrough? id = g.fallthrough? id := by
  obtain ⟨w, c, hblock⟩ := g.block_markCold id
  simp only [fallthrough?, hblock]
  rfl

theorem plainSuccessors_markCold (g : Graph) (id : BlockId) :
    g.markCold.plainSuccessors id = g.plainSuccessors id := by
  obtain ⟨w, c, hblock⟩ := g.block_markCold id
  simp only [plainSuccessors, fallthrough?_markCold, hblock]

theorem order_markCold (g : Graph) : g.markCold.order = g.order :=
  (relates_markCold g).links.order

theorem Closed.mem_reach_plainSuccessors (hg : g.Closed) :
    j ∈ reach g.plainSuccessors g.blocks.size [g.entry] ↔
      Reaches g.plainSuccessors [g.entry] j := by
  refine mem_reach_iff (B := (· ∈ g.order)) ?_ hg.layout.bound fun a ha b hb => ?_
  · simpa using hg.layout.entry_mem
  · exact hg.mem_of_plainSuccessors ha hb

/-- What the marks mean. -/
theorem Closed.markCold_spec (hg : g.Closed) : ∃ warm cold : BlockId → Prop,
    (∀ id ∈ g.order, ((g.markCold.block id).warm ↔ warm id) ∧
      ((g.markCold.block id).cold ↔ cold id)) ∧
    warm g.entry ∧ (∀ a, warm a → ∀ b ∈ g.plainSuccessors a, warm b) ∧
    (∀ id ∈ g.order, (g.block id).isHandler → warm id ∨ cold id) ∧
    (∀ a, cold a → ∀ b ∈ g.plainSuccessors a, warm b ∨ cold b) ∧ ∀ a, cold a → ¬ warm a := by
  let warm := reach g.plainSuccessors g.blocks.size [g.entry]
  let handlers := g.order.filter fun id => (g.block id).isHandler && !warm.contains id
  let onward := fun id => (g.plainSuccessors id).filter fun s => !warm.contains s
  have hwarm : ∀ a, a ∈ warm ↔ Reaches g.plainSuccessors [g.entry] a :=
    fun _ => hg.mem_reach_plainSuccessors
  have hcold : ∀ a, a ∈ reach onward g.blocks.size handlers ↔ Reaches onward handlers a := by
    intro a
    refine mem_reach_iff (B := (· ∈ g.order)) ?_ hg.layout.bound fun a ha b hb => ?_
    · exact fun a ha => mem_of_mem_filter ha
    · exact hg.mem_of_plainSuccessors ha (mem_of_mem_filter hb)
  refine ⟨(· ∈ warm), Reaches onward handlers, fun id hid => ?_, (hwarm _).mpr (.root (by simp)),
    fun a ha b hb => (hwarm b).mpr (((hwarm a).mp ha).step hb), fun id hid hhandler => ?_,
    fun a ha b hb => ?_, fun a ha => ?_⟩
  · rw [markCold]
    dsimp only
    rw [block_mapIdx, if_pos (hg.layout.bound id hid)]
    exact ⟨contains_iff_mem, contains_iff_mem.trans (hcold id)⟩
  · by_cases hw : id ∈ warm
    · exact .inl hw
    · exact .inr (.root (by simp [handlers, hid, hhandler, hw]))
  · by_cases hw : b ∈ warm
    · exact .inl hw
    · exact .inr (ha.step (by simp [onward, hb, hw]))
  · refine ha.inside (B := (· ∉ warm)) (fun a ha => ?_) fun a _ b hb => ?_
    · have hroot : (g.block a).isHandler ∧ a ∉ warm := by simpa using (mem_filter.mp ha).2
      exact hroot.2
    · simpa using (mem_filter.mp hb).2

theorem Closed.tempered_markCold (hg : g.Closed) : g.markCold.Tempered := by
  obtain ⟨warm, cold, hmarks, hentry, hwarm, hhandler, hcold, hapart⟩ := hg.markCold_spec
  refine ⟨((hmarks _ hg.layout.entry_mem).1).mpr hentry, ?_, ?_, ?_, ?_⟩
  all_goals
    intro id hid
    rw [order_markCold] at hid
    obtain ⟨hw, hc⟩ := hmarks id hid
  · intro hwid
    rw [← Bool.not_eq_true, hc]
    exact fun hcid => hapart id hcid (hw.mp hwid)
  · intro hh
    rw [hw, hc]
    obtain ⟨w, c, hblock⟩ := g.block_markCold id
    rw [hblock] at hh
    exact hhandler id hid hh
  · intro hwid s hs
    rw [plainSuccessors_markCold] at hs
    exact (hmarks s (hg.mem_of_plainSuccessors hid hs)).1.mpr (hwarm id (hw.mp hwid) s hs)
  · intro hcid s hs
    rw [plainSuccessors_markCold] at hs
    obtain ⟨hws, hcs⟩ := hmarks s (hg.mem_of_plainSuccessors hid hs)
    rw [hws, hcs]
    exact hcold id (hc.mp hcid) s hs

/-! ### Bridges -/

/-- A jump in a block of its own stands between a cold block and the warm one after it. -/
structure Bridges (g h : Graph) (id next : BlockId) : Prop where
  mem : id ∈ g.order
  link : (g.block id).next = some next
  falls : (g.block id).fallsThrough
  cold : (g.block id).cold
  warm : (g.block next).warm
  entry : h.entry = g.entry
  size : h.blocks.size = g.blocks.size + 1
  jump : h.block g.blocks.size =
    { instrs := [{ op := .pseudo .jump, target := some next }]
      next := some next
      predecessors := 1
      cold := true }
  self : h.block id = { g.block id with next := some g.blocks.size }
  other : ∀ j, j ≠ g.blocks.size → j ≠ id → h.block j = g.block j

theorem bridge_cases (hg : g.Closed) (hid : id ∈ g.order) :
    (g.bridge id = g ∧ ∀ n, (g.block id).cold → g.fallthrough? id = some n → ¬ (g.block n).warm) ∨
      ∃ next, g.Bridges (g.bridge id) id next := by
  unfold bridge
  dsimp only
  cases hnext : (g.block id).next with
  | none =>
    left
    refine ⟨rfl, fun n _ hn => ?_⟩
    rw [fallthrough?_eq_some, hnext] at hn
    exact absurd hn.2 nofun
  | some next =>
    dsimp only
    split_ifs with hbridge
    · right
      simp only [Bool.and_eq_true] at hbridge
      have hlt := hg.layout.bound id hid
      refine ⟨next, hid, hnext, hbridge.1.2, hbridge.1.1, hbridge.2, rfl, ?_, ?_, ?_, ?_⟩
      · simp [addBlock]
      · rw [block_modify_of_ne _ _ (Nat.ne_of_lt hlt), block_addBlock, if_pos rfl]
      · have hlt' : id < g.blocks.size + 1 := Nat.lt_succ_of_lt hlt
        rw [block_modify_self _ _ (by simpa [addBlock] using hlt'), block_addBlock,
          if_neg (Nat.ne_of_lt hlt)]
        rfl
      · intro j hsize hj
        rw [block_modify_of_ne _ _ hj.symm, block_addBlock, if_neg hsize]
    · left
      refine ⟨rfl, fun n hcold hn hwarm => hbridge ?_⟩
      obtain ⟨hfall, hn⟩ := fallthrough?_eq_some.mp hn
      obtain rfl : next = n := Option.some.inj (hnext.symm.trans hn)
      simp [hcold, hfall, hwarm]

namespace Bridges

section

variable (hb : g.Bridges h id next) (hg : g.Closed)
include hb hg

/-- A block of the old layout keeps all but its link. -/
theorem block_eq (hj : j ∈ g.order) :
    ∃ n, h.block j = { g.block j with next := n } ∧ (j ≠ id → n = (g.block j).next) := by
  by_cases hid : j = id
  · subst hid
    exact ⟨_, hb.self, fun hne => absurd rfl hne⟩
  · exact ⟨_, hb.other j (hg.layout.ne_size hj) hid, fun _ => rfl⟩

theorem laysOut : ∃ pre post,
    g.order = pre ++ id :: next :: post ∧
      h.LaysOut (pre ++ id :: g.blocks.size :: next :: post) := by
  obtain ⟨pre, post, horder, hlays⟩ := hg.layout.insert hb.mem hb.entry hb.size (by rw [hb.self])
    (by rw [hb.jump, hb.link]) fun j hj hne => by rw [hb.other j (hg.layout.ne_size hj) hne]
  have hlinked := (horder ▸ hg.layout.linked).of_append
  cases post with
  | nil => cases hb.link.symm.trans hlinked
  | cons p post =>
    obtain rfl := Option.some.inj (hb.link.symm.trans hlinked.1)
    exact ⟨pre, post, horder, hlays⟩

theorem mem_order_iff : j ∈ h.order ↔ j = g.blocks.size ∨ j ∈ g.order := by
  obtain ⟨pre, post, horder, hlays⟩ := hb.laysOut hg
  rw [hlays.order, horder]
  simp only [mem_append, mem_cons]
  tauto

theorem isHandler_eq (hj : j ∈ g.order) : (h.block j).isHandler = (g.block j).isHandler := by
  obtain ⟨n, hblock, _⟩ := hb.block_eq hg hj
  rw [hblock]

theorem closed : h.Closed := by
  obtain ⟨pre, post, _, hlays⟩ := hb.laysOut hg
  refine .of_laysOut (hlays.order ▸ hlays) fun j hj i hi t ht => ?_
  rcases (hb.mem_order_iff hg).mp hj with rfl | hj
  · rw [hb.jump] at hi
    obtain rfl : i = { op := .pseudo .jump, target := some next } := by simpa using hi
    obtain rfl := Option.some.inj ht
    exact ⟨(hb.mem_order_iff hg).mpr (.inr (hg.next_mem hb.mem hb.link)), nofun⟩
  · obtain ⟨n, hblock, _⟩ := hb.block_eq hg hj
    rw [hblock] at hi
    obtain ⟨hmem, hhandler⟩ := hg.admits j hj i hi t ht
    rw [hb.isHandler_eq hg hmem]
    exact ⟨(hb.mem_order_iff hg).mpr (.inr hmem), hhandler⟩

/-- Where control fell through, it goes through the jump now. -/
theorem preserves (cs : List Constant) : M.Preserves ⟨g, cs⟩ ⟨h, cs⟩ := by
  refine preserves_of_join hg.stays hb.entry fun j s hj _ => ?_
  suffices hhop : ∃ m, M.hop ⟨g, cs⟩ j s = (M.step ⟨h, cs⟩)^[m] (M.hop ⟨h, cs⟩ j s) by
    obtain ⟨m, hm⟩ := hhop
    exact ⟨0, m, .inr hm⟩
  simp only [hop, instrs]
  by_cases hid : j = id
  · subst hid
    rw [hb.self]
    cases M.run cs (g.block j).instrs s with
    | next s' =>
      refine ⟨1, ?_⟩
      simp only [Function.iterate_one, Step.follow, hb.link, step, hop, instrs]
      rw [hb.jump]
      rfl
    | jump t s' | done e | wrong => exact ⟨0, rfl⟩
  · rw [hb.other j (hg.layout.ne_size hj) hid]
    exact ⟨0, rfl⟩

theorem marks_eq (hj : j ∈ g.order) :
    (h.block j).warm = (g.block j).warm ∧ (h.block j).cold = (g.block j).cold := by
  obtain ⟨n, hblock, _⟩ := hb.block_eq hg hj
  rw [hblock]
  exact ⟨rfl, rfl⟩

end

section

variable (hb : g.Bridges h id next)
include hb

theorem fallthrough?_jump : h.fallthrough? g.blocks.size = none := by
  unfold fallthrough?
  rw [hb.jump]
  rfl

theorem fallthrough?_self : h.fallthrough? id = some g.blocks.size := by
  rw [fallthrough?_eq_some, hb.self]
  exact ⟨hb.falls, rfl⟩

theorem fallthrough?_other (hg : g.Closed) (hj : j ∈ g.order) (hne : j ≠ id) :
    h.fallthrough? j = g.fallthrough? j := by
  unfold fallthrough?
  rw [hb.other j (hg.layout.ne_size hj) hne]

theorem mem_plainSuccessors (hg : g.Closed) {s : BlockId} (hj : j ∈ g.order)
    (hs : s ∈ h.plainSuccessors j) : s ∈ g.plainSuccessors j ∨ j = id ∧ s = g.blocks.size := by
  rcases mem_append.mp hs with hs | hs
  · obtain ⟨n, hblock, _⟩ := hb.block_eq hg hj
    rw [hblock] at hs
    exact .inl (mem_append_left _ hs)
  · by_cases hid : j = id
    · subst hid
      rw [hb.fallthrough?_self] at hs
      exact .inr ⟨rfl, by simpa using hs⟩
    · rw [hb.fallthrough?_other hg hj hid] at hs
      exact .inl (mem_append_right _ hs)

theorem tempered (hg : g.Closed) (ht : g.Tempered) : h.Tempered := by
  have hwarm : (h.block g.blocks.size).warm = false := by rw [hb.jump]
  have hcold : (h.block g.blocks.size).cold := by rw [hb.jump]
  refine ⟨?_, ?_, ?_, ?_, ?_⟩
  · rw [hb.entry, (hb.marks_eq hg hg.layout.entry_mem).1]
    exact ht.entry
  all_goals
    intro j hj
    rcases (hb.mem_order_iff hg).mp hj with rfl | hj
  · intro hw
    rw [hwarm] at hw
    cases hw
  · rw [(hb.marks_eq hg hj).1, (hb.marks_eq hg hj).2]
    exact ht.apart j hj
  · exact fun _ => .inr hcold
  · rw [hb.isHandler_eq hg hj, (hb.marks_eq hg hj).1, (hb.marks_eq hg hj).2]
    exact ht.handler j hj
  · intro hw
    rw [hwarm] at hw
    cases hw
  · intro hw s hs
    rw [(hb.marks_eq hg hj).1] at hw
    rcases hb.mem_plainSuccessors hg hj hs with hs | ⟨rfl, _⟩
    · rw [(hb.marks_eq hg (hg.mem_of_plainSuccessors hj hs)).1]
      exact ht.warm j hj hw s hs
    · have := ht.apart j hj hw
      rw [hb.cold] at this
      cases this
  · intro _ s hs
    have hnext : s = next := by
      rw [plainSuccessors, hb.fallthrough?_jump, hb.jump] at hs
      have hjump : PseudoOp.jump.isJump ∧ next = s := by simpa [Operation.isJump] using hs
      exact hjump.2.symm
    subst hnext
    rw [(hb.marks_eq hg (hg.next_mem hb.mem hb.link)).1]
    exact .inl hb.warm
  · intro hc s hs
    rw [(hb.marks_eq hg hj).2] at hc
    rcases hb.mem_plainSuccessors hg hj hs with hs | ⟨_, rfl⟩
    · obtain ⟨hw, hc'⟩ := hb.marks_eq hg (hg.mem_of_plainSuccessors hj hs)
      rw [hw, hc']
      exact ht.cold j hj hc s hs
    · exact .inr hcold

theorem settled (hg : g.Closed) (hj : j ∈ h.order) (hs : j ≠ id → j ∈ g.order → g.Settled j) :
    h.Settled j := by
  intro hcold n hn
  rcases (hb.mem_order_iff hg).mp hj with rfl | hj
  · rw [hb.fallthrough?_jump] at hn
    cases hn
  · by_cases hid : j = id
    · subst hid
      rw [hb.fallthrough?_self] at hn
      obtain rfl := Option.some.inj hn
      rw [hb.jump]
    · rw [hb.fallthrough?_other hg hj hid] at hn
      rw [(hb.marks_eq hg hj).2] at hcold
      have hnmem := hg.next_mem hj (fallthrough?_eq_some.mp hn).2
      rw [(hb.marks_eq hg hnmem).2]
      exact hs hid hj hcold n hn

end

end Bridges

/-- In the middle of the pass: only the given blocks may still fall through from a cold place into
a warm one. -/
structure Bridging (g : Graph) (rest : List BlockId) : Prop where
  closed : g.Closed
  tempered : g.Tempered
  mem : rest ⊆ g.order
  settled : ∀ id ∈ g.order, id ∉ rest → g.Settled id

theorem Bridging.bridge {rest : List BlockId} (hb : g.Bridging (id :: rest)) :
    (g.bridge id).Bridging rest := by
  have hid : id ∈ g.order := hb.mem (by simp)
  have hrest : rest ⊆ g.order := fun j hj => hb.mem (mem_cons_of_mem id hj)
  have hsettled : ∀ j ∈ g.order, j ≠ id → j ∉ rest → g.Settled j :=
    fun j hj hne hnot => hb.settled j hj (by simp [hne, hnot])
  obtain ⟨heq, hkeep⟩ | ⟨next, hbridges⟩ := bridge_cases hb.closed hid
  · rw [heq]
    refine ⟨hb.closed, hb.tempered, hrest, fun j hj hnot => ?_⟩
    by_cases hj' : j = id
    · subst hj'
      intro hcold n hn
      have hstep := hb.tempered.cold j hj hcold n (mem_plainSuccessors_of_fallthrough hn)
      exact hstep.resolve_left (hkeep n hcold hn)
    · exact hsettled j hj hj' hnot
  · refine ⟨hbridges.closed hb.closed, hbridges.tempered hb.closed hb.tempered, fun j hj => ?_,
      fun j hj hnot => ?_⟩
    · exact (hbridges.mem_order_iff hb.closed).mpr (.inr (hrest hj))
    · exact hbridges.settled hb.closed hj fun hne hmem => hsettled j hmem hne hnot

theorem Closed.bridging_markCold (hg : g.Closed) : g.markCold.Bridging g.markCold.order := by
  refine ⟨?_, hg.tempered_markCold, List.Subset.refl _, fun id hid hnot => absurd hid hnot⟩
  refine hg.rewrite (relates_markCold g).links
    (fun id hid => ((relates_markCold g).handler id).trans hid) fun id hid i hi => ?_
  obtain ⟨w, c, hblock⟩ := g.block_markCold id
  rw [hblock] at hi
  exact hg.admits id hid i hi

/-- What a jump between a cold and a warm block keeps is kept by all of them. -/
theorem Bridging.foldl_induction
    (hbridge : ∀ {g h id next}, I g → g.Closed → g.Tempered → g.Bridges h id next → I h)
    {ids : List BlockId} (hb : g.Bridging ids) (hg : I g) :
    (ids.foldl Graph.bridge g).Bridging [] ∧ I (ids.foldl Graph.bridge g) := by
  induction ids generalizing g with
  | nil => exact ⟨hb, hg⟩
  | cons id ids ih =>
    refine ih hb.bridge ?_
    obtain ⟨heq, _⟩ | ⟨next, hbridges⟩ := bridge_cases hb.closed (hb.mem mem_cons_self)
    · rwa [heq]
    · exact hbridge hg hb.closed hb.tempered hbridges

/-! ### The new layout -/

def coldLast (g : Graph) : List BlockId :=
  g.order.filter (fun id => !(g.block id).cold) ++ g.order.filter fun id => (g.block id).cold

theorem mem_coldLast : id ∈ g.coldLast ↔ id ∈ g.order := by
  simp only [coldLast, mem_append, mem_filter]
  cases (g.block id).cold <;> simp

theorem filter_adjacent {p : BlockId → Bool} {a b : BlockId} (ha : p a) (hb : p b) :
    (pre ++ a :: b :: post).filter p = pre.filter p ++ a :: b :: post.filter p := by
  rw [filter_append, filter_cons, if_pos ha, filter_cons, if_pos hb]

/-- Blocks of one kind that stand one after the other still do so. -/
theorem next_of_coldLast (hlinked : h.Linked g.coldLast) {a b : BlockId}
    (horder : g.order = pre ++ a :: b :: post) (hab : (g.block a).cold = (g.block b).cold) :
    (h.block a).next = some b := by
  rw [coldLast, horder] at hlinked
  cases hb : (g.block b).cold with
  | false =>
    rw [hb] at hab
    rw [filter_adjacent (by simp [hab]) (by simp [hb]), append_assoc] at hlinked
    exact hlinked.next_of_append
  | true =>
    rw [hb] at hab
    rw [filter_adjacent (p := fun id => (g.block id).cold) hab hb, ← append_assoc] at hlinked
    exact hlinked.next_of_append

theorem nodup_coldLast (hg : g.Closed) : g.coldLast.Nodup := by
  refine nodup_append.mpr ⟨hg.layout.nodup.filter _, hg.layout.nodup.filter _, ?_⟩
  rintro a ha b hb rfl
  have ha := (mem_filter.mp ha).2
  rw [(mem_filter.mp hb).2] at ha
  cases ha

theorem head?_coldLast (hg : g.Closed) (ht : g.Tempered) : g.coldLast.head? = some g.entry := by
  obtain ⟨rest, horder⟩ := head?_eq_some_iff.mp hg.layout.head
  have hcold := ht.apart g.entry hg.layout.entry_mem ht.entry
  rw [coldLast, horder, filter_cons, if_pos (by simp [hcold])]
  rfl

theorem laysOut_coldLast (hg : g.Closed) (ht : g.Tempered) :
    (g.setLayout g.coldLast).LaysOut g.coldLast := by
  refine laysOut_setLayout (fun hnil => ?_) (nodup_coldLast hg) fun id hid => ?_
  · have hhead := head?_coldLast hg ht
    rw [hnil] at hhead
    cases hhead
  · exact hg.layout.bound id (mem_coldLast.mp hid)

theorem closed_coldLast (hg : g.Closed) (ht : g.Tempered) : (g.setLayout g.coldLast).Closed := by
  refine .of_laysOut (laysOut_coldLast hg ht) fun id hid i hi t htarget => ?_
  obtain ⟨n, hblock⟩ := g.block_setLayout g.coldLast id
  rw [hblock] at hi
  obtain ⟨hmem, hhandler⟩ := hg.admits id (mem_coldLast.mp hid) i hi t htarget
  obtain ⟨n', hblock'⟩ := g.block_setLayout g.coldLast t
  rw [hblock']
  exact ⟨mem_coldLast.mpr hmem, hhandler⟩

theorem Tempered.step (ht : g.Tempered) (hg : g.Closed)
    (hid : id ∈ g.order ∧ ((g.block id).warm ∨ (g.block id).cold)) (hj : j ∈ g.plainSuccessors id) :
    j ∈ g.order ∧ ((g.block j).warm ∨ (g.block j).cold) := by
  refine ⟨hg.mem_of_plainSuccessors hid.1 hj, ?_⟩
  rcases hid.2 with hw | hc
  · exact .inl (ht.warm id hid.1 hw j hj)
  · exact ht.cold id hid.1 hc j hj

theorem Tempered.stays (ht : g.Tempered) (hg : g.Closed) :
    g.Stays (fun id => id ∈ g.order ∧ ((g.block id).warm ∨ (g.block id).cold))
      (fun t => t ∈ g.order ∧ (g.block t).isHandler) := by
  refine ⟨⟨hg.layout.entry_mem, .inl ht.entry⟩, fun t h => ⟨h.1, ht.handler t h.1 h.2⟩,
    fun id hid => hg.stays.push id hid.1, fun id hid i hi hjump t htarget => ?_,
    fun id hid hfall n hn => ?_⟩
  · exact ht.step hg hid (mem_plainSuccessors_of_jump hi hjump htarget)
  · refine ht.step hg hid (mem_plainSuccessors_of_fallthrough ?_)
    exact fallthrough?_eq_some.mpr ⟨hfall, hn⟩

theorem Bridging.next_coldLast (hb : g.Bridging []) {n : BlockId} (hid : id ∈ g.order)
    (hmark : (g.block id).warm ∨ (g.block id).cold) (hn : g.fallthrough? id = some n) :
    ((g.setLayout g.coldLast).block id).next = some n := by
  have hlink := (fallthrough?_eq_some.mp hn).2
  have hnmem := hb.closed.next_mem hid hlink
  obtain ⟨pre, post, horder⟩ := hb.closed.layout.linked.split hid hlink
  refine next_of_coldLast (laysOut_coldLast hb.closed hb.tempered).linked horder ?_
  rcases hmark with hw | hc
  · have hnw := hb.tempered.warm id hid hw n (mem_plainSuccessors_of_fallthrough hn)
    rw [hb.tempered.apart id hid hw, hb.tempered.apart n hnmem hnw]
  · rw [hc, hb.settled id hid (by simp) hc n hn]

theorem Bridging.entry_coldLast (hb : g.Bridging []) :
    (g.setLayout g.coldLast).entry = g.entry := by
  show g.coldLast.head?.getD g.entry = g.entry
  rw [head?_coldLast hb.closed hb.tempered]
  rfl

theorem Bridging.preserves_coldLast (hb : g.Bridging []) (cs : List Constant) :
    M.Preserves ⟨g, cs⟩ ⟨g.setLayout g.coldLast, cs⟩ := by
  have hstays := hb.tempered.stays hb.closed
  refine preserves_of_join hstays hb.entry_coldLast fun id s hid hs => ⟨0, 0, ?_⟩
  simp only [Nat.zero_add, Function.iterate_one, step, hop, instrs]
  have hleaves := M.run_leaves cs (hstays.push id hid) hs
  have hinstrs : ((g.setLayout g.coldLast).block id).instrs = (g.block id).instrs := by
    obtain ⟨n, hblock⟩ := g.block_setLayout g.coldLast id
    rw [hblock]
  rw [hinstrs]
  generalize M.run cs (g.block id).instrs s = out at hleaves
  cases hleaves with
  | next hfall _ =>
    cases hn : (g.block id).next with
    | none => exact .inl rfl
    | some n =>
      right
      rw [hb.next_coldLast hid.1 hid.2 (fallthrough?_eq_some.mpr ⟨hfall, hn⟩)]
  | leap | raise | done | wrong => exact .inr rfl

end Graph

/-- What the parts of the pass keep is kept by the pass: the marks, the jumps between cold and warm
blocks, the new layout and the jumps that it makes idle. -/
theorem Graph.moveColdToEnd_induction {g : Graph} (hc : g.Closed) (hg : I g) (hmark : I g.markCold)
    (hbridge : ∀ {g h id next}, I g → g.Closed → g.Tempered → g.Bridges h id next → I h)
    (hlayout : ∀ {g}, I g → g.Bridging [] → I (g.setLayout g.coldLast))
    (hjumps : ∀ {g}, I g → g.Closed → I g.dropRedundantJumps) : I g.moveColdToEnd := by
  unfold Graph.moveColdToEnd
  split_ifs
  · exact hg
  dsimp only
  obtain ⟨hb, hI⟩ := hc.bridging_markCold.foldl_induction hbridge hmark
  generalize g.markCold.order.foldl Graph.bridge g.markCold = h at hb hI
  rw [partition_eq_filter_filter]
  dsimp only
  split_ifs
  · exact hI
  · exact hjumps (hlayout hI hb) (Graph.closed_coldLast hb.closed hb.tempered)

theorem preserves_moveColdToEnd {g : Graph} (hg : g.Closed) (cs : List Constant) :
    g.moveColdToEnd.Closed ∧ M.Preserves ⟨g, cs⟩ ⟨g.moveColdToEnd, cs⟩ := by
  have hmark : M.Annotates g g.markCold := annotates_eq (relates_markCold g)
  refine Graph.moveColdToEnd_induction (I := fun h => h.Closed ∧ M.Preserves ⟨g, cs⟩ ⟨h, cs⟩)
    hg ⟨hg, .refl M _⟩ ⟨hmark.closed hg, hmark.preserves cs⟩ ?_ ?_ ?_
  · exact fun hI _ _ hb => ⟨hb.closed hI.1, hI.2.trans (hb.preserves hI.1 cs)⟩
  · exact fun hI hb =>
      ⟨Graph.closed_coldLast hI.1 hb.tempered, hI.2.trans (hb.preserves_coldLast cs)⟩
  · intro h hI hc
    have hjumps := becomes_dropRedundantJumps h cs
    exact ⟨hjumps.steps.closed hc, hI.2.trans (hjumps.preserves M)⟩

end Bytecode
