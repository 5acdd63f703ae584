import Bytecode.Graph.Reach
import Bytecode.Proofs.Graph.Layout
import Mathlib.Algebra.BigOperators.Group.Finset.Basic

/-!
# What a search finds

A search along successors finds the least set that has the roots in it and is closed under
successors, and it counts the edges from what it finds. For a graph, these are the blocks that can
be reached, and exactly those have an edge leading to them.
-/

namespace Bytecode

open List

variable {succ : Nat → List Nat} {B : Nat → Prop} {size fuel : Nat} {roots done : List Nat}
variable {n : Nat → Nat} {m : Marking} {a : Nat} {id : BlockId}

inductive Reaches (succ : Nat → List Nat) (roots : List Nat) : Nat → Prop where
  | root {a : Nat} (ha : a ∈ roots) : Reaches succ roots a
  | step {a b : Nat} (ha : Reaches succ roots a) (hb : b ∈ succ a) : Reaches succ roots b

theorem Reaches.inside (hroots : ∀ a ∈ roots, B a) (hsucc : ∀ a, B a → ∀ b ∈ succ a, B b)
    (h : Reaches succ roots a) : B a := by
  induction h with
  | root ha => exact hroots _ ha
  | step _ hb ih => exact hsucc _ ih _ hb

/-- The edges to an element from some others, and those to the roots. -/
def edgesFrom (succ : Nat → List Nat) (roots done : List Nat) (a : Nat) : Nat :=
  (roots ++ done.flatMap succ).count a

/-- In the middle of a search among `size` elements, when `n a` edges to each of them were followed,
and of no more elements than those in `done`: where an edge led to is done or on the stack. -/
structure Tallies (succ : Nat → List Nat) (size : Nat) (roots : List Nat) (n : Nat → Nat)
    (done : List Nat) (m : Marking) : Prop where
  counts : ∀ a < size, m.counts[a]? = some (n a)
  visited : ∀ a < size, m.visited[a]? = some (decide (n a ≠ 0))
  nodup : (m.stack ++ done).Nodup
  mem_iff : ∀ a, a ∈ m.stack ++ done ↔ n a ≠ 0
  sound : ∀ a, n a ≠ 0 → Reaches succ roots a

namespace Tallies

theorem arrive (h : Tallies succ size roots n done m) (ha : a < size)
    (hreach : Reaches succ roots a) :
    Tallies succ size roots (fun b => n b + if a = b then 1 else 0) done (m.arrive a) := by
  have hcounts : ∀ b < size,
      (m.counts.modify a (· + 1))[b]? = some (n b + if a = b then 1 else 0) := by
    intro b hb
    rw [Array.getElem?_modify, h.counts b hb]
    split_ifs <;> rfl
  have hsound : ∀ b, n b + (if a = b then 1 else 0) ≠ 0 → Reaches succ roots b := by
    intro b hb
    by_cases hab : a = b
    · exact hab ▸ hreach
    · exact h.sound b (by simpa [hab] using hb)
  have hvisited := h.visited a ha
  simp only [Marking.arrive, Array.getD_eq_getD_getElem?, hvisited, Option.getD_some,
    decide_eq_true_eq]
  split_ifs with hseen
  · have hn : ∀ b, n b + (if a = b then 1 else 0) ≠ 0 ↔ n b ≠ 0 := by
      intro b
      split_ifs with hab
      · simpa [← hab] using hseen
      · rfl
    refine ⟨hcounts, fun b hb => ?_, h.nodup, fun b => (h.mem_iff b).trans (hn b).symm, hsound⟩
    simp only [hn, h.visited b hb]
  · have hnew : a ∉ m.stack ++ done := fun hmem => hseen ((h.mem_iff a).mp hmem)
    refine ⟨hcounts, fun b hb => ?_, nodup_cons.mpr ⟨hnew, h.nodup⟩, fun b => ?_, hsound⟩
    · rw [Array.getElem?_setIfInBounds, h.visited b hb]
      split_ifs with hab hin
      · simp
      · exact absurd (Array.getElem?_eq_some_iff.mp hvisited).1 hin
      · rfl
    · rw [cons_append, mem_cons, h.mem_iff b]
      by_cases hab : a = b <;> simp [hab, eq_comm]

theorem arriveAll {as : List Nat} (h : Tallies succ size roots n done m)
    (has : ∀ a ∈ as, a < size ∧ Reaches succ roots a) :
    Tallies succ size roots (fun b => n b + as.count b) done (as.foldl .arrive m) := by
  induction as generalizing n m with
  | nil => exact h
  | cons a as ih =>
    obtain ⟨⟨ha, hreach⟩, has⟩ := forall_mem_cons.mp has
    have hrest := ih (h.arrive ha hreach) has
    have hn : (fun b => (n b + if a = b then 1 else 0) + as.count b) =
        fun b => n b + (a :: as).count b := by
      funext b
      simp only [count_cons, beq_iff_eq]
      omega
    exact hn ▸ hrest

theorem pop {stack : List Nat} {visited : Array Bool} {counts : Array Nat}
    (h : Tallies succ size roots n done ⟨a :: stack, visited, counts⟩) :
    Tallies succ size roots n (a :: done) ⟨stack, visited, counts⟩ :=
  { h with
    nodup := perm_middle.nodup_iff.mpr h.nodup
    mem_iff := fun b => perm_middle.mem_iff.trans (h.mem_iff b) }

end Tallies

section

variable (hroots : ∀ a ∈ roots, B a) (hB : ∀ a, B a → a < size)
variable (hsucc : ∀ a, B a → ∀ b ∈ succ a, B b)
include hroots hB hsucc

theorem Reaches.lt_size (h : Reaches succ roots a) : a < size :=
  hB a (h.inside hroots hsucc)

/-- The search ends with an empty stack, as no more elements can be done than there are. -/
theorem tallies_follow (h : Tallies succ size roots (edgesFrom succ roots done) done m)
    (hfuel : size ≤ fuel + done.length) :
    ∃ done', (follow succ fuel m).stack = [] ∧
      Tallies succ size roots (edgesFrom succ roots done') done' (follow succ fuel m) := by
  induction fuel generalizing done m with
  | zero =>
    have hsub : m.stack ++ done ⊆ List.range size := fun a ha =>
      mem_range.mpr ((h.sound a ((h.mem_iff a).mp ha)).lt_size hroots hB hsucc)
    have hlength := (h.nodup.subperm hsub).length_le
    rw [length_append, length_range] at hlength
    exact ⟨done, length_eq_zero_iff.mp (by simp only [follow]; omega), h⟩
  | succ fuel ih =>
    obtain ⟨_ | ⟨a, stack⟩, visited, counts⟩ := m
    · exact ⟨done, rfl, h⟩
    · have hreach := h.sound a ((h.mem_iff a).mp (by simp))
      have hnext := h.pop.arriveAll fun b (hb : b ∈ succ a) =>
        ⟨(hreach.step hb).lt_size hroots hB hsucc, hreach.step hb⟩
      have hedges : (fun b => edgesFrom succ roots done b + (succ a).count b) =
          edgesFrom succ roots (a :: done) := by
        funext b
        rw [edgesFrom, edgesFrom, flatMap_cons, count_append, count_append, count_append]
        omega
      rw [hedges] at hnext
      exact ih hnext (by rw [length_cons]; omega)

/-- In the end all that can be reached is done, and nothing else. -/
theorem exists_tallies_mark : ∃ done, (∀ a, a ∈ done ↔ Reaches succ roots a) ∧ done.Nodup ∧
    (mark succ size roots).stack = [] ∧
    Tallies succ size roots (edgesFrom succ roots done) done (mark succ size roots) := by
  have hstart : Tallies succ size roots (fun _ => 0) []
      ⟨[], .replicate size false, .replicate size 0⟩ := by
    refine ⟨fun a ha => ?_, fun a ha => ?_, nodup_nil, by simp, by simp⟩
    all_goals simp [ha]
  have hentered := hstart.arriveAll fun a ha => ⟨hB a (hroots a ha), .root ha⟩
  have hedges : (fun b => 0 + roots.count b) = edgesFrom succ roots [] := by
    funext b
    simp [edgesFrom]
  obtain ⟨done, hstack, h⟩ := tallies_follow hroots hB hsucc (hedges ▸ hentered) (Nat.le_refl size)
  have hdone : ∀ a, a ∈ done ↔ a ∈ roots ++ done.flatMap succ := by
    intro a
    have hmem := h.mem_iff a
    rwa [hstack, nil_append, Nat.ne_zero_iff_zero_lt, edgesFrom, count_pos_iff] at hmem
  refine ⟨done, fun a => ⟨fun ha => ?_, fun ha => ?_⟩, ?_, hstack, h⟩
  · exact h.sound a ((h.mem_iff a).mp (mem_append_right _ ha))
  · induction ha with
    | root ha => exact (hdone _).mpr (mem_append_left _ ha)
    | step _ hb ih =>
      exact (hdone _).mpr (mem_append_right _ (mem_flatMap.mpr ⟨_, ih, hb⟩))
  · simpa [hstack] using h.nodup

theorem visited_mark (ha : a < size) :
    (mark succ size roots).visited[a]? = some true ↔ Reaches succ roots a := by
  obtain ⟨done, hdone, -, hstack, h⟩ := exists_tallies_mark hroots hB hsucc
  rw [h.visited a ha, Option.some.injEq, decide_eq_true_eq, ← h.mem_iff, hstack, nil_append, hdone]

theorem mem_reach_iff : a ∈ reach succ size roots ↔ Reaches succ roots a := by
  rw [reach, mem_filter, mem_range, decide_eq_true_eq]
  constructor
  · exact fun ha => (visited_mark hroots hB hsucc ha.1).mp ha.2
  · intro ha
    have hlt := ha.lt_size hroots hB hsucc
    exact ⟨hlt, (visited_mark hroots hB hsucc hlt).mpr ha⟩

theorem counts_mark (ha : a < size) : (mark succ size roots).counts[a]? =
    some (edgesFrom succ roots (reach succ size roots) a) := by
  obtain ⟨done, hdone, hnodup, -, h⟩ := exists_tallies_mark hroots hB hsucc
  have hperm : done.Perm (reach succ size roots) :=
    (perm_ext_iff_of_nodup hnodup (nodup_range.filter _)).mpr fun b =>
      (hdone b).trans (mem_reach_iff hroots hB hsucc).symm
  rw [h.counts a ha, edgesFrom, ((hperm.flatMap_right _).append_left roots).count_eq a, edgesFrom]

end

namespace Graph

variable {g : Graph}

def reachable (g : Graph) : List BlockId :=
  reach g.successors g.blocks.size [g.entry]

theorem nodup_reachable (g : Graph) : g.reachable.Nodup :=
  nodup_range.filter _

/-- Control stays among the given blocks, and all of them exist. -/
structure Within (g : Graph) (B : BlockId → Prop) : Prop where
  entry : B g.entry
  bound : ∀ a, B a → a < g.blocks.size
  step : ∀ a, B a → ∀ b ∈ g.successors a, B b

namespace Within

variable (hg : g.Within B)
include hg

theorem inside (h : Reaches g.successors [g.entry] id) : B id :=
  h.inside (by simpa using hg.entry) hg.step

theorem mem_reachable_iff : id ∈ g.reachable ↔ Reaches g.successors [g.entry] id :=
  mem_reach_iff (by simpa using hg.entry) hg.bound hg.step

theorem reachable_step {a b : BlockId} (ha : a ∈ g.reachable) (hb : b ∈ g.successors a) :
    b ∈ g.reachable :=
  hg.mem_reachable_iff.mpr ((hg.mem_reachable_iff.mp ha).step hb)

theorem reaching : g.Within (Reaches g.successors [g.entry]) where
  entry := .root (mem_singleton.mpr rfl)
  bound a ha := hg.bound a (hg.inside ha)
  step _ ha _ hb := ha.step hb

theorem predecessors_eq (hid : id < g.blocks.size) : (g.countPredecessors.block id).predecessors =
    edgesFrom g.successors [g.entry] g.reachable id := by
  have hroots : ∀ a ∈ [g.entry], B a := by simpa using hg.entry
  have hcounts := counts_mark hroots hg.bound hg.step hid
  rw [countPredecessors, block_mapIdx, if_pos hid]
  exact (Array.getD_eq_getD_getElem? ..).trans (congrArg (Option.getD · 0) hcounts)

end Within

/-- The layout has an end, and every target is a block of it. -/
structure Wired (g : Graph) : Prop where
  layout : g.LaysOut g.order
  targets : ∀ id ∈ g.order, ∀ i ∈ (g.block id).instrs, ∀ t, i.target = some t → t ∈ g.order

theorem forall_successors {P : BlockId → Prop}
    (htargets : ∀ i ∈ (g.block id).instrs, ∀ t, i.target = some t → P t)
    (hnext : ∀ b, (g.block id).next = some b → P b) : ∀ b ∈ g.successors id, P b := by
  intro b hb
  simp only [successors, mem_append, mem_filterMap, fallthrough?] at hb
  rcases hb with ⟨i, hi, ht⟩ | hfall
  · exact htargets i hi b ht
  · split_ifs at hfall
    · exact hnext b (by simpa using hfall)
    · simp at hfall

theorem Wired.within (hg : g.Wired) : g.Within (· ∈ g.order) where
  entry := hg.layout.entry_mem
  bound := hg.layout.bound
  step a ha := forall_successors (hg.targets a ha) fun _ => hg.layout.linked.next_mem ha

theorem Closed.wired (hg : g.Closed) : g.Wired :=
  ⟨hg.layout, fun id hid i hi t ht => (hg.admits id hid i hi t ht).1⟩

theorem Closed.within (hg : g.Closed) : g.Within (· ∈ g.order) :=
  hg.wired.within

/-- The blocks that can be reached are those with an edge into them. -/
theorem Within.predecessors_ne_zero_iff (hg : g.Within B) (hid : id < g.blocks.size) :
    (g.countPredecessors.block id).predecessors ≠ 0 ↔ id ∈ g.reachable := by
  rw [hg.predecessors_eq hid, Nat.ne_zero_iff_zero_lt, edgesFrom, count_pos_iff, mem_append,
    mem_singleton, mem_flatMap]
  constructor
  · rintro (rfl | ⟨a, ha, hid⟩)
    · exact hg.mem_reachable_iff.mpr (.root (by simp))
    · exact hg.reachable_step ha hid
  · intro hreach
    cases hg.mem_reachable_iff.mp hreach with
    | root hroot => exact .inl (by simpa using hroot)
    | step ha hb => exact .inr ⟨_, hg.mem_reachable_iff.mpr ha, hb⟩

/-- The entry exists, and so does every block that a target or a link names. -/
structure Enclosed (g : Graph) : Prop where
  entry : g.entry < g.blocks.size
  targets : ∀ id < g.blocks.size, ∀ i ∈ (g.block id).instrs, ∀ t, i.target = some t →
    t < g.blocks.size
  links : ∀ id < g.blocks.size, ∀ b, (g.block id).next = some b → b < g.blocks.size

theorem Enclosed.within (hg : g.Enclosed) : g.Within (· < g.blocks.size) where
  entry := hg.entry
  bound _ ha := ha
  step a ha := forall_successors (hg.targets a ha) (hg.links a ha)

open Classical in
/-- The marking comes to an end, visits the blocks that can be reached and no other, and counts the
edges from them to each block, each as often as it is there, and one more to the entry. -/
theorem marking_exact (hg : g.Enclosed) :
    g.marking.stack = [] ∧
      (∀ id < g.blocks.size,
        g.marking.visited[id]? = some true ↔ Reaches g.successors [g.entry] id) ∧
      ∀ id < g.blocks.size,
        (g.countPredecessors.block id).predecessors = (if g.entry = id then 1 else 0) +
          ∑ a ∈ Finset.range g.blocks.size with Reaches g.successors [g.entry] a,
            (g.successors a).count id ∧
        ((g.countPredecessors.block id).predecessors = 0 ↔
          ¬ Reaches g.successors [g.entry] id) := by
  have hwithin := hg.within
  have hroots : ∀ a ∈ [g.entry], a < g.blocks.size := by simpa using hwithin.entry
  obtain ⟨_, -, -, hstack, -⟩ := exists_tallies_mark hroots hwithin.bound hwithin.step
  refine ⟨hstack, fun id => visited_mark hroots hwithin.bound hwithin.step, fun id hid => ⟨?_, ?_⟩⟩
  · have hreachable : g.reachable.toFinset =
        (Finset.range g.blocks.size).filter (Reaches g.successors [g.entry]) := by
      ext a
      simp only [mem_toFinset, hwithin.mem_reachable_iff, Finset.mem_filter, Finset.mem_range]
      exact ⟨fun h => ⟨hwithin.inside h, h⟩, And.right⟩
    rw [hwithin.predecessors_eq hid, edgesFrom, singleton_append, count_cons, count_flatMap,
      ← hreachable, List.sum_toFinset _ g.nodup_reachable, Nat.add_comm]
    simp [Function.comp_def]
  · rw [← hwithin.mem_reachable_iff, ← hwithin.predecessors_ne_zero_iff hid, not_not]

/-- Two edges lead from the first block to the second and one back, and none to the third. -/
def parallelLoop : Graph where
  blocks := #[
    { instrs := [{ op := .pseudo .popJumpIfFalse, target := some 1 }], next := some 1 },
    { instrs := [{ op := .pseudo .jump, target := some 0 }], next := some 2 },
    { instrs := [{ op := .real .returnConst }] }]

theorem marking_exact_parallelLoop :
    parallelLoop.Enclosed ∧ parallelLoop.marking.stack = [] ∧
      parallelLoop.marking.counts = #[2, 2, 0] ∧ Reaches parallelLoop.successors [0] 1 ∧
      ¬ Reaches parallelLoop.successors [0] 2 := by
  have htargets : ∀ id < 3, ∀ i ∈ (parallelLoop.block id).instrs, ∀ t ∈ i.target, t < 3 := by decide
  have hlinks : ∀ id < 3, ∀ b ∈ (parallelLoop.block id).next, b < 3 := by decide
  have henclosed : parallelLoop.Enclosed := ⟨by decide, htargets, hlinks⟩
  obtain ⟨hstack, hvisited, hcounts⟩ := marking_exact henclosed
  exact ⟨henclosed, hstack, by decide, (hvisited 1 (by decide)).mp (by decide),
    (hcounts 2 (by decide)).2.mp (by decide)⟩

end Graph

end Bytecode
