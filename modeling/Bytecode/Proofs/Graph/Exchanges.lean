import Bytecode.Graph.Shuffle
import Mathlib.Dynamics.PeriodicPts.Lemmas
import Mathlib.Logic.Equiv.Basic

/-!
# Exchanges with the top

Exchanges with the top permute the places, and `origin` says where an item stood before. Walked
through the top, a cycle of the permutation takes one exchange for each of its places other than the
top, and one more if it does not go through the top itself; no run with the same result is shorter.
-/

namespace Bytecode

open List Function Equiv

/-- The place where the item that is at `x` stood before exchanges of the top, which is at zero,
with the given places. -/
def origin (ks : List Nat) (x : Nat) : Nat :=
  ks.foldr (fun k y => swap 0 k y) x

section

variable {ks ls : List Nat} {x k a : Nat}

@[simp] theorem origin_nil (x : Nat) : origin [] x = x := rfl

@[simp] theorem origin_cons (k : Nat) (ks : List Nat) (x : Nat) :
    origin (k :: ks) x = swap 0 k (origin ks x) := rfl

theorem origin_append (ks ls : List Nat) (x : Nat) :
    origin (ks ++ ls) x = origin ks (origin ls x) :=
  foldr_append

/-- The same exchanges in reverse order take everything back. -/
theorem origin_reverse_origin (ks : List Nat) (x : Nat) : origin ks.reverse (origin ks x) = x := by
  induction ks with
  | nil => rfl
  | cons k ks ih =>
    rw [reverse_cons, origin_append, origin_cons, origin_cons, origin_nil, swap_apply_self, ih]

theorem origin_injective (ks : List Nat) : Injective (origin ks) :=
  LeftInverse.injective (origin_reverse_origin ks)

theorem origin_of_notMem (hx : x ≠ 0) (hmem : x ∉ ks) : origin ks x = x := by
  induction ks with
  | nil => rfl
  | cons k ks ih =>
    rw [mem_cons, not_or] at hmem
    rw [origin_cons, ih hmem.2, swap_apply_of_ne_of_ne hx hmem.1]

/-- Exchanges outside of a set of places bring no item from there. -/
theorem origin_notMem {c : List Nat} (h0 : 0 ∉ c) (hks : ∀ k ∈ ks, k ∉ c) (hx : x ∉ c) :
    origin ks x ∉ c := by
  induction ks with
  | nil => exact hx
  | cons k ks ih =>
    obtain ⟨hk, hks⟩ := forall_mem_cons.mp hks
    rw [origin_cons]
    by_cases hzero : origin ks x = 0
    · rwa [hzero, swap_apply_left]
    · by_cases heq : origin ks x = k
      · rwa [heq, swap_apply_right]
      · rw [swap_apply_of_ne_of_ne hzero heq]
        exact ih hks

/-! ### Walks through the top -/

/-- The item that goes to a place through the top comes from the place that is exchanged before. -/
theorem origin_through {pre post : List Nat} {b : Nat} (ha : a ≠ 0) (hpre : a ∉ pre) (hb : b ≠ 0)
    (hpost : b ∉ post) : origin (pre ++ a :: b :: post) b = a := by
  rw [origin_append, origin_cons, origin_cons, origin_of_notMem hb hpost, swap_apply_right,
    swap_apply_left, origin_of_notMem ha hpre]

theorem origin_head {post : List Nat} (ha : a ≠ 0) (hpost : a ∉ post) :
    origin (a :: post) a = 0 := by
  rw [origin_cons, origin_of_notMem ha hpost, swap_apply_right]

theorem origin_last {pre : List Nat} (ha : a ≠ 0) (hpre : a ∉ pre) : origin (pre ++ [a]) 0 = a := by
  rw [origin_append, origin_cons, origin_nil, swap_apply_left, origin_of_notMem ha hpre]

/-- What comes back to its first place leaves the top alone. -/
theorem origin_round {mid : List Nat} (ha : a ≠ 0) (hmid : a ∉ mid) :
    origin (a :: mid ++ [a]) 0 = 0 := by
  rw [cons_append, origin_cons, origin_last ha hmid, swap_apply_right]

end

/-! ### Cycles -/

/-- The array holds the origins after exchanges, and the places above it keep their items. -/
structure Arranges (ks : List Nat) (perm : Array Nat) : Prop where
  getD : ∀ j < perm.size, ∀ d, perm.getD j d = origin ks j
  above : ∀ j, perm.size ≤ j → origin ks j = j

namespace Arranges

variable {ks seen out : List Nat} {perm : Array Nat} {start x j n : Nat}

theorem origin_lt (h : Arranges ks perm) (hj : j < perm.size) : origin ks j < perm.size := by
  by_contra hge
  have hfix := h.above _ (Nat.le_of_not_lt hge)
  exact hge ((origin_injective ks hfix).symm ▸ hj)

section

variable (h : Arranges ks perm) (hstart : start < perm.size)
include h hstart

theorem iterate_lt (j : Nat) : (origin ks)^[j] start < perm.size := by
  induction j with
  | zero => exact hstart
  | succ j ih => rw [iterate_succ_apply']; exact h.origin_lt ih

theorem minimalPeriod_pos : 0 < minimalPeriod (origin ks) start := by
  have hmaps : Set.MapsTo (origin ks) (Set.Iio perm.size) (Set.Iio perm.size) :=
    fun j hj => h.origin_lt hj
  have hinj : Injective (Set.MapsTo.restrict _ _ _ hmaps) := by
    intro a b hab
    exact Subtype.ext (origin_injective ks (congrArg Subtype.val hab))
  obtain ⟨n, hn, hperiodic⟩ := mem_periodicPts.mp (hinj.mem_periodicPts ⟨start, hstart⟩)
  refine minimalPeriod_pos_iff_mem_periodicPts.mpr (mem_periodicPts.mpr ⟨n, hn, ?_⟩)
  rw [IsPeriodicPt, IsFixedPt, hmaps.iterate_restrict] at hperiodic
  exact congrArg Subtype.val hperiodic

theorem minimalPeriod_le : minimalPeriod (origin ks) start ≤ perm.size := by
  have hnodup : ((range (minimalPeriod (origin ks) start)).map
      fun j => (origin ks)^[j] start).Nodup := by
    refine Nodup.map_on (fun a ha b hb hab => ?_) nodup_range
    exact iterate_injOn_Iio_minimalPeriod (mem_range.mp ha) (mem_range.mp hb) hab
  have hsub : ((range (minimalPeriod (origin ks) start)).map
      fun j => (origin ks)^[j] start) ⊆ range perm.size := by
    intro x hx
    obtain ⟨j, _, rfl⟩ := mem_map.mp hx
    exact mem_range.mpr (h.iterate_lt hstart j)
  simpa using (hnodup.subperm hsub).length_le

theorem walkCycle_eq {fuel : Nat} (hn : j + n = minimalPeriod (origin ks) start)
    (hj : 0 < j) (hfuel : n < fuel) :
    walkCycle perm start fuel ((origin ks)^[j] start) =
      (range' j (n + 1)).map fun j => (origin ks)^[j] start := by
  induction n generalizing fuel j with
  | zero =>
    obtain ⟨fuel, rfl⟩ := Nat.exists_eq_succ_of_ne_zero (Nat.ne_of_gt hfuel)
    obtain rfl : j = _ := hn
    rw [iterate_minimalPeriod]
    simp [walkCycle, iterate_minimalPeriod]
  | succ n ih =>
    obtain ⟨fuel, rfl⟩ := Nat.exists_eq_succ_of_ne_zero (Nat.ne_of_gt (Nat.zero_lt_of_lt hfuel))
    have hne : (origin ks)^[j] start ≠ start :=
      not_isPeriodicPt_of_pos_of_lt_minimalPeriod (Nat.ne_of_gt hj) (by omega)
    rw [walkCycle, if_neg hne, h.getD _ (h.iterate_lt hstart j),
      ← iterate_succ_apply' (origin ks),
      ih (by omega) (by omega) (by omega)]
    conv_rhs => rw [range'_succ, map_cons]

/-- A cycle is a walk that comes back to its start. -/
theorem cycle_eq :
    cycle perm start = (range (minimalPeriod (origin ks) start + 1)).map
      fun j => (origin ks)^[j] start := by
  have hpos := h.minimalPeriod_pos hstart
  have hle := h.minimalPeriod_le hstart
  obtain ⟨n, hn⟩ := Nat.exists_eq_succ_of_ne_zero (Nat.ne_of_gt hpos)
  have hwalk : walkCycle perm start perm.size ((origin ks)^[1] start) =
      (range' 1 (n + 1)).map fun j => (origin ks)^[j] start :=
    h.walkCycle_eq hstart (by omega) (by omega) (by omega)
  rw [cycle, h.getD start hstart, range_eq_range', range'_succ, map_cons, hn]
  exact congrArg _ hwalk

end

theorem iterate_inj {i : Nat} (hi : i < minimalPeriod (origin ks) start)
    (hj : j < minimalPeriod (origin ks) start)
    (hij : (origin ks)^[i] start = (origin ks)^[j] start) : i = j :=
  iterate_injOn_Iio_minimalPeriod hi hj hij

section

variable (h : Arranges ks perm) (hstart : start < perm.size)
include h hstart

theorem mem_cycle :
    x ∈ cycle perm start ↔ ∃ j < minimalPeriod (origin ks) start, (origin ks)^[j] start = x := by
  rw [h.cycle_eq hstart, mem_map]
  constructor
  · rintro ⟨j, hj, rfl⟩
    rcases Nat.lt_succ_iff_lt_or_eq.mp (mem_range.mp hj) with hlt | rfl
    · exact ⟨j, hlt, rfl⟩
    · exact ⟨0, h.minimalPeriod_pos hstart, iterate_minimalPeriod.symm⟩
  · rintro ⟨j, hj, rfl⟩
    exact ⟨j, mem_range.mpr (Nat.lt_succ_of_lt hj), rfl⟩

theorem origin_mem_cycle : origin ks x ∈ cycle perm start ↔ x ∈ cycle perm start := by
  have hpos := h.minimalPeriod_pos hstart
  rw [h.mem_cycle hstart, h.mem_cycle hstart]
  constructor
  · rintro ⟨j, hj, hx⟩
    -- The place before the first one is the last one.
    obtain ⟨i, hi, hij⟩ : ∃ i < minimalPeriod (origin ks) start,
        (origin ks)^[i + 1] start = (origin ks)^[j] start := by
      cases j with
      | zero =>
        refine ⟨minimalPeriod (origin ks) start - 1, by omega, ?_⟩
        rw [Nat.sub_add_cancel hpos, iterate_minimalPeriod]
        rfl
      | succ j => exact ⟨j, by omega, rfl⟩
    refine ⟨i, hi, origin_injective ks ?_⟩
    rw [← iterate_succ_apply' (origin ks), hij, hx]
  · rintro ⟨j, hj, rfl⟩
    rw [← iterate_succ_apply' (origin ks)]
    rcases Nat.lt_or_eq_of_le (Nat.succ_le_of_lt hj) with hlt | heq
    · exact ⟨j + 1, hlt, rfl⟩
    · refine ⟨0, hpos, ?_⟩
      rw [show j.succ = _ from heq, iterate_minimalPeriod]
      rfl

/-- Nothing on a cycle of more than one place stays where it is. -/
theorem origin_ne (hmoved : origin ks start ≠ start) (hx : x ∈ cycle perm start) :
    origin ks x ≠ x := by
  obtain ⟨j, _, rfl⟩ := (h.mem_cycle hstart).mp hx
  intro hfix
  apply hmoved
  rw [← iterate_succ_apply' (origin ks), iterate_succ_apply] at hfix
  exact (origin_injective ks).iterate j hfix

theorem two_le_minimalPeriod (hmoved : origin ks start ≠ start) :
    2 ≤ minimalPeriod (origin ks) start := by
  have hpos := h.minimalPeriod_pos hstart
  by_contra hlt
  have hone : minimalPeriod (origin ks) start = 1 := by omega
  have hfix := iterate_minimalPeriod (f := origin ks) (x := start)
  rw [hone] at hfix
  exact hmoved hfix

end

theorem range_split (hj : j < n) :
    range (n + 1) = range j ++ j :: (j + 1) :: range' (j + 2) (n - 1 - j) := by
  have hn : n + 1 = j + (n - 1 - j + 1 + 1) := by omega
  rw [hn, range_eq_range', range_eq_range', ← range'_append_1, Nat.zero_add,
    range'_succ, range'_succ]

/-- Around a cycle that does not go through the top, the walk takes everything back. -/
theorem undo_off_top (h : Arranges ks perm) (hstart : start < perm.size) (h0 : 0 ∉ cycle perm start)
    (hx : x ∈ cycle perm start) : origin (cycle perm start) (origin ks x) = x := by
  have hne : ∀ j, (origin ks)^[j] start ≠ 0 := by
    intro j hj
    have hmem : ∀ j, (origin ks)^[j] start ∈ cycle perm start := by
      intro j
      induction j with
      | zero => exact (h.mem_cycle hstart).mpr ⟨0, h.minimalPeriod_pos hstart, rfl⟩
      | succ j ih => rw [iterate_succ_apply']; exact (h.origin_mem_cycle hstart).mpr ih
    exact h0 (hj ▸ hmem j)
  obtain ⟨j, hj, rfl⟩ := (h.mem_cycle hstart).mp hx
  rw [h.cycle_eq hstart, range_split hj, map_append, map_cons, map_cons,
    ← iterate_succ_apply' (origin ks)]
  refine origin_through (hne j) (fun hmem => ?_) (hne (j + 1)) fun hmem => ?_
  · obtain ⟨i, hi, heq⟩ := mem_map.mp hmem
    have hij := mem_range.mp hi
    exact absurd (iterate_inj (by omega) hj heq) (by omega)
  · obtain ⟨i, hi, heq⟩ := mem_map.mp hmem
    have hij := mem_range'_1.mp hi
    obtain ⟨k, rfl⟩ := Nat.exists_eq_add_of_le hij.1
    rw [show j + 2 + k = (k + 1) + (j + 1) by omega, Nat.add_comm, iterate_add_apply] at heq
    have hback : (origin ks)^[k + 1] start = start := (origin_injective ks).iterate (j + 1) heq
    exact not_isPeriodicPt_of_pos_of_lt_minimalPeriod (by omega) (by omega) hback

/-- Around the cycle from the top, the walk takes everything back without going to the top. -/
theorem filter_cycle_top (h : Arranges ks perm) (hstart : 0 < perm.size) :
    (cycle perm 0).filter (· ≠ 0) =
      (range' 1 (minimalPeriod (origin ks) 0 - 1)).map fun j => (origin ks)^[j] 0 := by
  have hpos := h.minimalPeriod_pos hstart
  obtain ⟨n, hn⟩ := Nat.exists_eq_succ_of_ne_zero (Nat.ne_of_gt hpos)
  rw [h.cycle_eq hstart, range_succ, range_eq_range']
  conv_lhs => rw [hn]
  rw [range'_succ, map_append, map_cons, map_singleton, ← hn,
    iterate_minimalPeriod, filter_append, hn]
  simp only [iterate_zero, id_eq, ne_eq, not_true_eq_false, decide_false,
    Bool.false_eq_true, not_false_eq_true, filter_cons_of_neg, filter_nil,
    append_nil, Nat.succ_eq_add_one, Nat.add_sub_cancel, Nat.zero_add]
  refine filter_eq_self.mpr fun x hx => ?_
  obtain ⟨j, hj, rfl⟩ := mem_map.mp hx
  have hj := mem_range'_1.mp hj
  exact decide_eq_true (not_isPeriodicPt_of_pos_of_lt_minimalPeriod (by omega) (by omega))

theorem undo_top (h : Arranges ks perm) (hstart : 0 < perm.size) (hmoved : origin ks 0 ≠ 0)
    (hx : x ∈ cycle perm 0) : origin ((cycle perm 0).filter (· ≠ 0)) (origin ks x) = x := by
  have htwo := h.two_le_minimalPeriod hstart hmoved
  have hne : ∀ j, 0 < j → j < minimalPeriod (origin ks) 0 → (origin ks)^[j] 0 ≠ 0 :=
    fun j hj hlt => not_isPeriodicPt_of_pos_of_lt_minimalPeriod (Nat.ne_of_gt hj) hlt
  obtain ⟨j, hj, rfl⟩ := (h.mem_cycle hstart).mp hx
  rw [h.filter_cycle_top hstart, ← iterate_succ_apply' (origin ks)]
  generalize hL : minimalPeriod (origin ks) 0 = n at *
  have hnotMem : ∀ i m k, i < n → (∀ l ∈ range' m k, l < n ∧ l ≠ i) →
      (origin ks)^[i] 0 ∉ (range' m k).map fun j => (origin ks)^[j] 0 := by
    intro i m k hi hl hmem
    obtain ⟨l, hlmem, heq⟩ := mem_map.mp hmem
    obtain ⟨hlt, hne⟩ := hl l hlmem
    exact hne (iterate_inj (by omega) (by omega) heq)
  rcases Nat.eq_zero_or_pos j with rfl | hjpos
  · -- The top's own item goes to the first place of the walk.
    obtain ⟨m, hm⟩ : ∃ m, n - 1 = m + 1 := ⟨n - 2, by omega⟩
    rw [hm, range'_succ, map_cons]
    refine origin_head (hne 1 (by omega) (by omega)) (hnotMem 1 2 m (by omega) fun l hl => ?_)
    have := mem_range'_1.mp hl
    omega
  · rcases Nat.lt_or_eq_of_le (Nat.succ_le_of_lt hj) with hlt | heq
    · have hsplit : range' 1 (n - 1) =
          range' 1 (j - 1) ++ j :: (j + 1) :: range' (j + 2) (n - 2 - j) := by
        have hn : n - 1 = (j - 1) + (n - 2 - j + 1 + 1) := by omega
        rw [hn, ← range'_append_1, range'_succ, range'_succ, show 1 + (j - 1) = j by omega]
      rw [hsplit, map_append, map_cons, map_cons]
      refine origin_through (hne j hjpos hj) (hnotMem _ _ _ hj fun l hl => ?_)
        (hne (j + 1) (by omega) hlt) (hnotMem _ _ _ hlt fun l hl => ?_)
      all_goals
        have := mem_range'_1.mp hl
        omega
    · have hsplit : range' 1 (n - 1) = range' 1 (j - 1) ++ [j] := by
        have hn : n - 1 = (j - 1) + 1 := by omega
        rw [hn, ← range'_append_1, show 1 + (j - 1) = j by omega]
        rfl
      rw [hsplit, map_append, map_singleton, show j.succ = n from heq, ← hL, iterate_minimalPeriod]
      refine origin_last (hne j hjpos hj) (hnotMem _ _ _ hj fun l hl => ?_)
      have := mem_range'_1.mp hl
      omega

/-- The exchanges that take a cycle back: a cycle that starts elsewhere must not go through the
top. -/
theorem undo_cycle (h : Arranges ks perm) (hstart : start < perm.size)
    (hmoved : origin ks start ≠ start) (htop : start = 0 ∨ 0 ∉ cycle perm start) :
    (∀ x ∈ cycle perm start, origin ((cycle perm start).filter (· ≠ 0)) (origin ks x) = x) ∧
      ∀ x ∉ cycle perm start, origin ((cycle perm start).filter (· ≠ 0)) x = x := by
  have hmem : start ∈ cycle perm start :=
    (h.mem_cycle hstart).mpr ⟨0, h.minimalPeriod_pos hstart, rfl⟩
  rcases htop with rfl | h0
  · refine ⟨fun x hx => h.undo_top hstart hmoved hx, fun x hx => origin_of_notMem ?_ ?_⟩
    · rintro rfl
      exact hx hmem
    · exact fun hx' => hx (mem_of_mem_filter hx')
  · have hfilter : (cycle perm start).filter (· ≠ 0) = cycle perm start :=
      filter_eq_self.mpr fun x hx => decide_eq_true fun hx0 => h0 (hx0 ▸ hx)
    rw [hfilter]
    refine ⟨fun x hx => h.undo_off_top hstart h0 hx, fun x hx => ?_⟩
    by_cases hx0 : x = 0
    · subst hx0
      have hpos := h.minimalPeriod_pos hstart
      obtain ⟨n, hn⟩ := Nat.exists_eq_succ_of_ne_zero (Nat.ne_of_gt hpos)
      rw [h.cycle_eq hstart, range_succ, range_eq_range', map_append,
        map_singleton, iterate_minimalPeriod, hn, range'_succ, map_cons]
      refine origin_round (fun hz => hx (hz ▸ hmem)) fun hmid => ?_
      obtain ⟨j, hj, heq⟩ := mem_map.mp hmid
      have hj := mem_range'_1.mp hj
      exact not_isPeriodicPt_of_pos_of_lt_minimalPeriod (by omega) (by omega) heq
    · exact origin_of_notMem hx0 hx

/-! ### No shorter run of exchanges -/

theorem mem_of_moved (hx : x ≠ 0) (hmoved : origin ks x ≠ x) : x ∈ ks := by
  by_contra hmem
  exact hmoved (origin_of_notMem hx hmem)

theorem nodup_turns (ks : List Nat) (start : Nat) :
    ((range (minimalPeriod (origin ks) start)).map fun j => (origin ks)^[j] start).Nodup := by
  refine Nodup.map_on (fun a ha b hb hab => ?_) nodup_range
  exact iterate_inj (mem_range.mp ha) (mem_range.mp hb) hab

/-- Of a cycle that does not go through the top, the place that is exchanged first is exchanged
once more: its new item came from outside. -/
theorem length_cycle_off_top (h : Arranges ks perm) (hstart : start < perm.size)
    (hmoved : origin ks start ≠ start) (h0 : 0 ∉ cycle perm start) :
    (cycle perm start).length ≤ (ks.filter (· ∈ cycle perm start)).length := by
  have hmem : start ∈ cycle perm start :=
    (h.mem_cycle hstart).mpr ⟨0, h.minimalPeriod_pos hstart, rfl⟩
  have hne : ∀ {x}, x ∈ cycle perm start → x ≠ 0 := fun hx hx0 => h0 (hx0 ▸ hx)
  have hall : ∀ x ∈ cycle perm start, x ∈ ks :=
    fun x hx => mem_of_moved (hne hx) (h.origin_ne hstart hmoved hx)
  obtain ⟨a, hfirst⟩ : ∃ a, ks.find? (· ∈ cycle perm start) = some a := by
    rw [← Option.isSome_iff_exists, find?_isSome]
    exact ⟨start, hall start hmem, decide_eq_true hmem⟩
  obtain ⟨ha, pre, post, hks, hpre⟩ := find?_eq_some_iff_append.mp hfirst
  have ha : a ∈ cycle perm start := of_decide_eq_true ha
  have hpre : ∀ k ∈ pre, k ∉ cycle perm start := fun k hk => by simpa using hpre k hk
  have hagain : a ∈ post := by
    by_contra hnot
    have horigin : origin ks a = origin pre 0 := by
      rw [hks, origin_append, origin_cons, origin_of_notMem (hne ha) hnot, swap_apply_right]
    exact origin_notMem h0 hpre h0 (horigin ▸ (h.origin_mem_cycle hstart).mpr ha)
  have hpost : ∀ x ∈ cycle perm start, x ∈ post := by
    intro x hx
    have hx' : x ∈ pre ++ a :: post := hks ▸ hall x hx
    rcases mem_append.mp hx' with hx' | hx'
    · exact absurd hx (hpre x hx')
    · rcases mem_cons.mp hx' with rfl | hx'
      · exact hagain
      · exact hx'
  have hsub : ((range (minimalPeriod (origin ks) start)).map
      fun j => (origin ks)^[j] start) ⊆ post.filter (· ∈ cycle perm start) := by
    intro x hx
    obtain ⟨j, hj, rfl⟩ := mem_map.mp hx
    have hx := (h.mem_cycle hstart).mpr ⟨j, mem_range.mp hj, rfl⟩
    exact mem_filter.mpr ⟨hpost _ hx, decide_eq_true hx⟩
  have hle := ((nodup_turns ks start).subperm hsub).length_le
  have hfilter : (ks.filter (· ∈ cycle perm start)).length =
      (post.filter (· ∈ cycle perm start)).length + 1 := by
    rw [hks, filter_append, filter_eq_nil_iff.mpr (by simpa using hpre),
      filter_cons, if_pos (decide_eq_true ha)]
    simp
  have hlength : (cycle perm start).length = minimalPeriod (origin ks) start + 1 := by
    rw [h.cycle_eq hstart, length_map, length_range]
  rw [hfilter, hlength]
  simpa using hle

theorem length_cycle_top (h : Arranges ks perm) (hstart : 0 < perm.size)
    (hmoved : origin ks 0 ≠ 0) :
    ((cycle perm 0).filter (· ≠ 0)).length ≤ (ks.filter (· ∈ cycle perm 0)).length := by
  have hnodup : ((cycle perm 0).filter (· ≠ 0)).Nodup := by
    rw [h.filter_cycle_top hstart]
    refine Nodup.map_on (fun a ha b hb hab => ?_) nodup_range'
    have ha := mem_range'_1.mp ha
    have hb := mem_range'_1.mp hb
    exact iterate_inj (by omega) (by omega) hab
  refine (hnodup.subperm fun x hx => ?_).length_le
  obtain ⟨hx, hx0⟩ := mem_filter.mp hx
  refine mem_filter.mpr ⟨mem_of_moved (of_decide_eq_true hx0) ?_, decide_eq_true hx⟩
  exact h.origin_ne hstart hmoved hx

theorem length_cycle (h : Arranges ks perm) (hstart : start < perm.size)
    (hmoved : origin ks start ≠ start) (htop : start = 0 ∨ 0 ∉ cycle perm start) :
    ((cycle perm start).filter (· ≠ 0)).length ≤ (ks.filter (· ∈ cycle perm start)).length := by
  rcases htop with rfl | h0
  · exact h.length_cycle_top hstart hmoved
  · exact (length_filter_le _ _).trans (h.length_cycle_off_top hstart hmoved h0)

/-! ### All cycles -/

/-- In the middle of the walk over all places: the cycles in `seen` are taken back by the exchanges
in `out`, and every place below `i` is on one of them or keeps its item. -/
structure Undoing (ks : List Nat) (i : Nat) (seen out : List Nat) : Prop where
  closed : ∀ x, origin ks x ∈ seen ↔ x ∈ seen
  undo : ∀ x ∈ seen, origin out (origin ks x) = x
  rest : ∀ x ∉ seen, origin out x = x
  done : ∀ j < i, j ∈ seen ∨ origin ks j = j
  sub : ∀ k ∈ out, k ∈ ks ∧ k ≠ 0
  length : out.length ≤ (ks.filter (· ∈ seen)).length

theorem length_filter_append {c : List Nat} (h : ∀ x ∈ c, x ∉ seen) (ls : List Nat) :
    (ls.filter (· ∈ c ++ seen)).length =
      (ls.filter (· ∈ seen)).length + (ls.filter (· ∈ c)).length := by
  induction ls with
  | nil => rfl
  | cons x ls ih =>
    simp only [filter_cons, mem_append, Bool.decide_or] at ih ⊢
    by_cases hc : x ∈ c
    · simp [hc, h x hc, ih, Nat.add_assoc]
    · by_cases hs : x ∈ seen <;> simp [hc, hs, ih, Nat.add_right_comm]

theorem Undoing.cycle (hu : Undoing ks start seen out) (h : Arranges ks perm)
    (hstart : start < perm.size) (hseen : start ∉ seen) (hmoved : origin ks start ≠ start) :
    Undoing ks (start + 1) (Bytecode.cycle perm start ++ seen)
      (out ++ (Bytecode.cycle perm start).filter (· ≠ 0)) := by
  have hclosed := fun x => h.origin_mem_cycle hstart (x := x)
  have happart : ∀ x ∈ Bytecode.cycle perm start, x ∉ seen := by
    intro x hx hmem
    -- The whole cycle would have been seen.
    obtain ⟨j, hj, rfl⟩ := (h.mem_cycle hstart).mp hx
    clear hx hj
    induction j with
    | zero => exact hseen hmem
    | succ j ih =>
      rw [iterate_succ_apply'] at hmem
      exact ih ((hu.closed _).mp hmem)
  have htop : start = 0 ∨ 0 ∉ Bytecode.cycle perm start := by
    rcases Nat.eq_zero_or_pos start with rfl | hpos
    · exact .inl rfl
    · refine .inr fun h0 => ?_
      rcases hu.done 0 hpos with hmem | hfix
      · exact happart 0 h0 hmem
      · exact h.origin_ne hstart hmoved h0 hfix
  obtain ⟨hundo, hrest⟩ := h.undo_cycle hstart hmoved htop
  refine ⟨fun x => ?_, fun x hx => ?_, fun x hx => ?_, fun j hj => ?_, fun k hk => ?_, ?_⟩
  · rw [mem_append, mem_append, hclosed, hu.closed]
  · rw [origin_append]
    by_cases hc : x ∈ Bytecode.cycle perm start
    · rw [hundo x hc, hu.rest x (happart x hc)]
    · have hx := (mem_append.mp hx).resolve_left hc
      rw [hrest _ (fun hmem => hc ((hclosed x).mp hmem)), hu.undo x hx]
  · rw [mem_append, not_or] at hx
    rw [origin_append, hrest x hx.1, hu.rest x hx.2]
  · rcases Nat.lt_succ_iff_lt_or_eq.mp hj with hlt | rfl
    · exact (hu.done j hlt).imp_left fun hmem => mem_append_right _ hmem
    · exact .inl (mem_append_left _ ((h.mem_cycle hstart).mpr ⟨0, h.minimalPeriod_pos hstart, rfl⟩))
  · rcases mem_append.mp hk with hk | hk
    · exact hu.sub k hk
    · obtain ⟨hk, hk0⟩ := mem_filter.mp hk
      have hk0 := of_decide_eq_true hk0
      exact ⟨mem_of_moved hk0 (h.origin_ne hstart hmoved hk), hk0⟩
  · have hlen := h.length_cycle hstart hmoved htop
    have := hu.length
    rw [length_filter_append happart, length_append]
    omega

theorem Undoing.skip (hu : Undoing ks start seen out)
    (hdone : start ∈ seen ∨ origin ks start = start) : Undoing ks (start + 1) seen out := by
  refine ⟨hu.closed, hu.undo, hu.rest, fun j hj => ?_, hu.sub, hu.length⟩
  rcases Nat.lt_succ_iff_lt_or_eq.mp hj with hlt | rfl
  · exact hu.done j hlt
  · exact hdone

theorem undoing_foldl (h : Arranges ks perm) (hn : n ≤ perm.size) :
    Undoing ks n ((range n).foldl (takeCycle perm) ([], [])).1
      ((range n).foldl (takeCycle perm) ([], [])).2 := by
  induction n with
  | zero => exact ⟨by simp, by simp, by simp, by simp, by simp, Nat.zero_le _⟩
  | succ n ih =>
    have hu := ih (Nat.le_of_succ_le hn)
    rw [range_succ, foldl_append, foldl_cons, foldl_nil]
    generalize (range n).foldl (takeCycle perm) ([], []) = walk at hu ⊢
    unfold takeCycle
    split_ifs with hdone
    · refine hu.skip ?_
      simpa [h.getD n hn] using hdone
    · simp only [h.getD n hn, contains_iff_mem, Bool.or_eq_true, decide_eq_true_eq, not_or] at hdone
      exact hu.cycle h hn hdone.1 hdone.2

/-- The exchanges give the permutation, with the places of the old ones only, and there are no more
of them. -/
theorem exchanges_spec (h : Arranges ks perm) :
    (∀ x, origin (exchanges perm).reverse x = origin ks x) ∧
      (∀ k ∈ exchanges perm, k ∈ ks) ∧ (exchanges perm).length ≤ ks.length := by
  have hu := h.undoing_foldl (Nat.le_refl _)
  have hundo : ∀ x, origin (exchanges perm) (origin ks x) = x := by
    intro x
    by_cases hx : x ∈ ((range perm.size).foldl (takeCycle perm) ([], [])).1
    · exact hu.undo x hx
    · have hfix : origin ks x = x := by
        rcases Nat.lt_or_ge x perm.size with hlt | hge
        · exact (hu.done x hlt).resolve_left hx
        · exact h.above x hge
      rw [hfix]
      exact hu.rest x hx
  refine ⟨fun x => ?_, fun k hk => (hu.sub k hk).1, hu.length.trans (length_filter_le _ _)⟩
  conv_lhs => rw [← hundo x]
  exact origin_reverse_origin _ _

end Arranges

/-! ### Runs of exchanges -/

def swapPlaces (run : List Instr) : List Nat :=
  (run.filter (·.isSwap)).map fun i => i.arg - 1

theorem getElem?_swapIfInBounds {α : Type} (xs : Array α) {k : Nat} (h0 : 0 < xs.size)
    (hk : k < xs.size) (i : Nat) : (xs.swapIfInBounds 0 k)[i]? = xs[swap 0 k i]? := by
  rw [Array.swapIfInBounds, dif_pos h0, dif_pos hk, Array.getElem?_swap]
  by_cases hik : k = i
  · subst hik
    rw [if_pos rfl, swap_apply_right, Array.getElem?_eq_getElem h0]
  · rw [if_neg hik]
    by_cases hi0 : 0 = i
    · subst hi0
      rw [if_pos rfl, swap_apply_left, Array.getElem?_eq_getElem hk]
    · rw [if_neg hi0, swap_apply_of_ne_of_ne (Ne.symm hi0) (Ne.symm hik)]

theorem getElem?_permute {run : List Instr} {depth : Nat} (hpos : 0 < depth)
    (hrun : ∀ k ∈ swapPlaces run, k < depth) (i : Nat) :
    (permute depth run)[i]? = (Array.range depth)[origin (swapPlaces run) i]? := by
  have hfold : ∀ (swaps : List Instr) (xs : Array Nat), 0 < xs.size →
      (∀ k ∈ swaps.map fun i => i.arg - 1, k < xs.size) → ∀ i,
      (swaps.foldl (fun stack i => stack.swapIfInBounds 0 (i.arg - 1)) xs)[i]? =
        xs[origin (swaps.map fun i => i.arg - 1) i]? := by
    intro swaps
    induction swaps with
    | nil => exact fun _ _ _ _ => rfl
    | cons j swaps ih =>
      intro xs h0 hks i
      obtain ⟨hj, hks⟩ := forall_mem_cons.mp hks
      rw [foldl_cons, ih _ (by simpa using h0) (by simpa using hks),
        getElem?_swapIfInBounds xs h0 hj]
      rfl
  refine hfold _ _ (by simpa using hpos) (fun k hk => ?_) i
  rw [Array.size_range]
  exact hrun k hk

theorem size_permute (run : List Instr) (depth : Nat) : (permute depth run).size = depth := by
  have hfold : ∀ (swaps : List Instr) (xs : Array Nat),
      (swaps.foldl (fun stack i => stack.swapIfInBounds 0 (i.arg - 1)) xs).size = xs.size := by
    intro swaps
    induction swaps with
    | nil => exact fun _ => rfl
    | cons j swaps ih => intro xs; rw [foldl_cons, ih]; simp
  rw [permute, hfold, Array.size_range]

theorem arranges_permute {run : List Instr} {depth : Nat} (hpos : 0 < depth)
    (hrun : ∀ k ∈ swapPlaces run, k < depth) :
    Arranges (swapPlaces run) (permute depth run) := by
  have habove : ∀ j, depth ≤ j → origin (swapPlaces run) j = j := by
    intro j hj
    exact origin_of_notMem (by omega) fun hmem => absurd (hrun j hmem) (by omega)
  refine ⟨fun j hj d => ?_, fun j hj => habove j (size_permute run depth ▸ hj)⟩
  have hlt : origin (swapPlaces run) j < depth := by
    by_contra hge
    have hfix := habove _ (Nat.le_of_not_lt hge)
    rw [size_permute] at hj
    exact hge ((origin_injective _ hfix).symm ▸ hj)
  rw [Array.getD_eq_getD_getElem?, getElem?_permute hpos hrun]
  simp [hlt]

end Bytecode
