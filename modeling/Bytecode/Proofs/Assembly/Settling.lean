import Bytecode.Assembly
import Bytecode.Proofs.Assembly.Lowering
import Bytecode.Proofs.Graph.Layout

/-!
# Offsets settle

Jumps start with the operand zero, which is the shortest. What a round of aiming makes of an operand
is the size of the code between the jump and its target, and that only grows when sizes grow. So no
instruction ever gets shorter from one round to the next, and after as many rounds as there are
units to gain the sizes stay. Since every jump has the direction of its target in the layout, no
round fails.
-/

namespace Bytecode

open List Result

theorem unitCount_mono {a b : Nat} (h : a ≤ b) : unitCount a ≤ unitCount b := by
  unfold unitCount
  split_ifs <;> omega

theorem unitCount_le_four (a : Nat) : unitCount a ≤ 4 := by
  unfold unitCount
  split_ifs <;> omega

namespace Layout

variable {is js : List Instr} {l r : Layout} {k : Nat} {i : Instr} {op : Opcode}
  {direction : Direction} {target : BlockId}

/-! ### Sizes that do not shrink -/

/-- No instruction of the second list is shorter than its counterpart in the first. -/
def NoShorter (is js : List Instr) : Prop :=
  Forall₂ (fun i j => unitCount i.arg ≤ unitCount j.arg) is js

theorem NoShorter.unitsOf_le (h : NoShorter is js) : unitsOf is ≤ unitsOf js := by
  induction h with
  | nil => exact Nat.le_refl _
  | cons hij _ ih => exact Nat.add_le_add hij ih

/-- Where some size has changed, the code is longer. -/
theorem NoShorter.unitsOf_lt (h : NoShorter is js)
    (hne : js.map (unitCount ·.arg) ≠ is.map (unitCount ·.arg)) : unitsOf is < unitsOf js := by
  induction h with
  | nil => exact absurd rfl hne
  | @cons i j is js hij hrest ih =>
    have hle : unitsOf is ≤ unitsOf js := NoShorter.unitsOf_le hrest
    simp only [unitsOf]
    by_cases heq : unitCount j.arg = unitCount i.arg
    · have hlt := ih fun htail => hne (by simp only [map_cons, heq, htail])
      omega
    · omega

theorem unitsOf_bounds (is : List Instr) : is.length ≤ unitsOf is ∧ unitsOf is ≤ 4 * is.length := by
  induction is with
  | nil => exact ⟨Nat.le_refl _, Nat.le_refl _⟩
  | cons i is ih =>
    have hpos := unitCount_pos i.arg
    have hle := unitCount_le_four i.arg
    simp only [length_cons, unitsOf]
    omega

/-- The units between two places of the code. -/
def span (is : List Instr) (a b : Nat) : Nat :=
  unitsOf ((is.take b).drop a)

theorem span_mono (h : NoShorter is js) (a b : Nat) : span is a b ≤ span js a b :=
  NoShorter.unitsOf_le (forall₂_drop a (forall₂_take b h))

theorem unitsOf_take_add_span {a b : Nat} (hab : a ≤ b) (is : List Instr) :
    unitsOf (is.take a) + span is a b = unitsOf (is.take b) := by
  rw [span, ← unitsOf_append, ← Nat.min_eq_left hab, ← take_take, Nat.min_eq_left hab,
    take_append_drop]

/-! ### Jumps that go in their direction -/

/-- A jump at a place of the code that goes to a block of the layout finds it in its direction. -/
def Heads (l : Layout) (k : Nat) (direction : Direction) (target : BlockId) : Prop :=
  target ∈ l.map (·.1) ∧
    match direction with
    | .forward => k < (l.before target).length
    | .backward => (l.before target).length ≤ k

/-- Every jump has a direction, and goes in it to a block of the layout. -/
def Directed (l : Layout) : Prop :=
  ∀ k i, l.instrs[k]? = some i → i.op.isJump → ∃ op direction target,
    i.op = .real op ∧ op.direction? = some direction ∧ i.target = some target ∧
      l.Heads k direction target

/-- The units between a jump and its target. -/
def reach (l : Layout) (k : Nat) (target : BlockId) : Direction → Nat
  | .forward => span l.instrs (k + 1) (l.before target).length
  | .backward => span l.instrs (l.before target).length (k + 1)

theorem distance_eq_reach (h : l.Heads k direction target) :
    distance op direction (unitsOf (l.instrs.take (k + 1))) (offsetOf (l.offsetsFrom 0) target) =
      .ok (l.reach k target direction) := by
  rw [distance_eq_ok, offsetOf_offsetsFrom h.1, ← take_length_before]
  cases direction with
  | forward => exact unitsOf_take_add_span h.2 _
  | backward => exact unitsOf_take_add_span (Nat.le_succ_of_le h.2) _

theorem aim_of_heads (hop : i.op = .real op) (hdir : op.direction? = some direction)
    (htarget : i.target = some target) (h : l.Heads k direction target) :
    aim (l.offsetsFrom 0) (unitsOf (l.instrs.take (k + 1))) i =
      .ok { i with arg := l.reach k target direction } := by
  simp [aim, hop, htarget, hdir, distance_eq_reach h]

theorem aim_of_not_isJump (h : ¬i.op.isJump) (offsets : List (BlockId × Nat)) (stop : Nat) :
    aim offsets stop i = .ok i := by
  unfold aim
  split
  · rename_i target op htarget hop
    have hdir : op.direction? = none := by simpa [hop, Operation.isJump] using h
    simp [hdir]
  · rfl

theorem exists_aimAll (offsets : List (BlockId × Nat)) (start : Nat) (is : List Instr)
    (h : ∀ k i, is[k]? = some i → ∃ j, aim offsets (start + unitsOf (is.take (k + 1))) i = .ok j) :
    ∃ js, aimAll offsets start is = .ok js := by
  induction is generalizing start with
  | nil => exact ⟨[], rfl⟩
  | cons i is ih =>
    obtain ⟨j, hj⟩ := h 0 i rfl
    obtain ⟨js, hjs⟩ := ih (start + unitCount i.arg) fun k i' hk => by
      simpa [unitsOf, Nat.add_assoc] using h (k + 1) i' hk
    have hfirst : aim offsets (start + unitCount i.arg) i = .ok j := by simpa [unitsOf] using hj
    exact ⟨j :: js, by simp [aimAll, hfirst, hjs]⟩

/-- No jump of a round points the wrong way. -/
theorem exists_aimOnce (hl : l.Directed) (hnodup : (l.map (·.1)).Nodup) :
    ∃ r, l.aimOnce = .ok r := by
  refine exists_mapM fun b hb => ?_
  obtain ⟨(pre : Layout), (post : Layout), hsplit⟩ := append_of_mem hb
  have hstart : offsetOf (l.offsetsFrom 0) b.1 = unitsOf pre.instrs := by
    rw [offsetOf_offsetsFrom (mem_map_of_mem hb), before_of_split hnodup hsplit]
  obtain ⟨js, hjs⟩ := exists_aimAll (l.offsetsFrom 0) (unitsOf pre.instrs) b.2
    fun k i hk => by
      have hlt : k < b.2.length := (List.getElem?_eq_some_iff.mp hk).1
      have hplace : l.instrs[pre.instrs.length + k]? = some i := by
        rw [hsplit, instrs_append, getElem?_append_right (by omega), instrs_cons,
          Nat.add_sub_cancel_left, getElem?_append_left hlt, hk]
      have htake : l.instrs.take (pre.instrs.length + k + 1) = pre.instrs ++ b.2.take (k + 1) := by
        rw [hsplit, instrs_append, instrs_cons, Nat.add_assoc, take_length_add_append,
          take_append_of_le_length (by omega)]
      rw [← unitsOf_append, ← htake]
      by_cases hjump : i.op.isJump
      · obtain ⟨op, direction, target, hop, hdir, htarget, hheads⟩ := hl _ i hplace hjump
        exact ⟨_, aim_of_heads hop hdir htarget hheads⟩
      · exact ⟨i, aim_of_not_isJump hjump _ _⟩
  exact ⟨(b.1, js), by simp [hstart, hjs]⟩

theorem SameButDistances.length_before (h : SameButDistances l r) (id : BlockId) :
    (r.before id).length = (l.before id).length := by
  induction h with
  | nil => rfl
  | @cons b c l r hbc _ ih =>
    simp only [before, takeWhile_cons, hbc.1] at ih ⊢
    split_ifs
    · simp only [instrs_cons, length_append, hbc.2.length_eq, ih]
    · rfl

theorem SameButDistances.exists_source {j : Instr} (h : SameButDistances l r)
    (hj : r.instrs[k]? = some j) : ∃ i, l.instrs[k]? = some i ∧ SameButDistance i j := by
  have hlt : k < l.instrs.length := h.instrs.length_eq ▸ (List.getElem?_eq_some_iff.mp hj).1
  have hi := getElem?_eq_getElem hlt
  exact ⟨_, hi, rel_of_getElem? h.instrs hi hj⟩

theorem Heads.same (hl : l.Heads k direction target) (h : SameButDistances l r) :
    r.Heads k direction target := by
  unfold Heads
  rw [h.map_fst, h.length_before]
  exact hl

/-! ### Round after round -/

/-- No jump points the wrong way, and the next round shortens nothing. -/
structure Rising (l : Layout) : Prop where
  nodup : (l.map (·.1)).Nodup
  directed : l.Directed
  grows : ∀ r, l.aimOnce = .ok r → NoShorter l.instrs r.instrs

theorem noShorter_of_getElem? (hlength : is.length = js.length)
    (h : ∀ (k : Nat) (i j : Instr), is[k]? = some i → js[k]? = some j →
      unitCount i.arg ≤ unitCount j.arg) : NoShorter is js :=
  forall₂_iff_get.mpr ⟨hlength, fun k hi hj =>
    h k _ _ (getElem?_eq_getElem hi) (getElem?_eq_getElem hj)⟩

theorem Directed.same (hl : l.Directed) (h : SameButDistances l r) : r.Directed := by
  intro k j hj hjump
  obtain ⟨i, hi, hij⟩ := h.exists_source hj
  rw [hij.op] at hjump
  obtain ⟨op, direction, target, hop, hdir, htarget, hheads⟩ := hl k i hi hjump
  exact ⟨op, direction, target, hij.op.trans hop, hdir, hij.target.trans htarget, hheads.same h⟩

/-- A round that shortened nothing is followed by one that shortens nothing: what lies between a
jump and its target has only grown. -/
theorem Rising.next (hl : l.Rising) (hr : l.aimOnce = .ok r) : r.Rising := by
  obtain ⟨hsame, haim⟩ := aimOnce_spec hl.nodup hr
  have hnodup : (r.map (·.1)).Nodup := hsame.map_fst ▸ hl.nodup
  refine ⟨hnodup, hl.directed.same hsame, fun s hs => ?_⟩
  obtain ⟨hsame', haim'⟩ := aimOnce_spec hnodup hs
  refine noShorter_of_getElem? hsame'.instrs.length_eq fun k j t hj ht => unitCount_mono ?_
  obtain ⟨i, hi, -⟩ := hsame.exists_source hj
  have hfirst := haim k i j hi hj
  have hsecond := haim' k j t hj ht
  by_cases hjump : i.op.isJump
  · obtain ⟨op, direction, target, hop, hdir, htarget, hheads⟩ := hl.directed k i hi hjump
    rw [aim_of_heads hop hdir htarget hheads] at hfirst
    obtain rfl := Except.ok.inj hfirst
    rw [aim_of_heads (by exact hop) hdir (by exact htarget) (hheads.same hsame)] at hsecond
    obtain rfl := Except.ok.inj hsecond
    cases direction
    all_goals
      simp only [reach, hsame.length_before]
      exact span_mono (hl.grows r hr) _ _
  · rw [aim_of_not_isJump hjump] at hfirst
    obtain rfl := Except.ok.inj hfirst
    rw [aim_of_not_isJump hjump] at hsecond
    obtain rfl := Except.ok.inj hsecond
    exact Nat.le_refl _

/-- So many rounds of aiming. -/
def aimTimes : Nat → Layout → Result Layout
  | 0, l => .ok l
  | k + 1, l => do aimTimes k (← l.aimOnce)

theorem Rising.aimTimes (hl : l.Rising) (k : Nat) : ∃ m, l.aimTimes k = .ok m ∧ m.Rising := by
  induction k generalizing l with
  | zero => exact ⟨l, rfl, hl⟩
  | succ k ih =>
    obtain ⟨r, hr⟩ := exists_aimOnce hl.directed hl.nodup
    obtain ⟨m, hm, hrising⟩ := ih (hl.next hr)
    exact ⟨m, by rw [Layout.aimTimes, hr]; exact hm, hrising⟩

/-- The loop ends, as each round but the last one adds a unit. -/
theorem Rising.settle (hl : l.Rising) (fuel : Nat)
    (hfuel : 4 * l.instrs.length < fuel + unitsOf l.instrs) : ∃ k m r,
      l.aimTimes k = .ok m ∧ m.aimOnce = .ok r ∧
        r.instrs.map (unitCount ·.arg) = m.instrs.map (unitCount ·.arg) ∧
          settle fuel l = .ok r := by
  induction fuel generalizing l with
  | zero =>
    have hle := unitsOf_bounds l.instrs
    omega
  | succ fuel ih =>
    obtain ⟨m, hm⟩ := exists_aimOnce hl.directed hl.nodup
    by_cases hsizes : m.instrs.map (unitCount ·.arg) = l.instrs.map (unitCount ·.arg)
    · exact ⟨0, l, m, rfl, hm, hsizes, by simp [Layout.settle, hm, hsizes]⟩
    · have hlt := (hl.grows m hm).unitsOf_lt hsizes
      have hlength := (aimOnce_spec hl.nodup hm).1.instrs.length_eq
      obtain ⟨k, m', r, hk, hr, hsizes', hsettle⟩ := ih (hl.next hm) (by omega)
      refine ⟨k + 1, m', r, ?_, hr, hsizes', ?_⟩
      · rw [Layout.aimTimes, hm]
        exact hk
      · simp only [Layout.settle, hm, ok_bind, if_neg hsizes, hsettle]

/-- Blocks start where the code before them ends, and the operand of every jump is the distance
from its end to the start of its target, in its direction. -/
structure Exact (r : Layout) : Prop where
  starts : ∀ (pre : Layout) (b : BlockId × List Instr) (post : Layout), r = pre ++ b :: post →
    offsetOf (r.offsetsFrom 0) b.1 = unitsOf pre.instrs
  reaches : ∀ (k : Nat) (j : Instr), r.instrs[k]? = some j → j.op.isJump → ∃ op direction target,
    j.op = .real op ∧ op.direction? = some direction ∧ j.target = some target ∧
      target ∈ r.map (·.1) ∧
        match direction with
        | .forward =>
          unitsOf (r.instrs.take (k + 1)) + j.arg = offsetOf (r.offsetsFrom 0) target
        | .backward =>
          offsetOf (r.offsetsFrom 0) target + j.arg = unitsOf (r.instrs.take (k + 1))

/-- Every round of aiming succeeds and shortens nothing, and one after which no size changes gives
the resolved layout, which differs in the operands of jumps only and has them exact. -/
structure Settles (l : Layout) : Prop where
  rounds : ∀ k, ∃ m r : Layout,
    l.aimTimes k = .ok m ∧ m.aimOnce = .ok r ∧ NoShorter m.instrs r.instrs
  ends : ∃ (k : Nat) (m r : Layout), l.aimTimes k = .ok m ∧ m.aimOnce = .ok r ∧
    r.instrs.map (unitCount ·.arg) = m.instrs.map (unitCount ·.arg) ∧
      l.resolve = .ok r ∧ SameButDistances l r ∧ r.Exact

theorem Exact.of_resolve (hl : l.Rising) (hr : l.resolve = .ok r) :
    SameButDistances l r ∧ r.Exact := by
  obtain ⟨hsame, haimed⟩ := resolve_spec hl.nodup hr
  have hnodup : (r.map (·.1)).Nodup := hsame.map_fst ▸ hl.nodup
  refine ⟨hsame, ⟨fun pre b post hsplit => ?_, fun k j hj hjump => ?_⟩⟩
  · rw [offsetOf_offsetsFrom (by simp [hsplit]), before_of_split hnodup hsplit]
  · obtain ⟨op, direction, target, hop, hdir, htarget, hheads⟩ :=
      hl.directed.same hsame k j hj hjump
    exact ⟨op, direction, target, hop, hdir, htarget, hheads.1,
      distance_eq_ok.mp (haimed k j op direction target hj hop hdir htarget)⟩

theorem Rising.settles (hl : l.Rising) : l.Settles := by
  refine ⟨fun k => ?_, ?_⟩
  · obtain ⟨m, hm, hrising⟩ := hl.aimTimes k
    obtain ⟨r, hr⟩ := exists_aimOnce hrising.directed hrising.nodup
    exact ⟨m, r, hm, hr, hrising.grows r hr⟩
  · have hle := (unitsOf_bounds l.instrs).1
    obtain ⟨k, m, r, hk, hr, hsizes, hsettle⟩ :=
      hl.settle (3 * l.instrs.length + 2) (by omega)
    exact ⟨k, m, r, hk, hr, hsizes, hsettle, Exact.of_resolve hl hsettle⟩

/-! ### Directions -/

variable {pre post : Layout} {b : BlockId × List Instr}

/-- An instruction of the code stands in some block. -/
theorem exists_block (hk : l.instrs[k]? = some i) :
    ∃ (pre : Layout) (b : BlockId × List Instr) (post : Layout), l = pre ++ b :: post ∧ i ∈ b.2 ∧
      pre.instrs.length ≤ k ∧ k < pre.instrs.length + b.2.length := by
  induction l generalizing k with
  | nil => simp at hk
  | cons b l ih =>
    rw [instrs_cons] at hk
    by_cases hlt : k < b.2.length
    · rw [getElem?_append_left hlt] at hk
      exact ⟨[], b, l, rfl, mem_of_getElem? hk, Nat.zero_le k, by simpa using hlt⟩
    · rw [getElem?_append_right (by omega)] at hk
      obtain ⟨pre, c, post, rfl, hi, hle, hlast⟩ := ih hk
      refine ⟨b :: pre, c, post, rfl, hi, ?_⟩
      rw [instrs_cons, length_append]
      omega

/-- A target that comes no later than the block of the jump lies backward, and another forward. -/
theorem heads_of_split (hl : l = pre ++ b :: post) (htarget : target ∈ l.map (·.1))
    (hle : pre.instrs.length ≤ k) (hlt : k < pre.instrs.length + b.2.length) :
    l.Heads k (if target ∈ b.1 :: (pre.map (·.1)).reverse then .backward else .forward) target := by
  refine ⟨htarget, ?_⟩
  rw [hl, before_append]
  split_ifs with hseen hpre hpre
  · exact (pre.before_isPrefix target).length_le.trans hle
  · obtain rfl : target = b.1 := by simpa [hpre] using hseen
    simpa [before] using hle
  · exact absurd (mem_cons_of_mem _ (mem_reverse.mpr hpre)) hseen
  · have hne : b.1 ≠ target := fun h => hseen (by simp [h])
    simp only [before, takeWhile_cons, hne, ne_eq, not_false_eq_true, decide_true, if_true,
      instrs_cons, length_append]
    omega

end Layout

namespace Graph

variable {g h : Graph} {k : Nat} {j : Instr}

/-- The blocks of the layout with their instructions. -/
def laid (g : Graph) : Layout :=
  g.order.map fun id => (id, (g.block id).instrs)

theorem map_fst_laid (g : Graph) : g.laid.map (·.1) = g.order := by
  simp [laid, Function.comp_def]

/-- Every jump of the layout has the operand zero and goes to a block of the layout. -/
def Unaimed (g : Graph) : Prop :=
  ∀ id ∈ g.order, ∀ i ∈ (g.block id).instrs, i.op.isJump →
    i.arg = 0 ∧ ∃ target ∈ g.order, i.target = some target

/-- A jump that has just got its direction goes backward exactly if its target comes no later. -/
theorem heads_of_directJumps (hnodup : g.order.Nodup) (hg : g.Unaimed)
    (hh : g.directJumps = .ok h) (hj : h.laid.instrs[k]? = some j) (hjump : j.op.isJump) :
    j.arg = 0 ∧ ∃ op direction target, j.op = .real op ∧ op.direction? = some direction ∧
      j.target = some target ∧ h.laid.Heads k direction target := by
  obtain ⟨hlinks, hsource, -⟩ := directFrom_spec hnodup hh
  obtain ⟨pre, b, post, hsplit, hj, hle, hlt⟩ := Layout.exists_block hj
  have horder : g.order = pre.map (·.1) ++ b.1 :: post.map (·.1) := by
    rw [← hlinks.order, ← map_fst_laid, hsplit, map_append, map_cons]
  obtain ⟨id, -, rfl⟩ := mem_map.mp (show b ∈ h.laid by simp [hsplit])
  obtain ⟨i, hi, js, hdirect, hj⟩ := hsource _ _ _ horder j hj
  have hunaimed := hg id (by simp [horder]) i hi
  rcases mem_directInstr hdirect hj with ⟨rfl, hnone⟩ |
    ⟨target, op, hi, hsome, htarget, hop, hdir, harg⟩ | hop | hop
  · obtain ⟨-, target, -, hsome⟩ := hunaimed hjump
    cases (hnone hjump).symm.trans hsome
  · obtain ⟨hzero, target', hmem, hsome'⟩ := hunaimed hi
    obtain rfl := Option.some.inj (hsome.symm.trans hsome')
    refine ⟨harg.elim (·.trans hzero) (fun h => h), op, _, target, hop, hdir, htarget, ?_⟩
    rw [append_nil]
    exact Layout.heads_of_split hsplit (by rwa [map_fst_laid, hlinks.order]) hle hlt
  all_goals simp [hop, Operation.isJump, Opcode.direction?] at hjump

/-- Offsets settle in every layout in which jumps have just got their directions. -/
theorem settles_of_directJumps (hnodup : g.order.Nodup) (hg : g.Unaimed)
    (hh : g.directJumps = .ok h) : h.laid.Settles := by
  have hnodup' : (h.laid.map (·.1)).Nodup := by
    rwa [map_fst_laid, (directFrom_spec hnodup hh).1.order]
  refine Layout.Rising.settles ⟨hnodup', fun k j hj hjump =>
    (heads_of_directJumps hnodup hg hh hj hjump).2, fun r hr => ?_⟩
  obtain ⟨hsame, -⟩ := Layout.aimOnce_spec hnodup' hr
  refine Layout.noShorter_of_getElem? hsame.instrs.length_eq fun k i j hi hj => ?_
  rcases (rel_of_getElem? hsame.instrs hi hj).2 with heq | hjump
  · exact Nat.le_of_eq (by rw [heq])
  · rw [(heads_of_directJumps hnodup hg hh hi hjump).1]
    exact unitCount_mono (Nat.zero_le _)

/-- A loop whose body is so long that both of its jumps outgrow one unit. -/
def wideLoop : Graph where
  blocks := #[
    { instrs := [{ op := .real .loadName }, { op := .pseudo .popJumpIfFalse, target := some 2 }],
      next := some 1 },
    { instrs := replicate 70 { op := .real .loadConst, arg := 0x1000000 } ++
        [{ op := .real .jumpIfTrueOrPop, target := some 0 }],
      next := some 2 },
    { instrs := [{ op := .real .returnConst }] }]

theorem settles_of_directJumps_wideLoop : wideLoop.order.Nodup ∧ wideLoop.Unaimed ∧
    ∃ h, wideLoop.directJumps = .ok h ∧ h.laid.Settles := by
  have hnodup : wideLoop.order.Nodup := by decide +kernel
  have hunaimed : wideLoop.Unaimed := by
    unfold Unaimed
    decide +kernel
  obtain ⟨h, hh⟩ := exists_of_isOk (show wideLoop.directJumps.isOk by decide +kernel)
  exact ⟨hnodup, hunaimed, h, hh, settles_of_directJumps hnodup hunaimed hh⟩

end Graph

end Bytecode
