import Bytecode.Proofs.Assembly.Arrangement
import Bytecode.Proofs.Table.Handlers

/-!
# Handlers of code units

The handler table says of every code unit what the layout says of its instruction: which handler
takes over, at which depth, and whether it finds the position of the fault.
-/

namespace Bytecode

open List Result Layout Option Except

variable {closed : List HandlerRange} {unit : Nat}

def HandlerRange.covers (r : HandlerRange) (unit : Nat) : Bool :=
  r.start ≤ unit && unit < r.stop

namespace HandlerSites

variable {s : HandlerSites} {opened : Option (BlockId × Nat)} {offset : Nat} {is : List Instr}
  {rs : List HandlerRange} {handler : Option BlockId}

structure Leads (s : HandlerSites) (r : HandlerRange) (handler : BlockId) : Prop where
  placed : (s.offsets.lookup handler).isSome
  range : s.range handler r.start r.stop = .ok r

/-- A unit with a handler is in one range, which leads to it; a unit without one is in none. -/
def Guards (s : HandlerSites) (rs : List HandlerRange) (unit : Nat) : Option BlockId → Prop
  | some handler => ∃ r, rs.filter (·.covers unit) = [r] ∧ s.Leads r handler
  | none => rs.filter (·.covers unit) = []

/-- The place from which on ranges are still to be written. -/
def lowest (opened : Option (BlockId × Nat)) (offset : Nat) : Nat :=
  (opened.map (·.2)).getD offset

/-- A range that is open started before, and its handler is in the layout. -/
def Opened (s : HandlerSites) (opened : Option (BlockId × Nat)) (offset : Nat) : Prop :=
  ∀ handler start, opened = some (handler, start) →
    start < offset ∧ (s.offsets.lookup handler).isSome

/-- Ranges that are not empty, lie one after the other, and say which units of an open range and of
the instructions after it have which handler. -/
structure RangesFor (s : HandlerSites) (opened : Option (BlockId × Nat)) (offset : Nat)
    (is : List Instr) (rs : List HandlerRange) : Prop where
  lower : ∀ r ∈ rs, lowest opened offset ≤ r.start ∧ r.start < r.stop
  leads : ∀ r ∈ rs, ∃ handler, s.Leads r handler
  sorted : rs.Pairwise fun r r' => r.stop ≤ r'.start
  before : ∀ unit, lowest opened offset ≤ unit → unit < offset → s.Guards rs unit (opened.map (·.1))
  within : ∀ k i unit, is[k]? = some i → offset + unitsOf (is.take k) ≤ unit →
    unit < offset + unitsOf (is.take (k + 1)) → s.Guards rs unit i.handler

theorem filter_covers_eq_nil (h : ∀ r ∈ rs, unit < r.start ∨ r.stop ≤ unit) :
    rs.filter (·.covers unit) = [] := by
  rw [filter_eq_nil_iff]
  intro r hr
  have := h r hr
  simp only [HandlerRange.covers, Bool.and_eq_true, decide_eq_true_eq]
  omega

theorem guards_append_left (hclosed : ∀ r ∈ closed, r.stop ≤ unit) (h : s.Guards rs unit handler) :
    s.Guards (closed ++ rs) unit handler := by
  cases handler <;> simpa only [Guards, filter_append,
    filter_covers_eq_nil fun r hr => Or.inr (hclosed r hr), nil_append] using h

theorem guards_append_right (hrs : ∀ r ∈ rs, unit < r.start) (h : s.Guards closed unit handler) :
    s.Guards (closed ++ rs) unit handler := by
  cases handler <;> simpa only [Guards, filter_append,
    filter_covers_eq_nil fun r hr => Or.inl (hrs r hr), append_nil] using h

theorem range_spec {handler : BlockId} {start stop : Nat} {r : HandlerRange}
    (h : s.range handler start stop = .ok r) : r.start = start ∧ r.stop = stop ∧
      r.target = offsetOf s.offsets handler ∧
      r.keepsPosition = (s.graph.block handler).keepsPosition ∧
      ∃ depth, (s.depths[handler]?).join = some depth ∧
        (r.depth : Int) = depth - 1 - if r.keepsPosition then 1 else 0 := by
  obtain ⟨depth, hdepth, h⟩ := bind_eq_ok.mp h
  rw [Result.require_eq_ok] at hdepth
  dsimp only at h
  by_cases hneg : depth - 1 - (if (s.graph.block handler).keepsPosition then 1 else 0) < 0
  · rw [if_pos hneg] at h
    simp at h
  · rw [if_neg hneg] at h
    obtain rfl := ok.inj h
    exact ⟨rfl, rfl, rfl, rfl, depth, hdepth, Int.toNat_of_nonneg (by omega)⟩

theorem close_spec (hopened : s.Opened opened offset) (h : s.close opened offset = .ok rs) :
    RangesFor s opened offset [] rs ∧ ∀ r ∈ rs, r.stop = offset := by
  rcases opened with _ | ⟨handler, start⟩
  · obtain rfl := ok.inj h
    refine ⟨⟨by simp, by simp, .nil, ?_, by simp⟩, by simp⟩
    intro unit hlow hunit
    simp only [lowest, map_none, getD_none] at hlow
    omega
  · obtain ⟨r, hr, h⟩ := bind_eq_ok.mp h
    obtain rfl := ok.inj h
    obtain ⟨hlt, hplaced⟩ := hopened handler start rfl
    obtain ⟨rfl, rfl, -⟩ := range_spec hr
    refine ⟨⟨?_, ?_, pairwise_singleton .., ?_, by simp⟩, by simp⟩
    · intro r' hr'
      obtain rfl := mem_singleton.mp hr'
      exact ⟨Nat.le_refl _, hlt⟩
    · intro r' hr'
      obtain rfl := mem_singleton.mp hr'
      exact ⟨handler, hplaced, hr⟩
    · intro unit hlow hunit
      refine ⟨r, ?_, hplaced, hr⟩
      simp only [lowest, map_some, getD_some] at hlow
      simp [HandlerRange.covers, hlow, hunit]

/-- An instruction with the handler of the range that is open. -/
theorem RangesFor.extend {i : Instr} (hi : opened.map (·.1) = i.handler)
    (h : RangesFor s opened (offset + unitCount i.arg) is rs) (hopened : s.Opened opened offset) :
    RangesFor s opened offset (i :: is) rs := by
  have hpos := unitCount_pos i.arg
  have hlowest : lowest opened offset ≤ lowest opened (offset + unitCount i.arg) := by
    cases opened <;> simp [lowest]
  refine ⟨?_, h.leads, h.sorted, ?_, ?_⟩
  · intro r hr
    have := h.lower r hr
    omega
  · intro unit hlow hunit
    refine h.before unit ?_ (by omega)
    rcases opened with _ | ⟨handler, start⟩
    · simp only [lowest, map_none, getD_none] at hlow
      omega
    · exact hlow
  · rintro (_ | k) j unit hj hlow hunit
    · obtain rfl : i = j := by simpa using hj
      simp only [take_zero, take_succ_cons, unitsOf, Nat.add_zero] at hlow hunit
      rcases opened with _ | ⟨handler, start⟩
      · rw [← hi]
        refine filter_covers_eq_nil fun r hr => Or.inl ?_
        have := (h.lower r hr).1
        simp only [lowest, map_none, getD_none] at this
        omega
      · rw [← hi]
        refine h.before unit ?_ hunit
        have := (hopened handler start rfl).1
        simp only [lowest, map_some, getD_some]
        omega
    · simp only [take_succ_cons, unitsOf] at hlow hunit
      exact h.within k j unit (by simpa using hj) (by omega) (by omega)

/-- An instruction with a handler of its own: the open range is closed, and the next one, if the
instruction has a handler, starts with it. -/
theorem RangesFor.renew {i : Instr} {opened' : Option (BlockId × Nat)}
    (hopened : s.Opened opened offset) (hclosed : s.close opened offset = .ok closed)
    (hopened' : opened' = i.handler.map fun handler => (handler, offset))
    (h : RangesFor s opened' (offset + unitCount i.arg) is rs) :
    RangesFor s opened offset (i :: is) (closed ++ rs) := by
  obtain ⟨hclose, hstop⟩ := close_spec hopened hclosed
  have hpos := unitCount_pos i.arg
  have hfrom : ∀ r ∈ rs, offset ≤ r.start := by
    intro r hr
    have := (h.lower r hr).1
    cases hh : i.handler <;> simp [hopened', hh, lowest] at this <;> omega
  have hlowest : lowest opened offset ≤ offset := by
    rcases opened with _ | ⟨handler, start⟩
    · exact Nat.le_refl _
    · exact Nat.le_of_lt (hopened handler start rfl).1
  have hold : ∀ {unit}, offset ≤ unit → ∀ r ∈ closed, r.stop ≤ unit := by
    intro unit hunit r hr
    have := hstop r hr
    omega
  refine ⟨?_, ?_, ?_, ?_, ?_⟩
  · intro r hr
    rcases mem_append.mp hr with hr | hr
    · exact hclose.lower r hr
    · exact ⟨Nat.le_trans hlowest (hfrom r hr), (h.lower r hr).2⟩
  · intro r hr
    rcases mem_append.mp hr with hr | hr
    · exact hclose.leads r hr
    · exact h.leads r hr
  · refine pairwise_append.mpr ⟨hclose.sorted, h.sorted, fun r hr r' hr' => ?_⟩
    rw [hstop r hr]
    exact hfrom r' hr'
  · intro unit hlow hunit
    refine guards_append_right (fun r hr => ?_) (hclose.before unit hlow hunit)
    have := hfrom r hr
    omega
  · rintro (_ | k) j unit hj hlow hunit
    · obtain rfl : i = j := by simpa using hj
      simp only [take_zero, take_succ_cons, unitsOf, Nat.add_zero] at hlow hunit
      refine guards_append_left (hold hlow) ?_
      cases hh : i.handler with
      | none =>
        refine filter_covers_eq_nil fun r hr => Or.inl ?_
        have := (h.lower r hr).1
        simp only [hopened', hh, lowest, map_none, getD_none] at this
        omega
      | some handler =>
        have := h.before unit (by simpa [hopened', hh, lowest] using hlow) hunit
        simpa [hopened', hh] using this
    · simp only [take_succ_cons, unitsOf] at hlow hunit
      exact guards_append_left (hold (by omega))
        (h.within k j unit (by simpa using hj) (by omega) (by omega))

theorem rangesFrom_spec (hopened : s.Opened opened offset)
    (h : s.rangesFrom opened offset is = .ok rs) : RangesFor s opened offset is rs := by
  induction is generalizing opened offset rs with
  | nil => exact (close_spec hopened h).1
  | cons i is ih =>
    have hpos := unitCount_pos i.arg
    rw [rangesFrom] at h
    split_ifs at h with hi
    · refine RangesFor.extend hi (ih (fun handler start ho => ?_) h) hopened
      obtain ⟨hlt, hplaced⟩ := hopened handler start ho
      exact ⟨by omega, hplaced⟩
    · obtain ⟨closed, hclosed, h⟩ := bind_eq_ok.mp h
      -- the range that the instruction starts, and the ranges from there on
      obtain ⟨opened', rest, hopened', hnext, hrest, rfl⟩ : ∃ opened' rest,
          opened' = i.handler.map (fun handler => (handler, offset)) ∧
          s.Opened opened' (offset + unitCount i.arg) ∧
          s.rangesFrom opened' (offset + unitCount i.arg) is = .ok rest ∧ closed ++ rest = rs := by
        cases hh : i.handler with
        | none =>
          simp only [hh, ok_bind] at h
          obtain ⟨rest, hrest, h⟩ := bind_eq_ok.mp h
          exact ⟨none, rest, rfl, by simp [Opened], hrest, ok.inj h⟩
        | some handler =>
          simp only [hh] at h
          split_ifs at h with hplaced
          · rw [ok_bind] at h
            obtain ⟨rest, hrest, h⟩ := bind_eq_ok.mp h
            refine ⟨some (handler, offset), rest, rfl, fun handler' start he => ?_, hrest, ok.inj h⟩
            obtain ⟨rfl, rfl⟩ : handler = handler' ∧ offset = start := by simpa using he
            exact ⟨by omega, hplaced⟩
          · cases h
      exact RangesFor.renew hopened hclosed hopened' (ih hnext hrest)

end HandlerSites

namespace Arrangement

variable {a : Arrangement} {g : Graph} {f : Frame} {constants : List Constant} {c : CodeObject}

/-- A range that leads to a handler has its place, its depth and its flag. -/
theorem leads_spec {r : HandlerRange} {handler : BlockId} (h : a.sites.Leads r handler) :
    handler ∈ a.layout.map (·.1) ∧ r.target = unitsOf (a.layout.before handler) ∧
      r.keepsPosition = (a.graph.block handler).keepsPosition ∧
      ∃ depth, (a.stack.depths[handler]?).join = some depth ∧
        (r.depth : Int) = depth - 1 - if r.keepsPosition then 1 else 0 := by
  obtain ⟨-, -, htarget, hkeeps, hdepth⟩ := HandlerSites.range_spec h.range
  have hmem : handler ∈ a.layout.map (·.1) := by
    by_contra hnot
    have hplaced := h.placed
    simp [sites, lookup_offsetsFrom, hnot] at hplaced
  exact ⟨hmem, htarget.trans (offsetOf_offsetsFrom hmem), hkeeps, hdepth⟩

/-- The handler table of an arrangement reads back as what its layout says of every code unit. -/
theorem read_handlerTable (ha : arrange g f = .ok a) (hc : a.toCode constants f = .ok c) :
    ∃ ranges, HandlerTable.read c.handlerTable = .ok ranges ∧
      (∀ k i unit, a.layout.instrs[k]? = some i → unitsOf (a.layout.instrs.take k) ≤ unit →
        unit < unitsOf (a.layout.instrs.take (k + 1)) →
          (∀ handler, i.handler = some handler → ∃ r, ranges.filter (·.covers unit) = [r] ∧
            (∃ (pre : Layout) (blk : List Instr) (post : Layout),
              a.layout = pre ++ (handler, blk) :: post ∧ r.target = unitsOf pre.instrs) ∧
            r.keepsPosition = (g.block handler).keepsPosition ∧
            ∃ depth, (a.stack.depths[handler]?).join = some depth ∧
              (r.depth : Int) = depth - 1 - if r.keepsPosition then 1 else 0) ∧
          (i.handler = none → ranges.filter (·.covers unit) = [])) ∧
      (∀ r ∈ ranges, r.start < r.stop) ∧ ranges.Pairwise (fun r r' => r.stop ≤ r'.start) ∧
      ∃ chunks, c.handlerTable = List.flatten chunks ∧ List.Forall₂ (fun chunk r =>
        HandlerTable.readRange chunk = .ok (r, []) ∧
        ∃ b bs, chunk = b :: bs ∧ 128 ≤ b ∧ ∀ x ∈ bs, x < 128) chunks ranges := by
  obtain ⟨-, ⟨ranges, hranges, htable⟩, -⟩ := toCode_spec hc
  have hspec := HandlerSites.rangesFrom_spec (by simp [HandlerSites.Opened]) hranges
  obtain ⟨chunks, hchunks, hentries⟩ := HandlerTable.entries_write htable
  refine ⟨ranges, HandlerTable.read_write htable, ?_, fun r hr => (hspec.lower r hr).2,
    hspec.sorted, chunks, hchunks, ?_⟩
  · intro k i unit hi hlow hunit
    have hguards := hspec.within k i unit hi (by omega) (by omega)
    refine ⟨fun handler hh => ?_, fun hh => ?_⟩
    · rw [hh] at hguards
      obtain ⟨r, hr, hleads⟩ := hguards
      obtain ⟨hmem, htarget, hkeeps, hdepth⟩ := leads_spec hleads
      rw [SameFrames.arrange ha handler] at hkeeps
      obtain ⟨pre, blk, post, hsplit, hpre⟩ := exists_eq_append_of_mem hmem
      exact ⟨r, hr, ⟨pre, blk, post, hsplit, by rw [htarget, hpre]⟩, hkeeps, hdepth⟩
    · rw [hh] at hguards
      exact hguards
  · refine hentries.imp fun chunk r hentry => ⟨?_, hentry.marked⟩
    simpa using hentry.reads []

theorem read_handlerTable_guardedLoop :
    ∃ a c ranges, arrange Graph.guardedLoop {} = .ok a ∧ a.toCode [.none] {} = .ok c ∧
      HandlerTable.read c.handlerTable = .ok ranges ∧ ∀ r ∈ ranges, r.start < r.stop := by
  obtain ⟨c, hc⟩ := Graph.exists_assemble_guardedLoop
  obtain ⟨a, ha, hc⟩ := exists_of_assemble hc
  obtain ⟨ranges, hread, -, hlt, -⟩ := read_handlerTable ha hc
  exact ⟨a, c, ranges, ha, hc, hread, hlt⟩

end Arrangement

end Bytecode
