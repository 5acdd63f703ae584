import Bytecode.Table.Locations
import Bytecode.Proofs.Result
import Mathlib

/-!
# Location tables read back

Reading a location table gives the locations that were written, one for each code unit. What follows
an entry is read from the line that the entry leaves; so the runs of a table are put together by
`Gives.trans`, and only `Gives.entry` looks at the bytes. A location that cannot be written is
refused before its first byte.
-/

namespace Bytecode.LocationTable

open List Result UInt8

variable {loc : Location} {locs : List Location} {units : Nat} {firstLine line : Int} {e : Entry}
  {w : Writer} {runs : List (Location × Nat)} {bytes : List UInt8} {lengths : List Nat}

/-! ## Numbers -/

/-- Reading groups takes them all and gives the number they have room for. -/
theorem readGroups_groups (fuel n : Nat) (rest : List UInt8) :
    readGroups (groups fuel n ++ rest) = .ok (n % 64 ^ (fuel + 1), rest) := by
  induction fuel generalizing n with
  | zero =>
    have hbyte : (ofNat (n % 64)).toNat = n % 64 := by
      rw [toNat_ofNat']
      omega
    rw [groups, cons_append, nil_append, readGroups, hbyte, if_neg (by omega),
      Nat.mod_mod, Nat.pow_one]
  | succ fuel ih =>
    rw [groups]
    split_ifs with hn
    · have hbyte : (ofNat n).toNat = n := by
        rw [toNat_ofNat']
        omega
      have hroom : 64 ≤ 64 ^ (fuel + 1 + 1) := Nat.le_self_pow (by omega) 64
      rw [cons_append, nil_append, readGroups, hbyte, if_neg (by omega),
        Nat.mod_eq_of_lt hn, Nat.mod_eq_of_lt (Nat.lt_of_lt_of_le hn hroom)]
    · have hbyte : (ofNat (64 + n % 64)).toNat = 64 + n % 64 := by
        rw [toNat_ofNat']
        omega
      have hlow : (64 + n % 64) % 64 = n % 64 := by omega
      rw [cons_append, readGroups, hbyte, if_pos (by omega), ih, ok_bind, hlow]
      simp only
      rw [Nat.pow_succ' (n := fuel + 1), Nat.mod_mul]

theorem readNat_writeNat (n : Nat) (rest : List UInt8) :
    readNat (writeNat n ++ rest) = .ok (n % 0x100000000, rest) := by
  rw [readNat, writeNat, readGroups_groups, ok_bind]
  simp only
  rw [Nat.mod_mod_of_dvd _ (by decide : 0x100000000 ∣ 64 ^ (5 + 1)), Nat.mod_mod]

/-- The bytes of an integer are read whole, and give it if its size leaves room for the sign. -/
theorem readInt_writeInt (n : Int) :
    ∃ m, (n.natAbs < 0x80000000 → m = n) ∧
      ∀ rest, readInt (writeInt n ++ rest) = .ok (m, rest) := by
  refine ⟨_, ?_, fun rest => by rw [readInt, writeInt, readNat_writeNat, ok_bind]⟩
  intro hn
  split_ifs <;> omega

theorem lt_of_mem_groups {fuel n : Nat} {b : UInt8} (hb : b ∈ groups fuel n) : b < 128 := by
  rw [lt_iff_toNat_lt]
  show b.toNat < 128
  induction fuel generalizing n with
  | zero =>
    obtain rfl := mem_singleton.mp hb
    rw [toNat_ofNat']
    omega
  | succ fuel ih =>
    rw [groups] at hb
    split_ifs at hb with hn
    · obtain rfl := mem_singleton.mp hb
      rw [toNat_ofNat']
      omega
    · rcases mem_cons.mp hb with rfl | hb
      · rw [toNat_ofNat']
        omega
      · exact ih hb

/-! ## Entries -/

namespace Entry

/-- The numbers of an entry have room in its form. -/
def Fits : Entry → Prop
  | none => True
  | lineOnly _ => True
  | short col width => col < 80 ∧ width < 16
  | oneLine step col endCol => step < 3 ∧ col < 128 ∧ endCol < 128
  | long .. => True

/-- The numbers of an entry are 32-bit words, with room for a sign. -/
def IsWord : Entry → Prop
  | none => True
  | lineOnly step => step.natAbs < 0x80000000
  | short .. => True
  | oneLine .. => True
  | long step lines col endCol =>
    step.natAbs < 0x80000000 ∧ lines < 0x80000000 ∧ col < 0x80000000 ∧ endCol < 0x80000000

theorem code_lt (h : e.Fits) : e.code < 16 := by
  cases e <;> simp only [Fits] at h <;> simp only [code] <;> omega

/-- The bytes after the first are read whole, and give the entry if its numbers are words. -/
theorem readEntry_payload (h : e.Fits) :
    ∃ e', (e.IsWord → e' = e) ∧ ∀ rest, readEntry e.code (e.payload ++ rest) = .ok (e', rest) := by
  cases e with
  | none => exact ⟨none, fun _ => rfl, fun rest => rfl⟩
  | lineOnly step =>
    obtain ⟨m, hm, hread⟩ := readInt_writeInt step
    refine ⟨lineOnly m, fun hw => by rw [hm hw], fun rest => ?_⟩
    simp [readEntry, code, payload, hread, ok_bind]
  | short col width =>
    obtain ⟨hcol, hwidth⟩ := h
    have hbyte : (ofNat (col % 8 * 16 + width)).toNat = col % 8 * 16 + width := by
      rw [toNat_ofNat']
      omega
    refine ⟨short (col / 8 * 8 + (col % 8 * 16 + width) / 16) ((col % 8 * 16 + width) % 16),
      fun _ => ?_, fun rest => ?_⟩
    · congr 1 <;> omega
    · rw [readEntry, code, payload, if_neg (by omega), if_neg (by omega), if_neg (by omega),
        if_neg (by omega), cons_append, nil_append, readByte, ok_bind, hbyte]
  | oneLine step col endCol =>
    obtain ⟨hstep, hcol, hend⟩ := h
    have hbyte : ∀ n : Nat, n < 128 → (ofNat n).toNat = n := by
      intro n hn
      rw [toNat_ofNat']
      omega
    refine ⟨oneLine step col endCol, fun _ => rfl, fun rest => ?_⟩
    rw [readEntry, code, payload, if_neg (by omega), if_neg (by omega), if_neg (by omega),
      if_pos (by omega), Nat.add_sub_cancel_left]
    simp only [cons_append, nil_append, readByte, ok_bind, hbyte col hcol, hbyte endCol hend]
  | long step lines col endCol =>
    obtain ⟨m, hm, hread⟩ := readInt_writeInt step
    refine ⟨long m (lines % 0x100000000) (col % 0x100000000) (endCol % 0x100000000),
      ?_, fun rest => ?_⟩
    · rintro ⟨hstep, hlines, hcol, hend⟩
      rw [hm hstep, Nat.mod_eq_of_lt (by omega), Nat.mod_eq_of_lt (by omega),
        Nat.mod_eq_of_lt (by omega)]
    · simp [readEntry, code, payload, hread, readNat_writeNat, ok_bind, append_assoc]

theorem lt_of_mem_payload (h : e.Fits) {b : UInt8} (hb : b ∈ e.payload) : b < 128 := by
  cases e with
  | none => cases hb
  | lineOnly step => exact lt_of_mem_groups hb
  | short col width =>
    obtain ⟨hcol, hwidth⟩ := h
    obtain rfl := mem_singleton.mp hb
    rw [lt_iff_toNat_lt, toNat_ofNat']
    show (col % 8 * 16 + width) % 256 < 128
    omega
  | oneLine step col endCol =>
    obtain ⟨-, hcol, hend⟩ := h
    rw [lt_iff_toNat_lt]
    show b.toNat < 128
    simp only [payload, mem_cons, not_mem_nil, or_false] at hb
    rcases hb with rfl | rfl <;> rw [toNat_ofNat'] <;> omega
  | long step lines col endCol =>
    simp only [payload, mem_append] at hb
    rcases hb with ((hb | hb) | hb) | hb <;> exact lt_of_mem_groups hb

theorem toNat_first (h : e.Fits) (hpos : 0 < units) (hmax : units ≤ maxUnits) :
    (ofNat (128 + e.code * 8 + (units - 1))).toNat = 128 + e.code * 8 + (units - 1) := by
  have hcode := code_lt h
  rw [toNat_ofNat']
  simp only [maxUnits] at hmax
  omega

end Entry

/-! ## Choosing the form of an entry -/

/-- The location that is read where this one was written. -/
def normal (loc : Location) : Location :=
  if loc.line < 0 then .none else ⟨loc.line, max loc.col (-1), loc.endLine, max loc.endCol (-1)⟩

/-- The line that the step of the next entry starts from. -/
def lineAfter (line : Int) (loc : Location) : Int :=
  if loc.line < 0 then line else loc.line

/-- A location that a table can hold: one without a line, or one whose lines and columns are
32-bit words in order. The columns are written plus one. -/
def Writable (loc : Location) : Prop :=
  0 ≤ loc.line → loc.line ≤ loc.endLine ∧ loc.endLine < 0x80000000 ∧ loc.col < 0x7fffffff ∧
    loc.endCol < 0x7fffffff

instance : DecidablePred Writable := fun _ => inferInstanceAs (Decidable (_ → _))

theorem fits_ofLocation (h : Entry.ofLocation line loc = .ok e) : e.Fits := by
  simp only [Entry.ofLocation] at h
  split_ifs at h <;> first | (obtain rfl := Except.ok.inj h; simp only [Entry.Fits]) | cases h
  all_goals omega

/-- A signed 32-bit word. -/
def IsInt32 (n : Int) : Prop :=
  -0x80000000 ≤ n ∧ n < 0x80000000

instance : DecidablePred IsInt32 := fun _ => inferInstanceAs (Decidable (_ ∧ _))

theorem wrap_eq_self {n : Int} (hlower : -0x80000000 ≤ n) (hupper : n < 0x80000000) :
    wrap n = n := by
  apply Int.bmod_eq_of_le <;> omega

theorem ofLocation_backward (hline : 0 ≤ loc.line) (hback : loc.endLine < loc.line)
    (hlines : IsInt32 (loc.endLine - loc.line)) :
    Entry.ofLocation line loc = .fault (.backwardLocation loc.endLine loc.line) := by
  have hneg : ¬loc.line < 0 := by omega
  have hne : loc.endLine ≠ loc.line := by omega
  have hless : loc.endLine - loc.line < 0 := by omega
  simp only [Entry.ofLocation, wrap_eq_self hlines.1 hlines.2, hneg, hne, hless, if_true, if_false,
    and_false, false_and]

/-- The entry for a location that can be written gives its normal form. -/
theorem exists_ofLocation (h : Writable loc)
    (hstep : 0 ≤ loc.line → (loc.line - line).natAbs < 0x80000000) :
    ∃ e, Entry.ofLocation line loc = .ok e ∧ e.IsWord ∧
      e.locate line = (normal loc, lineAfter line loc) := by
  obtain ⟨first, col, last, endCol⟩ := loc
  simp only [Writable] at h hstep
  simp only [Entry.ofLocation, normal, lineAfter]
  by_cases hneg : first < 0
  · simp only [if_pos hneg]
    exact ⟨_, rfl, trivial, rfl⟩
  have hline : 0 ≤ first := by omega
  obtain ⟨hordered, hlast, hcol, hend⟩ := h hline
  have hword := hstep hline
  rw [wrap_eq_self (n := first - line) (by omega) (by omega),
    wrap_eq_self (n := last - first) (by omega) (by omega)]
  simp only [if_neg hneg]
  split_ifs with honly hshort hone hback
  · refine ⟨_, rfl, hword, ?_⟩
    simp only [Entry.locate, Location.ofLine, Prod.mk.injEq, Location.mk.injEq]
    rw [wrap_eq_self (by omega) (by omega)]
    omega
  · refine ⟨_, rfl, trivial, ?_⟩
    simp only [Entry.locate, Location.span, Prod.mk.injEq, Location.mk.injEq]
    omega
  · refine ⟨_, rfl, trivial, ?_⟩
    simp only [Entry.locate, Location.span, Prod.mk.injEq, Location.mk.injEq]
    rw [wrap_eq_self (by omega) (by omega)]
    omega
  · omega
  · refine ⟨_, rfl, ⟨hword, by omega, by omega, by omega⟩, ?_⟩
    have hfirst : line + (first - line) = first := by omega
    simp only [Entry.locate, Prod.mk.injEq, Location.mk.injEq]
    rw [hfirst, wrap_eq_self (n := first) (by omega) (by omega), wrap_eq_self (by omega) (by omega),
      wrap_eq_self (by omega) (by omega), wrap_eq_self (by omega) (by omega)]
    omega

/-! ## Reading a table -/

/-- The bytes are entries that stand for these locations, and leave the reader on this line. -/
def Gives (line : Int) (bytes : List UInt8) (locs : List Location) (line' : Int) : Prop :=
  ∀ rest more, (∀ pos fuel, rest.length ≤ fuel → readFrom line' pos fuel rest = .ok more) →
    ∀ pos fuel, (bytes ++ rest).length ≤ fuel →
      readFrom line pos fuel (bytes ++ rest) = .ok (locs ++ more)

theorem Gives.nil (line : Int) : Gives line [] [] line := by
  intro rest more hrest
  exact hrest

theorem Gives.trans {line' line'' : Int} {bytes' : List UInt8} {locs' : List Location}
    (h : Gives line bytes locs line') (h' : Gives line' bytes' locs' line'') :
    Gives line (bytes ++ bytes') (locs ++ locs') line'' := by
  intro rest more hrest
  rw [append_assoc, append_assoc]
  exact h _ _ (h' rest more hrest)

theorem Gives.read {line' : Int} (h : Gives line bytes locs line') :
    read line bytes = .ok locs := by
  have hend : ∀ pos fuel, ([] : List UInt8).length ≤ fuel →
      readFrom line' pos fuel [] = .ok [] := by
    intro pos fuel _
    cases fuel <;> rfl
  have hread := h [] [] hend 0 bytes.length (by simp)
  rwa [append_nil, append_nil] at hread

/-- One entry is read as the location of all its units. -/
theorem Gives.entry (hfits : e.Fits) (hword : e.IsWord) (hpos : 0 < units) (hmax : units ≤ maxUnits)
    (line : Int) :
    Gives line (e.bytes units) (List.replicate units (e.locate line).1) (e.locate line).2 := by
  intro rest more hrest pos fuel hfuel
  obtain ⟨e', he', hread⟩ := Entry.readEntry_payload hfits
  obtain rfl := he' hword
  have hcode := Entry.code_lt hfits
  simp only [maxUnits] at hmax
  simp only [Entry.bytes, cons_append, length_cons, length_append] at hfuel ⊢
  obtain ⟨fuel, rfl⟩ : ∃ m, fuel = m + 1 := ⟨fuel - 1, by omega⟩
  have hfirst := Entry.toNat_first hfits hpos hmax
  have hmark : ¬ofNat (128 + e'.code * 8 + (units - 1)) < 128 := by
    rw [lt_iff_toNat_lt, hfirst]
    show ¬128 + e'.code * 8 + (units - 1) < 128
    omega
  have hform : (128 + e'.code * 8 + (units - 1)) / 8 % 16 = e'.code := by omega
  have hunits : (128 + e'.code * 8 + (units - 1)) % 8 + 1 = units := by omega
  rw [readFrom, if_neg hmark, hfirst, hform, hunits, hread, ok_bind]
  simp only
  rw [hrest _ _ (by omega), ok_bind]

/-! ## Writing a table -/

namespace Writer

theorem entry_backward (hline : 0 ≤ loc.line) (hback : loc.endLine < loc.line)
    (hlines : IsInt32 (loc.endLine - loc.line)) (w : Writer) (units : Nat) :
    w.entry loc units = .fault (.backwardLocation loc.endLine loc.line) := by
  rw [entry, ofLocation_backward hline hback hlines]
  rfl

theorem entry_gives (hw : Gives firstLine w.bytes.toList locs w.line) (h : Writable loc)
    (hstep : 0 ≤ loc.line → (loc.line - w.line).natAbs < 0x80000000) (hpos : 0 < units)
    (hmax : units ≤ maxUnits) :
    ∃ w', w.entry loc units = .ok w' ∧ w'.line = lineAfter w.line loc ∧
      Gives firstLine w'.bytes.toList (locs ++ List.replicate units (normal loc)) w'.line := by
  obtain ⟨e, he, hword, hlocate⟩ := exists_ofLocation h hstep
  have hgives := Gives.entry (fits_ofLocation he) hword hpos hmax w.line
  rw [hlocate] at hgives
  refine ⟨⟨w.bytes ++ e.bytes units, lineAfter w.line loc⟩, ?_, rfl, ?_⟩
  · rw [entry, he, ok_bind, hlocate]
  · rw [Array.toList_appendList]
    exact hw.trans hgives

/-- After one entry at a location the line stands still. -/
theorem step_lineAfter (hline : 0 ≤ loc.line) :
    (loc.line - lineAfter line loc).natAbs < 0x80000000 := by
  rw [lineAfter, if_neg (by omega)]
  omega

theorem lineAfter_lineAfter (line : Int) (loc : Location) :
    lineAfter (lineAfter line loc) loc = lineAfter line loc := by
  unfold lineAfter
  split_ifs <;> rfl

/-- Entries at one location. Only the first can have a step, so it leaves the line of them all. -/
theorem entries_gives (h : Writable loc) (hlengths : ∀ n ∈ lengths, 0 < n ∧ n ≤ maxUnits)
    (hw : Gives firstLine w.bytes.toList locs w.line)
    (hstep : 0 ≤ loc.line → (loc.line - w.line).natAbs < 0x80000000) :
    ∃ w', w.entries loc lengths = (w', .ok ()) ∧
      w'.line = (if lengths = [] then w.line else lineAfter w.line loc) ∧
      Gives firstLine w'.bytes.toList (locs ++ List.replicate lengths.sum (normal loc))
        w'.line := by
  induction lengths generalizing w locs with
  | nil => exact ⟨w, rfl, rfl, by simpa using hw⟩
  | cons n lengths ih =>
    obtain ⟨hn, hlengths⟩ := forall_mem_cons.mp hlengths
    obtain ⟨w₁, hentry, hline, hgives⟩ := entry_gives hw h hstep hn.1 hn.2
    have hstep₁ : 0 ≤ loc.line → (loc.line - w₁.line).natAbs < 0x80000000 := by
      intro hloc
      rw [hline]
      exact step_lineAfter hloc
    obtain ⟨w₂, hentries, hline₂, hgives₂⟩ := ih hlengths hgives hstep₁
    refine ⟨w₂, ?_, ?_, ?_⟩
    · rw [entries, hentry]
      exact hentries
    · rw [hline₂, hline, if_neg (cons_ne_nil _ _), lineAfter_lineAfter, ite_self]
    · rwa [append_assoc, ← replicate_add, ← sum_cons] at hgives₂

end Writer

/-- The lengths of the entries of a run, together the run's. -/
theorem chunks_spec (units : Nat) :
    (∀ n ∈ chunks units, 0 < n ∧ n ≤ maxUnits) ∧ (chunks units).sum = units ∧
      (chunks units = [] ↔ units = 0) := by
  by_cases h : units = 0
  · subst h
    decide
  · have hlast : (units - 1) % maxUnits + 1 ≤ maxUnits := Nat.mod_lt _ (by decide)
    simp only [chunks, if_neg h]
    refine ⟨?_, ?_, ?_⟩
    · intro n hn
      rcases mem_append.mp hn with hn | hn
      · obtain rfl := eq_of_mem_replicate hn
        decide
      · obtain rfl := mem_singleton.mp hn
        exact ⟨Nat.succ_pos _, hlast⟩
    · rw [sum_append, sum_replicate_nat, sum_singleton]
      have := Nat.div_add_mod' (units - 1) maxUnits
      omega
    · simp [h]

/-- The steps of the line from entry to entry, over the entries that have a line. A run of no
units has no entry. -/
def lineSteps (line : Int) : List (Location × Nat) → List Int
  | [] => []
  | (loc, units) :: rest =>
    if loc.line < 0 ∨ units = 0 then lineSteps line rest
    else (loc.line - line) :: lineSteps loc.line rest

/-- The locations of the code units of runs, as they are read. -/
def unitLocations (runs : List (Location × Nat)) : List Location :=
  runs.flatMap fun run => List.replicate run.2 (normal run.1)

namespace Writer

/-- Writing a run adds bytes that are read as its location, once for each unit. -/
theorem push_gives (hw : Gives firstLine w.bytes.toList locs w.line) (h : Writable loc)
    (hstep : units ≠ 0 → 0 ≤ loc.line → (loc.line - w.line).natAbs < 0x80000000) :
    ∃ w', w.push loc units = (w', .ok ()) ∧
      w'.line = (if loc.line < 0 ∨ units = 0 then w.line else loc.line) ∧
      Gives firstLine w'.bytes.toList (locs ++ List.replicate units (normal loc)) w'.line := by
  by_cases hunits : units = 0
  · subst hunits
    exact ⟨w, rfl, by simp, by simpa using hw⟩
  · obtain ⟨hlengths, hsum, hnil⟩ := chunks_spec units
    obtain ⟨w', hentries, hline, hgives⟩ := entries_gives h hlengths hw (hstep hunits)
    rw [hsum] at hgives
    rw [if_neg (mt hnil.mp hunits)] at hline
    refine ⟨w', hentries, ?_, hgives⟩
    rw [hline, lineAfter]
    simp only [hunits, or_false]

theorem pushAll_gives (hw : Gives firstLine w.bytes.toList locs w.line)
    (hline : w.line < 0x80000000) (hruns : ∀ run ∈ runs, Writable run.1)
    (hsteps : ∀ step ∈ lineSteps w.line runs, IsInt32 step) :
    ∃ w', w.pushAll runs = (w', .ok ()) ∧
      Gives firstLine w'.bytes.toList (locs ++ unitLocations runs) w'.line := by
  induction runs generalizing w locs with
  | nil => exact ⟨w, rfl, by simpa [unitLocations] using hw⟩
  | cons run runs ih =>
    obtain ⟨loc, units⟩ := run
    obtain ⟨hloc, hruns⟩ := forall_mem_cons.mp hruns
    simp only [lineSteps] at hsteps
    -- A step is the least word only where it starts above the greatest.
    have hstep : units ≠ 0 → 0 ≤ loc.line → (loc.line - w.line).natAbs < 0x80000000 := by
      intro hunits hpos
      rw [if_neg (by omega)] at hsteps
      obtain ⟨_, hupper⟩ := hsteps _ (mem_cons_self ..)
      omega
    obtain ⟨w₁, hpush, hline₁, hgives⟩ := push_gives hw hloc hstep
    have hrest : ∀ step ∈ lineSteps w₁.line runs, IsInt32 step := by
      rw [hline₁]
      split_ifs at hsteps ⊢
      · exact hsteps
      · exact fun step hmem => hsteps step (mem_cons_of_mem _ hmem)
    have hbound : w₁.line < 0x80000000 := by
      rw [hline₁]
      split_ifs
      · exact hline
      · obtain ⟨hordered, hlast, -⟩ := hloc (by omega)
        omega
    obtain ⟨w₂, hpushAll, hgives₂⟩ := ih hgives hbound hruns hrest
    refine ⟨w₂, ?_, ?_⟩
    · rw [pushAll, hpush]
      exact hpushAll
    · rwa [append_assoc] at hgives₂

/-- A run that ends before it starts is refused before a byte is written. -/
theorem push_backward (hline : 0 ≤ loc.line) (hback : loc.endLine < loc.line)
    (hlines : IsInt32 (loc.endLine - loc.line)) (w : Writer) (hunits : 0 < units) :
    w.push loc units = (w, .fault (.backwardLocation loc.endLine loc.line)) := by
  obtain ⟨-, -, hnil⟩ := chunks_spec units
  rw [push]
  cases hchunks : chunks units with
  | nil => exact absurd (hnil.mp hchunks) (by omega)
  | cons n rest =>
    rw [entries, entry_backward hline hback hlines]
    rfl

end Writer

/-! ## Where entries start -/

/-- An entry of a table: it is read as one, and of its bytes only the first has the mark. -/
structure IsEntry (first : UInt8) (payload : List UInt8) : Prop where
  marked : 128 ≤ first
  unmarked : ∀ b ∈ payload, b < 128
  reads : ∃ e, ∀ rest, readEntry (first.toNat / 8 % 16) (payload ++ rest) = .ok (e, rest)

def IsTable (table : List UInt8) : Prop :=
  ∃ entries : List (UInt8 × List UInt8),
    table = entries.flatMap (fun entry => entry.1 :: entry.2) ∧
      ∀ entry ∈ entries, IsEntry entry.1 entry.2

theorem IsTable.append {table table' : List UInt8} (h : IsTable table) (h' : IsTable table') :
    IsTable (table ++ table') := by
  obtain ⟨entries, rfl, hall⟩ := h
  obtain ⟨entries', rfl, hall'⟩ := h'
  refine ⟨entries ++ entries', by rw [flatMap_append], ?_⟩
  intro entry hmem
  exact (mem_append.mp hmem).elim (hall entry) (hall' entry)

theorem isTable_bytes (h : e.Fits) (hpos : 0 < units) (hmax : units ≤ maxUnits) :
    IsTable (e.bytes units) := by
  have hcode := Entry.code_lt h
  have hfirst := Entry.toNat_first h hpos hmax
  obtain ⟨e', -, hread⟩ := Entry.readEntry_payload h
  refine ⟨[(ofNat (128 + e.code * 8 + (units - 1)), e.payload)], by simp [Entry.bytes], ?_⟩
  intro entry hmem
  obtain rfl := mem_singleton.mp hmem
  refine ⟨?_, fun b hb => Entry.lt_of_mem_payload h hb, e', fun rest => ?_⟩
  · rw [le_iff_toNat_le, hfirst]
    show 128 ≤ 128 + e.code * 8 + (units - 1)
    omega
  · have hform : (128 + e.code * 8 + (units - 1)) / 8 % 16 = e.code := by
      simp only [maxUnits] at hmax
      omega
    rw [hfirst, hform, hread]

namespace Writer

theorem isTable_entries (hlengths : ∀ n ∈ lengths, 0 < n ∧ n ≤ maxUnits)
    (h : IsTable w.bytes.toList) : IsTable (w.entries loc lengths).1.bytes.toList := by
  induction lengths generalizing w with
  | nil => exact h
  | cons n lengths ih =>
    obtain ⟨hn, hlengths⟩ := forall_mem_cons.mp hlengths
    rw [entries]
    cases hentry : w.entry loc n with
    | error e => exact h
    | ok w' =>
      apply ih hlengths
      obtain ⟨e, he, hw'⟩ := bind_eq_ok.mp hentry
      obtain rfl := Except.ok.inj hw'
      rw [Array.toList_appendList]
      exact h.append (isTable_bytes (fits_ofLocation he) hn.1 hn.2)

/-- The writer after runs of which some may have been refused. -/
def pushEach (w : Writer) (runs : List (Location × Nat)) : Writer :=
  runs.foldl (fun w run => (w.push run.1 run.2).1) w

theorem isTable_pushEach (h : IsTable w.bytes.toList) : IsTable (w.pushEach runs).bytes.toList := by
  induction runs generalizing w with
  | nil => exact h
  | cons run runs ih => exact ih (isTable_entries (chunks_spec run.2).1 h)

/-- A run of no units is not refused, wherever it ends. -/
theorem not_refused_of_backward :
    ¬∀ (w : Writer) (loc : Location) (units : Nat), 0 ≤ loc.line → loc.endLine < loc.line →
      IsInt32 (loc.endLine - loc.line) → ∃ e, (w.push loc units).2 = .error e := by
  intro h
  obtain ⟨e, he⟩ := h (start 1) ⟨5, 0, 3, 4⟩ 0 (by decide) (by decide) (by decide)
  cases he

end Writer

/-- Locations that can be written are read back, one for each code unit; a run of at least one
unit that ends before it starts, by a number of lines that is a word, is refused and writes nothing;
and whatever was refused, what is written is a row of entries with the mark on their first bytes. -/
theorem read_unitLocations {firstLine : Int} (hfirst : IsInt32 firstLine) :
    (∀ runs : List (Location × Nat), (∀ run ∈ runs, Writable run.1) →
      (∀ step ∈ lineSteps firstLine runs, IsInt32 step) →
      ∃ table, write firstLine runs = .ok table ∧
        read firstLine table = .ok (unitLocations runs)) ∧
    (∀ (w : Writer) (loc : Location) (units : Nat), 0 ≤ loc.line → loc.endLine < loc.line →
      IsInt32 (loc.endLine - loc.line) → 0 < units →
      w.push loc units = (w, .fault (.backwardLocation loc.endLine loc.line))) ∧
    ∀ runs : List (Location × Nat),
      IsTable ((Writer.start firstLine).pushEach runs).bytes.toList := by
  refine ⟨?_, ?_, ?_⟩
  · intro runs hruns hsteps
    obtain ⟨w, hpush, hgives⟩ :=
      Writer.pushAll_gives (w := Writer.start firstLine) (Gives.nil firstLine) hfirst.2 hruns hsteps
    exact ⟨w.bytes.toList, by rw [write, hpush]; rfl, hgives.read⟩
  · intro w loc units hline hback hlines hunits
    exact Writer.push_backward hline hback hlines w hunits
  · intro runs
    exact Writer.isTable_pushEach ⟨[], rfl, by simp⟩

/-- Runs in every form: the long run is split, and the line goes back and forth. -/
def Sample.everyForm : List (Location × Nat) :=
  [(⟨1, 0, 1, 5⟩, 19), (⟨2, 4, 2, 100⟩, 2), (.ofLine 900, 1), (.none, 0), (⟨-7, 3, 2, 1⟩, 1),
    (⟨4, 200, 6, 3⟩, 3), (.ofLine 1, 1), (⟨1, -5, 0x7fffffff, -1⟩, 9)]

theorem read_unitLocations_everyForm :
    (IsInt32 (-3) ∧ (∀ run ∈ Sample.everyForm, Writable run.1) ∧
      (∀ step ∈ lineSteps (-3) Sample.everyForm, IsInt32 step) ∧
      ∃ table, write (-3) Sample.everyForm = .ok table ∧
        read (-3) table = .ok (unitLocations Sample.everyForm)) ∧
    (Writer.start (-3)).push ⟨5, 0, 3, 4⟩ 9 =
      (Writer.start (-3), .fault (.backwardLocation 3 5)) := by
  obtain ⟨hread, hback, -⟩ := read_unitLocations (show IsInt32 (-3) by decide)
  refine ⟨⟨by decide, by decide, by decide, hread _ (by decide) (by decide)⟩, ?_⟩
  exact hback (Writer.start (-3)) ⟨5, 0, 3, 4⟩ 9 (by decide) (by decide) (by decide) (by decide)

end Bytecode.LocationTable
