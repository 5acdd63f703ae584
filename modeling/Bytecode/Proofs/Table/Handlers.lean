import Bytecode.Table.Handlers
import Bytecode.Proofs.Result

/-!
# Handler tables read back

Reading a handler table gives the ranges that were written. The bit that marks the start of an entry
is outside of the six bits of data.
-/

namespace Bytecode.HandlerTable

open List Result Except

variable {rs : List HandlerRange} {bytes table : List UInt8} {b : UInt8} {n : Nat}

/-- The groups of a number with at most five of them. -/
theorem highGroups_cases (hn : n < 0x40000000) :
    (n < 0x40 ∧ highGroups n = []) ∨
    (n < 0x1000 ∧ highGroups n = [n / 0x40 % 64]) ∨
    (n < 0x40000 ∧ highGroups n = [n / 0x1000 % 64, n / 0x40 % 64]) ∨
    (n < 0x1000000 ∧ highGroups n = [n / 0x40000 % 64, n / 0x1000 % 64, n / 0x40 % 64]) ∨
    highGroups n = [n / 0x1000000 % 64, n / 0x40000 % 64, n / 0x1000 % 64, n / 0x40 % 64] := by
  simp only [highGroups, filter_cons, filter_nil, Nat.reduceShiftLeft,
    decide_eq_true_eq, Nat.shiftRight_eq_div_pow]
  split_ifs <;> simp <;> omega

theorem readGroups_high {group : Nat} (hg : group < 64) (high : Nat) (rest : List UInt8) :
    readGroups high (UInt8.ofNat (64 + group) :: rest) =
      readGroups ((high * 64 + group) % 0x100000000) rest := by
  have hbyte : (UInt8.ofNat (64 + group)).toNat = 64 + group := by
    rw [UInt8.toNat_ofNat']
    omega
  rw [readGroups, hbyte, if_pos (by omega), show (64 + group) % 64 = group by omega]

theorem readGroups_low {group : Nat} (hg : group < 64) (high : Nat) (rest : List UInt8) :
    readGroups high (UInt8.ofNat group :: rest) =
      .ok ((high * 64 + group) % 0x100000000, rest) := by
  have hbyte : (UInt8.ofNat group).toNat = group := by
    rw [UInt8.toNat_ofNat']
    omega
  rw [readGroups, hbyte, if_neg (by omega), Nat.mod_eq_of_lt hg]

theorem readGroups_writeNat (h : writeNat n = .ok bytes) (rest : List UInt8) :
    readGroups 0 (bytes ++ rest) = .ok (n, rest) := by
  unfold writeNat at h
  split_ifs at h with hn
  · obtain rfl := ok.inj h
    have hmod : ∀ m, m % 64 < 64 := fun m => Nat.mod_lt m (by decide)
    obtain ⟨hlt, hg⟩ | ⟨hlt, hg⟩ | ⟨hlt, hg⟩ | ⟨hlt, hg⟩ | hg := highGroups_cases hn
    all_goals
      simp only [hg, map_cons, map_nil, cons_append, nil_append,
        readGroups_high (hmod _), readGroups_low (hmod _), ok.injEq, Prod.mk.injEq,
        and_true]
      omega
  · simp at h

theorem lt_of_mem_writeNat (h : writeNat n = .ok bytes) (hb : b ∈ bytes) : b < 128 := by
  unfold writeNat at h
  split_ifs at h
  · obtain rfl := ok.inj h
    rw [UInt8.lt_iff_toNat_lt]
    simp only [highGroups, map_map, mem_append, mem_map, mem_singleton] at hb
    rcases hb with ⟨shift, _, rfl⟩ | rfl
    · simp only [Function.comp_apply, UInt8.toNat_ofNat']
      have : n >>> shift % 64 < 64 := Nat.mod_lt _ (by decide)
      show (64 + n >>> shift % 64) % 256 < 128
      omega
    · show (UInt8.ofNat (n % 64)).toNat < 128
      rw [UInt8.toNat_ofNat']
      omega
  · simp at h

theorem exists_cons_of_writeNat (h : writeNat n = .ok bytes) : ∃ b bs, bytes = b :: bs := by
  unfold writeNat at h
  split_ifs at h
  · obtain rfl := ok.inj h
    exact exists_cons_of_ne_nil (by simp)
  · simp at h

theorem toNat_add_mark (hb : b < 128) : (b + 128).toNat = b.toNat + 128 := by
  have hlt : b.toNat < 128 := hb
  rw [UInt8.toNat_add]
  show (b.toNat + 128) % 256 = b.toNat + 128
  omega

/-- The mark is outside of what the reader takes from a byte. -/
theorem readGroups_mark (hb : b < 128) (high : Nat) (bs : List UInt8) :
    readGroups high ((b + 128) :: bs) = readGroups high (b :: bs) := by
  rw [readGroups, readGroups, toNat_add_mark hb, show (b.toNat + 128) % 64 = b.toNat % 64 by omega,
    show (b.toNat + 128) / 64 % 2 = b.toNat / 64 % 2 by omega]

/-- An entry of a table: only its first byte has the mark, and it reads back as a range. -/
structure IsEntry (chunk : List UInt8) (r : HandlerRange) : Prop where
  marked : ∃ b bs, chunk = b :: bs ∧ 128 ≤ b ∧ ∀ c ∈ bs, c < 128
  reads : ∀ rest, readRange (chunk ++ rest) = .ok (r, rest)

theorem isEntry_writeRange {r : HandlerRange} {chunk : List UInt8}
    (h : writeRange r = .ok chunk) : IsEntry chunk r ∧ r.start < r.stop := by
  unfold writeRange at h
  split at h
  · simp at h
  split at h
  · simp at h
  obtain ⟨start, hstart, h⟩ := bind_eq_ok.mp h
  obtain ⟨length, hlength, h⟩ := bind_eq_ok.mp h
  obtain ⟨target, htarget, h⟩ := bind_eq_ok.mp h
  obtain ⟨depth, hdepth, h⟩ := bind_eq_ok.mp h
  obtain rfl := ok.inj h
  obtain ⟨b, bs, rfl⟩ := exists_cons_of_writeNat hstart
  have hb := lt_of_mem_writeNat hstart (mem_cons_self ..)
  refine ⟨⟨⟨b + 128, bs ++ length ++ target ++ depth, by simp [mark], ?_, ?_⟩, ?_⟩, by omega⟩
  · rw [UInt8.le_iff_toNat_le, toNat_add_mark hb]
    exact Nat.le_add_left ..
  · intro c hc
    simp only [mem_append] at hc
    rcases hc with ((hc | hc) | hc) | hc
    · exact lt_of_mem_writeNat hstart (mem_cons_of_mem _ hc)
    · exact lt_of_mem_writeNat hlength hc
    · exact lt_of_mem_writeNat htarget hc
    · exact lt_of_mem_writeNat hdepth hc
  · intro rest
    have hread := readGroups_writeNat hstart (length ++ (target ++ (depth ++ rest)))
    rw [cons_append, ← readGroups_mark hb] at hread
    simp only [mark, cons_append, append_assoc, readRange, hread, ok_bind,
      readGroups_writeNat hlength, readGroups_writeNat htarget, readGroups_writeNat hdepth]
    obtain ⟨start, stop, target, depth, keeps⟩ := r
    cases keeps <;> simp only [ok.injEq, Prod.mk.injEq, HandlerRange.mk.injEq] <;>
      simp at * <;> omega

/-- Reading a table gives the ranges that were written. -/
theorem readFrom_write (h : write rs = .ok table) {fuel : Nat} (hfuel : table.length ≤ fuel)
    (pos : Nat) : readFrom pos fuel table = .ok rs := by
  induction rs generalizing table fuel pos with
  | nil =>
    obtain rfl := ok.inj h
    cases fuel <;> rfl
  | cons r rs ih =>
    obtain ⟨chunk, hchunk, h⟩ := bind_eq_ok.mp h
    obtain ⟨rest, hrest, h⟩ := bind_eq_ok.mp h
    obtain rfl := ok.inj h
    obtain ⟨⟨⟨b, bs, rfl, hb, _⟩, hreads⟩, -⟩ := isEntry_writeRange hchunk
    simp only [cons_append, length_cons, length_append] at hfuel
    obtain ⟨fuel, rfl⟩ : ∃ m, fuel = m + 1 := ⟨fuel - 1, by omega⟩
    have hread := hreads rest
    rw [cons_append] at hread ⊢
    rw [readFrom, if_neg (UInt8.not_lt.mpr hb), hread, ok_bind]
    simp only
    rw [ih hrest (by omega)]
    rfl

theorem read_write (h : write rs = .ok table) : read table = .ok rs :=
  readFrom_write h (Nat.le_refl _) 0

theorem entries_write (h : write rs = .ok table) :
    ∃ chunks, table = List.flatten chunks ∧ Forall₂ IsEntry chunks rs := by
  induction rs generalizing table with
  | nil =>
    obtain rfl := ok.inj h
    exact ⟨[], rfl, .nil⟩
  | cons r rs ih =>
    obtain ⟨chunk, hchunk, h⟩ := bind_eq_ok.mp h
    obtain ⟨rest, hrest, h⟩ := bind_eq_ok.mp h
    obtain rfl := ok.inj h
    obtain ⟨chunks, rfl, hall⟩ := ih hrest
    exact ⟨chunk :: chunks, rfl, .cons (isEntry_writeRange hchunk).1 hall⟩

end Bytecode.HandlerTable
