import Bytecode.Code.Units
import Bytecode.Proofs.Result

/-!
# Reading instructions back

The bytes of a sequence of instructions read back as the same instructions, each placed at the sum
of the sizes before it, unless one of them is itself a unit that extends an operand.
-/

namespace Bytecode

open List

namespace Opcode

theorem mem_all (op : Opcode) : op ∈ all := by
  cases op <;> decide +kernel

theorem ofByte?_byte (op : Opcode) : ofByte? op.byte = some op := by
  have h : ∀ op ∈ all, ofByte? op.byte = some op := by decide +kernel
  exact h op op.mem_all

end Opcode

theorem unitCount_pos (arg : Nat) : 0 < unitCount arg := by
  unfold unitCount
  split_ifs <;> omega

/-- An operand with four or fewer bytes, by the number of its units. -/
theorem unitCount_cases (arg : Nat) :
    (unitCount arg = 1 ∧ arg < 0x100) ∨ (unitCount arg = 2 ∧ arg < 0x10000) ∨
      (unitCount arg = 3 ∧ arg < 0x1000000) ∨ unitCount arg = 4 := by
  unfold unitCount
  split_ifs <;> simp_all

namespace CodeInstr

def unitsOf : List CodeInstr → Nat
  | [] => 0
  | i :: rest => unitCount i.arg + unitsOf rest

theorem extension_length (arg : Nat) : (extension arg).length = 2 * (unitCount arg - 1) := by
  obtain ⟨h, _⟩ | ⟨h, _⟩ | ⟨h, _⟩ | h := unitCount_cases arg <;> simp [extension, h, range_succ]

theorem bytes_length (i : CodeInstr) : i.bytes.length = 2 * unitCount i.arg := by
  have hpos := unitCount_pos i.arg
  simp only [bytes, length_append, extension_length, length_cons, length_nil]
  omega

theorem flatMap_bytes_length (is : List CodeInstr) :
    (is.flatMap bytes).length = 2 * unitsOf is := by
  induction is with
  | nil => rfl
  | cons i is ih => simp [unitsOf, bytes_length, ih, Nat.mul_add]

end CodeInstr

theorem decodeFrom_extendedArg (unit : Nat) (start : Option Nat) (high : Nat) (low : UInt8)
    (bytes : List UInt8) :
    decodeFrom unit start high (Opcode.extendedArg.byte :: low :: bytes) =
      decodeFrom (unit + 1) (some (start.getD unit)) ((high * 256 + low.toNat) % 0x100000000)
        bytes := by
  rw [decodeFrom, Opcode.ofByte?_byte]
  rfl

theorem decodeFrom_byte {op : Opcode} (hop : op ≠ .extendedArg) (unit : Nat) (start : Option Nat)
    (high : Nat) (low : UInt8) (bytes : List UInt8) :
    decodeFrom unit start high (op.byte :: low :: bytes) =
      (decodeFrom (unit + 1) none 0 bytes).map
        (⟨start.getD unit, unit, op, (high * 256 + low.toNat) % 0x100000000⟩ :: ·) := by
  rw [decodeFrom, Opcode.ofByte?_byte]
  simp only [Result.require, Result.ok_bind, if_neg hop]
  cases decodeFrom (unit + 1) none 0 bytes <;> rfl

/-- One whole instruction: the highest byte is read first, and every byte after it moves the
operand read so far up by eight bits. -/
theorem decodeFrom_bytes (i : CodeInstr) (hop : i.op ≠ .extendedArg) (harg : i.arg < 0x100000000)
    (unit : Nat) (bytes : List UInt8) :
    decodeFrom unit none 0 (i.bytes ++ bytes) =
      (decodeFrom (unit + unitCount i.arg) none 0 bytes).map
        (⟨unit, unit + unitCount i.arg - 1, i.op, i.arg⟩ :: ·) := by
  obtain ⟨op, arg⟩ := i
  simp only at hop harg ⊢
  obtain ⟨h, hlt⟩ | ⟨h, hlt⟩ | ⟨h, hlt⟩ | h := unitCount_cases arg
  all_goals
    simp only [CodeInstr.bytes, CodeInstr.extension, h, range_succ, range_zero,
      nil_append, cons_append, reverse_cons, reverse_nil, flatMap_cons,
      flatMap_nil, append_nil, Nat.reduceSub, decodeFrom_extendedArg, decodeFrom_byte hop,
      Option.getD_some, Option.getD_none, UInt8.toNat_ofNat', Nat.shiftRight_eq_div_pow]
    congr 1
    funext rest
    simp only [List.cons.injEq, DecodedInstr.mk.injEq, and_true, true_and]
    omega

def placedFrom (unit : Nat) : List CodeInstr → List DecodedInstr
  | [] => []
  | i :: rest =>
    ⟨unit, unit + unitCount i.arg - 1, i.op, i.arg⟩ :: placedFrom (unit + unitCount i.arg) rest

theorem decodeFrom_flatMap_bytes (is : List CodeInstr) (hop : ∀ i ∈ is, i.op ≠ .extendedArg)
    (harg : ∀ i ∈ is, i.arg < 0x100000000) (unit : Nat) :
    decodeFrom unit none 0 (is.flatMap CodeInstr.bytes) = .ok (placedFrom unit is) := by
  induction is generalizing unit with
  | nil => rfl
  | cons i is ih =>
    rw [flatMap_cons, decodeFrom_bytes i (hop i (by simp)) (harg i (by simp)),
      ih (fun j hj => hop j (by simp [hj])) (fun j hj => harg j (by simp [hj]))]
    rfl

theorem decode_flatMap_bytes (is : List CodeInstr) (hop : ∀ i ∈ is, i.op ≠ .extendedArg)
    (harg : ∀ i ∈ is, i.arg < 0x100000000) :
    decode (is.flatMap CodeInstr.bytes) = .ok (placedFrom 0 is) := by
  rw [decode, if_neg, decodeFrom_flatMap_bytes is hop harg]
  rw [CodeInstr.flatMap_bytes_length]
  omega

theorem placedFrom_length (unit : Nat) (is : List CodeInstr) :
    (placedFrom unit is).length = is.length := by
  induction is generalizing unit with
  | nil => rfl
  | cons i is ih => simp [placedFrom, ih]

theorem placedFrom_getElem? (unit : Nat) (is : List CodeInstr) (k : Nat) :
    (placedFrom unit is)[k]? = is[k]?.map fun i =>
      ⟨unit + CodeInstr.unitsOf (is.take k),
        unit + CodeInstr.unitsOf (is.take k) + unitCount i.arg - 1, i.op, i.arg⟩ := by
  induction is generalizing unit k with
  | nil => simp [placedFrom]
  | cons i is ih =>
    cases k with
    | zero => simp [placedFrom, CodeInstr.unitsOf]
    | succ k => simp [placedFrom, CodeInstr.unitsOf, ih, Nat.add_assoc]

end Bytecode
