import Bytecode.Error

/-!
# Code units

An instruction is one code unit of two bytes: its opcode and the low byte of its operand. Higher
bytes of the operand stand before it, the highest first, in units of their own. An operand is a
32-bit word.
-/

namespace Bytecode

structure CodeInstr where
  op : Opcode
  arg : Nat
deriving DecidableEq, Repr

def unitCount (arg : Nat) : Nat :=
  if arg < 0x100 then 1 else if arg < 0x10000 then 2 else if arg < 0x1000000 then 3 else 4

namespace CodeInstr

def extension (arg : Nat) : List UInt8 :=
  ((List.range (unitCount arg - 1)).reverse).flatMap fun k =>
    [Opcode.extendedArg.byte, UInt8.ofNat (arg >>> (8 * (k + 1)))]

def bytes (i : CodeInstr) : List UInt8 :=
  extension i.arg ++ [i.op.byte, UInt8.ofNat i.arg]

end CodeInstr

structure DecodedInstr where
  /-- The first unit, with the units that extend the operand. -/
  start : Nat
  /-- The unit of the opcode itself. -/
  offset : Nat
  op : Opcode
  arg : Nat
deriving DecidableEq, Repr

/-- Reads the instructions from a given unit on. The operand read so far stands in `high`, and
`start` is the unit where it started. -/
def decodeFrom (unit : Nat) (start : Option Nat) (high : Nat) :
    List UInt8 → Result (List DecodedInstr)
  | [] => .ok []
  | [_] => .ok []
  | b :: low :: bytes => do
    let op ← Result.require (.unknownOpcode b unit) (Opcode.ofByte? b)
    let arg := (high * 256 + low.toNat) % 0x100000000
    if op = .extendedArg then decodeFrom (unit + 1) (some (start.getD unit)) arg bytes
    else
      let rest ← decodeFrom (unit + 1) none 0 bytes
      .ok (⟨start.getD unit, unit, op, arg⟩ :: rest)

def decode (code : List UInt8) : Result (List DecodedInstr) :=
  if code.length % 2 = 1 then .fault .oddCodeSize else decodeFrom 0 none 0 code

namespace DecodedInstr

/-- The unit that a relative jump goes to; none if it lies before the first. -/
def jumpTarget? (i : DecodedInstr) : Option Nat :=
  match i.op.direction? with
  | some .forward => some (i.offset + 1 + i.arg)
  | some .backward => if i.arg ≤ i.offset + 1 then some (i.offset + 1 - i.arg) else none
  | none => none

end DecodedInstr

end Bytecode
