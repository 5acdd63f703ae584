/-!
# Double-precision numbers by their bits

A number is kept as its 64 bits, so that signed zeros and the payloads of NaNs stay apart. A
finite number is a sign and a natural multiple `m * 2 ^ q` of a power of two.
-/

namespace Bytecode

structure Binary64 where
  bits : UInt64
deriving DecidableEq, Repr

namespace Binary64

def signBit : Nat := 0x8000000000000000

/-- The weight of the lowest bit of the exponent's field, and of the leading bit of a significand,
which is not written. -/
def leadingBit : Nat := 0x10000000000000

def infiniteBits : Nat := 0x7FF0000000000000

instance : Inhabited Binary64 := ⟨⟨0⟩⟩

/-- Whether the sign bit is set, also of a zero or a NaN. -/
def negative (x : Binary64) : Bool :=
  signBit ≤ x.bits.toNat

def magnitude (x : Binary64) : Nat :=
  x.bits.toNat % signBit

def isZero (x : Binary64) : Bool :=
  x.magnitude = 0

def isInfinite (x : Binary64) : Bool :=
  x.magnitude = infiniteBits

def isNaN (x : Binary64) : Bool :=
  infiniteBits < x.magnitude

/-- The significand `m` and the exponent `q` of a finite number `m * 2 ^ q`. -/
def decompose (x : Binary64) : Nat × Int :=
  let field : Nat := x.magnitude / leadingBit
  let fraction : Nat := x.magnitude % leadingBit
  if field = 0 then (fraction, -1074) else (leadingBit + fraction, (field : Int) - 1075)

def ofMagnitude (negative : Bool) (magnitude : Nat) : Binary64 :=
  ⟨UInt64.ofNat (magnitude + if negative then signBit else 0)⟩

def infinity (negative : Bool) : Binary64 :=
  ofMagnitude negative infiniteBits

def nan (negative : Bool) : Binary64 :=
  ofMagnitude negative 0x7FF8000000000000

/-- A quotient rounded to the nearest natural number, a half to the even one. -/
def roundDiv (num den : Nat) : Nat :=
  let q := num / den
  match compare (2 * (num % den)) den with
  | .lt => q
  | .gt => q + 1
  | .eq => q + q % 2

/-- Numerator and denominator of `num / den * 2 ^ shift`. -/
def shiftRatio (num den : Nat) (shift : Int) : Nat × Nat :=
  (num <<< shift.toNat, den <<< (-shift).toNat)

/-- The exponent `e` with `2 ^ e ≤ num / den < 2 ^ (e + 1)`. -/
def binaryExponent (num den : Nat) : Int :=
  let guess : Int := (num.log2 : Int) - den.log2
  let (a, b) := shiftRatio num den (-guess)
  if a < b then guess - 1 else guess

/-- The number nearest to a positive quotient, a tie to the even significand. Quotients beyond the
largest finite number give infinity. -/
def ofRatio (negative : Bool) (num den : Nat) : Binary64 :=
  let q := max (binaryExponent num den - 52) (-1074)
  let (a, b) := shiftRatio num den (-q)
  let magnitude := (q + 1074).toNat * leadingBit + roundDiv a b
  ofMagnitude negative (min magnitude infiniteBits)

/-- The number nearest to `digits * 10 ^ exponent`. Powers of ten that lie outside the range of the
format are not computed. -/
def ofDecimal (negative : Bool) (digits : Nat) (exponent : Int) : Binary64 :=
  let position := ((Nat.toDigits 10 digits).length : Int) + exponent
  if digits = 0 ∨ position < -330 then ofMagnitude negative 0
  else if 310 < position then infinity negative
  else ofRatio negative (digits * Nat.pow 10 exponent.toNat) (Nat.pow 10 (-exponent).toNat)

end Binary64

end Bytecode
