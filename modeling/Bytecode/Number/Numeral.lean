import Bytecode.Number.Binary64

/-!
# Numerals

The number forms of a listing: bounded decimal integers, integers of any size with underscores,
and decimal fractions.
-/

namespace Bytecode.Numeral

def digit? (c : Char) : Option Nat :=
  if c.isDigit then some (c.toNat - '0'.toNat) else none

def natural? (cs : List Char) : Option Nat :=
  if cs.isEmpty then none
  else cs.foldlM (fun n c => (digit? c).map (10 * n + ·)) 0

/-- A sign, if there is one, and the rest; true stands for minus. -/
def splitSign : List Char → Bool × List Char
  | '-' :: cs => (true, cs)
  | '+' :: cs => (false, cs)
  | cs => (false, cs)

/-- A decimal number below `2 ^ 32`; a plus sign may stand before it. -/
def word? (cs : List Char) : Option Nat := do
  let digits := match cs with
    | '+' :: cs => cs
    | cs => cs
  let n ← natural? digits
  if n < 0x100000000 then some n else none

/-- A decimal number from `-2 ^ 31` to below `2 ^ 31`; a sign may stand before it. -/
def signedWord? (cs : List Char) : Option Int := do
  let (negative, digits) := splitSign cs
  let n ← natural? digits
  let value : Int := if negative then -n else n
  if -0x80000000 ≤ value ∧ value < 0x80000000 then some value else none

/-- An integer of any size: one sign at most, then digits and underscores, a digit first. -/
def integer? (cs : List Char) : Option Int := do
  let (negative, body) := splitSign cs
  if body.head? = some '_' then none
  else
    let n ← natural? (body.filter (· ≠ '_'))
    some (if negative then -n else n)

/-- A decimal fraction: digits with a point among them and a power of ten after them, or one of
the words for infinity and not-a-number in any case; a sign may stand before it. -/
def fraction? (cs : List Char) : Option Binary64 := do
  let (negative, body) := splitSign cs
  let word := String.ofList (body.map Char.toLower)
  if word = "inf" ∨ word = "infinity" then some (.infinity negative)
  else if word = "nan" then some (.nan negative)
  else
    let (whole, rest) := body.span Char.isDigit
    let (places, rest) := match rest with
      | '.' :: rest => rest.span Char.isDigit
      | rest => ([], rest)
    let digits ← natural? (whole ++ places)
    let exponent ← match rest with
      | [] => some 0
      | c :: rest =>
        if c = 'e' ∨ c = 'E' then
          let (down, power) := splitSign rest
          (natural? power).map fun n => if down then -(n : Int) else n
        else none
    some (.ofDecimal negative digits (exponent - places.length))

end Bytecode.Numeral
