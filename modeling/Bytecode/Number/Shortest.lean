import Bytecode.Number.Binary64

/-!
# The shortest decimal of a number

Every finite number owns the interval of reals that round to it. Its shortest decimal is the point
of that interval on the coarsest decimal grid that meets it; of two points on that grid the nearer
one is taken, and the larger one on a tie.
-/

namespace Bytecode.Binary64

/-- A positive number with the ends of its interval, in units of `2 ^ exponent`. -/
structure Interval where
  low : Nat
  value : Nat
  high : Nat
  exponent : Int
  /-- Whether the ends themselves round to the number. -/
  closed : Bool

/-- The interval of the number `m * 2 ^ q`. Below a power of two the neighbour is half as far,
unless the format has no finer step there. -/
def interval (m : Nat) (q : Int) : Interval :=
  { low := if m = leadingBit ∧ -1074 < q then 4 * m - 1 else 4 * m - 2
    value := 4 * m
    high := 4 * m + 2
    exponent := q - 2
    closed := m % 2 = 0 }

namespace Interval

variable (I : Interval)

/-- What a unit of the interval and a step of the grid `10 ^ g` count in a common measure. -/
def measures (g : Int) : Nat × Nat :=
  (Nat.pow 10 (-g).toNat <<< I.exponent.toNat, Nat.pow 10 g.toNat <<< (-I.exponent).toNat)

def holds (g : Int) (d : Nat) : Bool :=
  let (unit, step) := I.measures g
  if I.closed then I.low * unit ≤ d * step && d * step ≤ I.high * unit
  else I.low * unit < d * step && d * step < I.high * unit

/-- The point of the grid `10 ^ g` that stands for the interval's value, if there is one. -/
def point? (g : Int) : Option Nat :=
  let (unit, step) := I.measures g
  let below := I.value * unit / step
  let rest := I.value * unit % step
  match I.holds g below, I.holds g (below + 1) with
  | true, true => some (if 2 * rest < step then below else below + 1)
  | true, false => some below
  | false, true => some (below + 1)
  | false, false => none

/-- The coarsest grid with a point in the interval: the point is `digits * 10 ^ exponent`. -/
def shortest : Nat × Int :=
  let grids : List Int := (List.range 660).map fun i : Nat => 310 - (i : Int)
  (grids.findSome? fun g => (I.point? g).map (·, g)).getD (0, 0)

end Interval

/-- Digits with a point after the first `scale` of them, zeros filled in where digits are missing,
and at least one digit on each side. -/
def positional (digits : List Char) (scale : Int) : List Char :=
  if scale ≤ 0 then "0.".toList ++ List.replicate (-scale).toNat '0' ++ digits
  else if digits.length ≤ scale.toNat then
    digits ++ List.replicate (scale.toNat - digits.length) '0' ++ ".0".toList
  else digits.take scale.toNat ++ '.' :: digits.drop scale.toNat

def scientific (digits : List Char) (scale : Int) : List Char :=
  let point := match digits with
    | d :: rest@(_ :: _) => d :: '.' :: rest
    | ds => ds
  point ++ 'e' :: (Int.repr (scale - 1)).toList

/-- The text of a number: the fewest digits that read back, positional from `1e-4` up to `1e16`. -/
def text (x : Binary64) : String :=
  if x.isNaN then "NaN"
  else
    let sign := if x.negative then "-" else ""
    if x.isInfinite then sign ++ "inf"
    else if x.isZero then sign ++ "0.0"
    else
      let (m, q) := x.decompose
      let (d, g) := (interval m q).shortest
      let digits := Nat.toDigits 10 d
      let scale := (digits.length : Int) + g
      let body :=
        if -4 < scale ∧ scale ≤ 16 then positional digits scale else scientific digits scale
      sign ++ String.ofList body

end Bytecode.Binary64
