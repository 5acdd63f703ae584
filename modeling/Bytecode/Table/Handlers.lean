import Bytecode.Error

/-!
# Handler tables

A handler table says which handler takes over when an instruction raises. An entry is four numbers:
the first unit it covers, how many, the handler's place, and the stack depth with a flag below it.
Numbers are written in groups of six bits, the highest group first; every byte but the last has the
bit `0x40`, and the first byte of an entry has the bit `0x80`. They are 32-bit words when read, and
have at most 30 bits when written.
-/

namespace Bytecode

structure HandlerRange where
  start : Nat
  stop : Nat
  target : Nat
  /-- The depth to which the stack is cut before the exception is pushed. -/
  depth : Nat
  keepsPosition : Bool
deriving DecidableEq, Repr

namespace HandlerTable

/-- The groups of a number above the lowest, the highest first, without leading zeros. -/
def highGroups (n : Nat) : List Nat :=
  ([24, 18, 12, 6].filter (1 <<< · ≤ n)).map fun shift => (n >>> shift) % 64

def mark : List UInt8 → List UInt8
  | [] => []
  | b :: bs => (b + 128) :: bs

def writeNat (n : Nat) : Result (List UInt8) :=
  if n < 0x40000000 then
    .ok ((highGroups n).map (fun g => UInt8.ofNat (64 + g)) ++ [UInt8.ofNat (n % 64)])
  else .exceed (.handlerValue n)

def writeRange (r : HandlerRange) : Result (List UInt8) :=
  if r.stop ≤ r.start then .fault (.emptyRange r.start r.stop)
  else if 0x100000000 ≤ 2 * r.depth then .exceed .handlerDepth
  else do
    let start ← writeNat r.start
    let length ← writeNat (r.stop - r.start)
    let target ← writeNat r.target
    let depth ← writeNat (2 * r.depth + if r.keepsPosition then 1 else 0)
    .ok (mark start ++ length ++ target ++ depth)

def write : List HandlerRange → Result (List UInt8)
  | [] => .ok []
  | r :: rs => do
    let bytes ← writeRange r
    .ok (bytes ++ (← write rs))

/-- The number at the start of a table, after the groups `high`, and the rest. -/
def readGroups (high : Nat) : List UInt8 → Result (Nat × List UInt8)
  | [] => .fault .truncatedHandlers
  | b :: bs =>
    let n := (high * 64 + b.toNat % 64) % 0x100000000
    if b.toNat / 64 % 2 = 1 then readGroups n bs else .ok (n, bs)

def readRange (bytes : List UInt8) : Result (HandlerRange × List UInt8) := do
  let (start, bytes) ← readGroups 0 bytes
  let (length, bytes) ← readGroups 0 bytes
  let (target, bytes) ← readGroups 0 bytes
  let (depth, bytes) ← readGroups 0 bytes
  .ok (⟨start, start + length, target, depth / 2, depth % 2 = 1⟩, bytes)

/-- The ranges from position `pos` on. Every entry takes a byte at least, so that the number of
bytes is `fuel` enough. -/
def readFrom (pos : Nat) : (fuel : Nat) → List UInt8 → Result (List HandlerRange)
  | _, [] => .ok []
  | 0, _ :: _ => .fault .truncatedHandlers
  | fuel + 1, b :: bytes => do
    if b < 128 then .fault (.handlerMarker pos)
    else
      let (range, rest) ← readRange (b :: bytes)
      let more ← readFrom (pos + 1 + (bytes.length - rest.length)) fuel rest
      .ok (range :: more)

def read (table : List UInt8) : Result (List HandlerRange) :=
  readFrom 0 table.length table

end HandlerTable

end Bytecode
