import Bytecode.Error

/-!
# Location tables

A location table gives every code unit its location. It is a sequence of entries for one to eight
units each. The first byte of an entry is `1 cccc lll`: the code of its form, and its length less
one. Lines are written as steps from the entry before.

| code  | form       | payload                                         |
|-------|------------|-------------------------------------------------|
| 0-9   | short      | low column bits and width; the line is the same |
| 10-12 | one line   | both columns; the line goes on by `code - 10`   |
| 13    | line only  | step of the line                                |
| 14    | long       | step, lines to the end, both columns plus one   |
| 15    | none       | nothing                                         |

Numbers are written in groups of six bits, the lowest group first, and every byte but the last has
the bit `0x40`. They are 32-bit words, and lines and columns signed ones: higher bits are lost.
-/

namespace Bytecode.LocationTable

open UInt8

inductive Entry where
  | none
  | lineOnly (step : Int)
  | short (col width : Nat)
  | oneLine (step col endCol : Nat)
  /-- The columns are counted from one, and zero stands for a column that is not known. -/
  | long (step : Int) (lines col endCol : Nat)
deriving DecidableEq, Repr

def maxUnits : Nat := 8

/-- Groups of six bits, the lowest first; `fuel` bounds the number of further groups. -/
def groups : (fuel : Nat) → Nat → List UInt8
  | 0, n => [ofNat (n % 64)]
  | fuel + 1, n =>
    if n < 64 then [ofNat n] else ofNat (64 + n % 64) :: groups fuel (n / 64)

/-- A number as bytes: a 32-bit word has six groups at most. -/
def writeNat (n : Nat) : List UInt8 :=
  groups 5 (n % 0x100000000)

/-- An integer as bytes: its sign is the lowest bit. -/
def writeInt (n : Int) : List UInt8 :=
  writeNat (2 * n.natAbs + if n < 0 then 1 else 0)

/-- An integer as a signed word. -/
def wrap (n : Int) : Int :=
  n.bmod 0x100000000

namespace Entry

/-- How a location is written after an entry on the given line. That it ends before it starts is
seen from the lines to its end, which are a word. -/
def ofLocation (line : Int) (loc : Location) : Result Entry :=
  let step := wrap (loc.line - line)
  if loc.line < 0 then .ok none
  else if loc.col < 0 ∧ loc.endCol < 0 ∧ loc.endLine = loc.line then .ok (lineOnly step)
  else
    let within := loc.endLine = loc.line ∧ 0 ≤ loc.col ∧ loc.col ≤ loc.endCol
    if within ∧ step = 0 ∧ loc.col < 80 ∧ loc.endCol - loc.col < 16 then
      .ok (short loc.col.toNat (loc.endCol - loc.col).toNat)
    else if within ∧ 0 ≤ step ∧ step < 3 ∧ loc.col < 128 ∧ loc.endCol < 128 then
      .ok (oneLine step.toNat loc.col.toNat loc.endCol.toNat)
    else
      let lines := wrap (loc.endLine - loc.line)
      if lines < 0 then .fault (.backwardLocation loc.endLine loc.line)
      else .ok (long step lines.toNat (max loc.col (-1) + 1).toNat (max loc.endCol (-1) + 1).toNat)

/-- The location that an entry stands for after an entry on the given line, and its line. -/
def locate (line : Int) : Entry → Location × Int
  | none => (.none, line)
  | lineOnly step => (.ofLine (wrap (line + step)), wrap (line + step))
  | short col width => (.span line col (col + width), line)
  | oneLine step col endCol => (.span (wrap (line + step)) col endCol, wrap (line + step))
  | long step lines col endCol =>
    let line := wrap (line + step)
    (⟨line, wrap (col - 1), wrap (line + lines), wrap (endCol - 1)⟩, line)

def code : Entry → Nat
  | short col _ => col / 8
  | oneLine step _ _ => 10 + step
  | lineOnly _ => 13
  | long .. => 14
  | none => 15

def payload : Entry → List UInt8
  | short col width => [ofNat (col % 8 * 16 + width)]
  | oneLine _ col endCol => [ofNat col, ofNat endCol]
  | lineOnly step => writeInt step
  | long step lines col endCol =>
    writeInt step ++ writeNat lines ++ writeNat col ++ writeNat endCol
  | none => []

def bytes (e : Entry) (units : Nat) : List UInt8 :=
  ofNat (128 + e.code * 8 + (units - 1)) :: e.payload

end Entry

def chunks (units : Nat) : List Nat :=
  List.replicate ((units - 1) / maxUnits) maxUnits ++
    if units = 0 then [] else [(units - 1) % maxUnits + 1]

structure Writer where
  bytes : Array UInt8
  /-- The line that the step of the next entry starts from. -/
  line : Int
deriving DecidableEq, Repr

namespace Writer

def start (firstLine : Int) : Writer := ⟨#[], firstLine⟩

def entry (w : Writer) (loc : Location) (units : Nat) : Result Writer := do
  let entry ← Entry.ofLocation w.line loc
  .ok ⟨w.bytes ++ entry.bytes units, (entry.locate w.line).2⟩

/-- Adds entries of the given lengths at one location. Where an entry fails, those before it
stay. -/
def entries (w : Writer) (loc : Location) : List Nat → Writer × Result Unit
  | [] => (w, .ok ())
  | units :: rest =>
    match w.entry loc units with
    | .ok w => w.entries loc rest
    | .error e => (w, .error e)

def push (w : Writer) (loc : Location) (units : Nat) : Writer × Result Unit :=
  w.entries loc (chunks units)

/-- Adds runs, each a location and a number of code units, up to the first that fails. -/
def pushAll (w : Writer) : List (Location × Nat) → Writer × Result Unit
  | [] => (w, .ok ())
  | (loc, units) :: rest =>
    match w.push loc units with
    | (w, .ok ()) => w.pushAll rest
    | (w, .error e) => (w, .error e)

end Writer

def write (firstLine : Int) (runs : List (Location × Nat)) : Result (List UInt8) := do
  let (w, pushed) := (Writer.start firstLine).pushAll runs
  pushed
  .ok w.bytes.toList

def readByte : List UInt8 → Result (Nat × List UInt8)
  | [] => .fault .truncatedLocations
  | b :: bs => .ok (b.toNat, bs)

/-- The value of the groups at the start of a table, before higher bits are lost. -/
def readGroups : List UInt8 → Result (Nat × List UInt8)
  | [] => .fault .truncatedLocations
  | b :: bs =>
    if b.toNat / 64 % 2 = 1 then do
      let (high, rest) ← readGroups bs
      .ok (b.toNat % 64 + 64 * high, rest)
    else .ok (b.toNat % 64, bs)

def readNat (bytes : List UInt8) : Result (Nat × List UInt8) := do
  let (n, rest) ← readGroups bytes
  .ok (n % 0x100000000, rest)

def readInt (bytes : List UInt8) : Result (Int × List UInt8) := do
  let (n, rest) ← readNat bytes
  .ok (if n % 2 = 1 then -((n / 2 : Nat) : Int) else (n / 2 : Nat), rest)

def readEntry (code : Nat) (bytes : List UInt8) : Result (Entry × List UInt8) :=
  if code = 15 then .ok (.none, bytes)
  else if code = 14 then do
    let (step, bytes) ← readInt bytes
    let (lines, bytes) ← readNat bytes
    let (col, bytes) ← readNat bytes
    let (endCol, bytes) ← readNat bytes
    .ok (.long step lines col endCol, bytes)
  else if code = 13 then do
    let (step, bytes) ← readInt bytes
    .ok (.lineOnly step, bytes)
  else if 10 ≤ code then do
    let (col, bytes) ← readByte bytes
    let (endCol, bytes) ← readByte bytes
    .ok (.oneLine (code - 10) col endCol, bytes)
  else do
    let (b, bytes) ← readByte bytes
    .ok (.short (code * 8 + b / 16) (b % 16), bytes)

/-- The locations of the entries from position `pos` on. Every entry takes a byte at least, so
that the number of bytes is `fuel` enough. -/
def readFrom (line : Int) (pos : Nat) : (fuel : Nat) → List UInt8 → Result (List Location)
  | _, [] => .ok []
  | 0, _ :: _ => .fault .truncatedLocations
  | fuel + 1, b :: bytes => do
    if b < 128 then .fault (.locationMarker pos)
    else
      let (entry, rest) ← readEntry (b.toNat / 8 % 16) bytes
      let (loc, line) := entry.locate line
      let more ← readFrom line (pos + 1 + (bytes.length - rest.length)) fuel rest
      .ok (List.replicate (b.toNat % 8 + 1) loc ++ more)

def read (firstLine : Int) (table : List UInt8) : Result (List Location) :=
  readFrom firstLine 0 table.length table

end Bytecode.LocationTable
