import Bytecode.Graph

/-!
# Shuffles of the stack

A run of exchanges with the top is a permutation of the stack. It becomes the shortest such run:
each cycle of the permutation is walked through the top, the one place that an exchange can
reach. An exchange whose two values are consumed at once by stores or pops is replaced by an
exchange of these consumers.
-/

namespace Bytecode

namespace Instr

def isSwap (i : Instr) : Bool :=
  i.op = .real .swap

/-- Whether the instruction only takes the top off the stack, so that it can change places. -/
def isConsumer (i : Instr) : Bool :=
  i.op = .real .storeFast || i.op = .real .popTop

def storedSlot? (i : Instr) : Option Nat :=
  if i.op = .real .storeFast then some i.arg else none

end Instr

/-- Exchanges the top, at place zero, with the places that the swaps of a run name. -/
def permute (depth : Nat) (run : List Instr) : Array Nat :=
  (run.filter (·.isSwap)).foldl (fun stack i => stack.swapIfInBounds 0 (i.arg - 1))
    (Array.range depth)

/-- The places from `j` on along a permutation, until `start` closes the cycle. -/
def walkCycle (perm : Array Nat) (start : Nat) : (fuel : Nat) → Nat → List Nat
  | 0, _ => []
  | fuel + 1, j => if j = start then [start] else j :: walkCycle perm start fuel (perm.getD j start)

def cycle (perm : Array Nat) (start : Nat) : List Nat :=
  start :: walkCycle perm start perm.size (perm.getD start start)

/-- Walks the cycle through a place, given the places that were seen on others and the exchanges for
these, unless the place was seen or keeps its item. -/
def takeCycle (perm : Array Nat) (walk : List Nat × List Nat) (i : Nat) : List Nat × List Nat :=
  if walk.1.contains i || perm.getD i i = i then walk
  else (cycle perm i ++ walk.1, walk.2 ++ (cycle perm i).filter (· ≠ 0))

/-- The places to exchange with the top, last one first, that give the permutation. -/
def exchanges (perm : Array Nat) : List Nat :=
  ((List.range perm.size).foldl (takeCycle perm) ([], [])).2

def swapRun (instrs : List Instr) : List Instr :=
  instrs.takeWhile fun i => i.isSwap || i.isNop

/-- The shortest run that does what a run of exchanges does, with idle instructions before it. -/
def fuseRun (run : List Instr) : List Instr :=
  let depth := ((run.filter (·.isSwap)).map (·.arg)).foldl max 0
  let places := (exchanges (permute depth run)).reverse
  let idle := run.length - places.length
  (run.take idle).map Instr.toNop ++
    (run.drop idle).zipWith (fun i place => i.become .swap (place + 1)) places

/-- Shortens the run at the start of a list, which begins with an exchange, and splits the list
before its last instruction. A run of one exchange, or with one that is malformed, is left alone
and split at its start. -/
def fuseSwaps (instrs : List Instr) : List Instr × List Instr :=
  let run := swapRun instrs
  let swaps := run.filter (·.isSwap)
  if swaps.length < 2 ∨ swaps.any (·.arg = 0) then ([], instrs)
  else
    let fused := fuseRun run
    (fused.dropLast, fused.drop (fused.length - 1) ++ instrs.drop run.length)

/-- The first instruction that is not idle, with what stands before and after it, if it can change
places. With a line given, nothing up to it may have another line. -/
def nextConsumer (line : Option Int) : List Instr → Option (List Instr × Instr × List Instr)
  | [] => none
  | i :: rest =>
    if line.any fun l => 0 ≤ l && i.line ≠ l then none
    else if i.isNop then (nextConsumer line rest).map fun (pre, c, post) => (i :: pre, c, post)
    else if i.isConsumer then some ([], i, rest)
    else none

/-- The consumer after `n` others on the same line, with what stands before and after it. -/
def consumerAfter (line : Int) : (n : Nat) → List Instr → Option (List Instr × Instr × List Instr)
  | 0, instrs => nextConsumer (some line) instrs
  | n + 1, instrs => do
    let (pre, c, post) ← nextConsumer (some line) instrs
    let (mid, d, rest) ← consumerAfter line n post
    some (pre ++ c :: mid, d, rest)

/-- Whether two consumers can change places across the instructions between them: no two stores to
one local may change their order. -/
def canExchange (a b : Instr) (between : List Instr) : Bool :=
  match a.storedSlot?, b.storedSlot? with
  | none, none => true
  | sa, sb => sa ≠ sb && !between.any fun i =>
      i.storedSlot?.any fun slot => some slot = sa || some slot = sb

/-- The instructions after an exchange of depth `count` without need of it: the consumers of the
two values have changed places. -/
def exchangeConsumers (count : Nat) (after : List Instr) : Option (List Instr) := do
  let (pre, a, rest) ← nextConsumer none after
  if count < 2 then
    if a.storedSlot?.isSome then none else some after
  else
    let (mid, b, post) ← consumerAfter a.line (count - 2) rest
    if canExchange a b mid then some (pre ++ b :: mid ++ a :: post) else none

/-- Replaces exchanges by changes of place among their consumers, backwards from the end of
`before`, which is reversed. -/
def exchangeBack : (before after : List Instr) → List Instr
  | [], after => after
  | i :: before, after =>
    if i.isSwap then
      match exchangeConsumers i.arg after with
      | some after => exchangeBack before (i.toNop :: after)
      | none => (i :: before).reverse ++ after
    else if i.isNop || i.isConsumer then exchangeBack before (i :: after)
    else (i :: before).reverse ++ after

end Bytecode
