import Bytecode.Graph

/-!
# Reachable blocks

A search along the edges of a graph, and the edges that count for it: every block that an
instruction refers to, and the next block of the layout where control falls through. The search also
counts the edges that it follows.
-/

namespace Bytecode

/-- What has edges still to be followed, and for each element whether an edge led to it and how many
did. -/
structure Marking where
  stack : List Nat
  visited : Array Bool
  counts : Array Nat

/-- Follows an edge. What it leads to for the first time has edges to be followed. -/
def Marking.arrive (m : Marking) (a : Nat) : Marking :=
  let m := { m with counts := m.counts.modify a (· + 1) }
  if m.visited.getD a true then m
  else { m with stack := a :: m.stack, visited := m.visited.setIfInBounds a true }

/-- Follows the edges of what is on the stack until it is empty. Nothing gets on it twice. -/
def follow (succ : Nat → List Nat) : (fuel : Nat) → Marking → Marking
  | fuel + 1, ⟨a :: stack, visited, counts⟩ =>
    follow succ fuel ((succ a).foldl .arrive ⟨stack, visited, counts⟩)
  | _, m => m

/-- Marks what can be reached. The roots count as if an edge led to each. -/
def mark (succ : Nat → List Nat) (size : Nat) (roots : List Nat) : Marking :=
  follow succ size (roots.foldl .arrive ⟨[], .replicate size false, .replicate size 0⟩)

def reach (succ : Nat → List Nat) (size : Nat) (roots : List Nat) : List Nat :=
  let visited := (mark succ size roots).visited
  (List.range size).filter fun a => visited[a]? = some true

namespace Graph

variable (g : Graph)

def fallthrough? (id : BlockId) : Option BlockId :=
  if (g.block id).fallsThrough then (g.block id).next else none

def successors (id : BlockId) : List BlockId :=
  (g.block id).instrs.filterMap (·.target) ++ (g.fallthrough? id).toList

def plainSuccessors (id : BlockId) : List BlockId :=
  ((g.block id).instrs.filter (·.op.isJump)).filterMap (·.target) ++ (g.fallthrough? id).toList

def marking : Marking :=
  mark g.successors g.blocks.size [g.entry]

/-- Records the number of edges into each block. A block is reachable if it has any. -/
def countPredecessors : Graph :=
  let counts := g.marking.counts
  { g with blocks := g.blocks.mapIdx fun id b => { b with predecessors := counts.getD id 0 } }

end Graph

end Bytecode
