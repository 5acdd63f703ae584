import Bytecode.Graph

/-!
# Idle instructions

An instruction that does nothing stays only if it is the sole one of its line at its place. A value
that is pushed and dropped at once is not pushed at all, unless a jump can come in between.
-/

namespace Bytecode

/-- Drops the idle instructions that keep no line alive. The line before is `prev`, the line after
the block is `following`. An idle instruction gives its place to a next one that has no line, which
is then in `moved`. -/
def dropNopsFrom (following : Option Int) (prev : Int) (moved : Option Location) :
    List Instr → List Instr
  | [] => []
  | i :: rest =>
    let i := { i with loc := moved.getD i.loc }
    if !i.isNop then i :: dropNopsFrom following i.line none rest
    else if i.line < 0 ∨ prev = i.line then dropNopsFrom following prev none rest
    else
      match rest.head? with
      | none => if following = some i.line then [] else [i]
      | some next =>
        if next.line = i.line then dropNopsFrom following prev none rest
        else if next.line < 0 then dropNopsFrom following prev (some i.loc) rest
        else i :: dropNopsFrom following i.line none rest

def dropNops (following : Option Int) (instrs : List Instr) : List Instr :=
  dropNopsFrom following (-1) none instrs

/-- Makes idle every push of a value, from `i` on, that the next instruction pops, and that pop. -/
def cancelFrom (i : Instr) : List Instr → List Instr
  | [] => [i]
  | j :: rest =>
    if i.isPurePush && j.op = .real .popTop then i.toNop :: cancelFrom j.toNop rest
    else i :: cancelFrom j rest

def cancelPairs : List Instr → List Instr
  | [] => []
  | i :: rest => cancelFrom i rest

namespace Graph

variable (g : Graph)

def lineFrom : (fuel : Nat) → Option BlockId → Option Int
  | 0, _ => none
  | _ + 1, none => none
  | fuel + 1, some id =>
    match (g.block id).instrs.head? with
    | some i => some i.line
    | none => lineFrom fuel (g.block id).next

def lineAfter (id : BlockId) : Option Int :=
  g.lineFrom g.blocks.size (g.block id).next

def dropNopsAt (id : BlockId) : Graph :=
  g.setInstrs id (dropNops (g.lineAfter id) (g.block id).instrs)

def dropAllNops : Graph :=
  g.order.foldl dropNopsAt g

def pairsAcross (b id : BlockId) : Bool :=
  (g.block b).last?.any (·.isPurePush) && (g.block id).instrs.head?.any (·.op = .real .popTop)

def idleAcross (b id : BlockId) : Graph :=
  (g.modify b (·.modifyLast Instr.toNop)).modify id (·.modifyHead Instr.toNop)

/-- A sweep over the layout. If nothing but the end of block `carry` leads to the next instruction,
its last instruction may pair with that one. -/
structure PairSweep where
  graph : Graph
  carry : Option BlockId := none
  changed : Bool := false

def PairSweep.visit (referenced : Array Bool) (s : PairSweep) (id : BlockId) : PairSweep :=
  let g := s.graph.dropNopsAt id
  let carry := if referenced.getD id false || (g.block id).isHandler then none else s.carry
  let straddle := carry.filter fun b => g.pairsAcross b id
  let g := straddle.elim g fun b => g.idleAcross b id
  let instrs := (g.block id).instrs
  let cancelled := cancelPairs instrs
  let g := g.setInstrs id cancelled
  let carry := if instrs.isEmpty then carry else some id
  let carry := if (g.block id).last?.any fun i => i.op.isJump || !i.op.fallsThrough then none
    else carry
  ⟨g, carry, s.changed || straddle.isSome || cancelled ≠ instrs⟩

/-- Sweeps until no pair is left. Every sweep but the last makes an instruction idle. -/
def cancelSweeps (referenced : Array Bool) : (fuel : Nat) → Graph → Graph
  | 0, g => g
  | fuel + 1, g =>
    let sweep := g.order.foldl (PairSweep.visit referenced) ⟨g, none, false⟩
    if sweep.changed then cancelSweeps referenced fuel sweep.graph else sweep.graph

def dropNopsAndPairs : Graph :=
  cancelSweeps g.referenced (g.instrCount + 1) g

end Graph

end Bytecode
