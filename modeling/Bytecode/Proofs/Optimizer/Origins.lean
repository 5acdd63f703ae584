import Bytecode.Proofs.Optimizer.Regular

/-!
# Where instructions come from

The optimizer makes up only a few kinds of instructions. Every other instruction has stood in the
graph before, with the same operation and operand.
-/

namespace Bytecode

/-- The operations of the instructions that the optimizer makes up. -/
def Operation.isMade (op : Operation) : Bool :=
  op.isPlain || op.isTest || op = .pseudo .jump || op = .real .returnConst

/-- The second instruction is a new one, or does the same as the first one. -/
def Instr.Stems (i j : Instr) : Prop :=
  j.op.isMade ∨ j.op = i.op ∧ j.arg = i.arg

namespace Instr

variable {i j k : Instr}

theorem Stems.refl (i : Instr) : i.Stems i :=
  .inr ⟨rfl, rfl⟩

theorem Stems.trans (h : i.Stems j) (h' : j.Stems k) : i.Stems k := by
  rcases h' with h' | ⟨hop, harg⟩
  · exact .inl h'
  · rcases h with h | ⟨hop', harg'⟩
    · exact .inl (hop ▸ h)
    · exact .inr ⟨hop.trans hop', harg.trans harg'⟩

theorem Stems.toNop (i : Instr) : i.Stems i.toNop :=
  .inl rfl

theorem Stems.of_isPlain (h : j.op.isPlain) : i.Stems j :=
  .inl (by simp [Operation.isMade, h])

theorem Stems.of_isTest (h : j.op.isTest) : i.Stems j :=
  .inl (by simp [Operation.isMade, h])

end Instr

theorem Recasts.stems {i j : Instr} (h : Recasts i j) : i.Stems j := by
  cases h with
  | refl => exact .refl i
  | plain _ _ hop => exact .of_isPlain hop
  | replace _ _ hop => exact .of_isPlain hop
  | test _ hop =>
    rcases hop with hop | rfl
    · exact .of_isTest hop
    · exact .inl rfl
  | answer => exact .inl rfl

theorem Graph.Threads.stems {g : Graph} {i j : Instr} (h : g.Threads i j) : i.Stems j := by
  cases h with
  | along _ _ _ _ hop =>
    rcases hop with rfl | ⟨_, hop⟩
    · exact .inr ⟨rfl, rfl⟩
    · exact .of_isTest hop
  | past _ _ _ _ _ hop => exact .of_isTest hop

namespace Graph

variable {g h k : Graph} {id : BlockId} {is : List Instr} {i j : Instr}

/-- Every instruction of the second graph is a new one, or does what one of the first graph does. -/
def Supplies (g k : Graph) : Prop :=
  ∀ id ∈ k.order, ∀ j ∈ (k.block id).instrs, ∃ a ∈ g.order, ∃ i ∈ (g.block a).instrs, i.Stems j

theorem Supplies.refl (g : Graph) : g.Supplies g :=
  fun id hid j hj => ⟨id, hid, j, hj, .refl j⟩

theorem Supplies.trans (hg : g.Supplies h) (hh : h.Supplies k) : g.Supplies k := by
  intro id hid j hj
  obtain ⟨a, ha, i, hi, hij⟩ := hh id hid j hj
  obtain ⟨b, hb, l, hl, hli⟩ := hg a ha i hi
  exact ⟨b, hb, l, hl, hli.trans hij⟩

theorem Step.supplies (h : g.Step k) (hg : g.Regular) : g.Supplies k := by
  have hc := hg.closed
  cases h with
  | @put id is hid h =>
    have hnew : ∀ j ∈ is, ∃ a ∈ g.order, ∃ i ∈ (g.block a).instrs, i.Stems j := by
      refine h.forall_mem hc hid (fun a ha i hi => ⟨a, ha, i, hi, .refl i⟩) ?_ ?_ ?_ ?_
      · exact fun hij ⟨a, ha, i, hi, h⟩ => ⟨a, ha, i, hi, h.trans hij.stems⟩
      · exact fun x loc ⟨a, ha, i, hi, h⟩ => ⟨a, ha, i, hi, h.trans (.inr ⟨rfl, rfl⟩)⟩
      · exact fun hij ⟨a, ha, i, hi, h⟩ => ⟨a, ha, i, hi, h.trans hij.stems⟩
      · exact fun x ⟨a, ha, i, hi, h⟩ => ⟨a, ha, i, hi, h.trans (.toNop x)⟩
    intro a ha j hj
    rw [(SameLinks.setInstrs id is).order] at ha
    rw [block_setInstrs] at hj
    split_ifs at hj
    exacts [hnew j hj, ⟨a, ha, j, hj, .refl j⟩]
  | absorb hj =>
    intro a ha x hx
    rw [(hj.laysOut hc).order] at ha
    obtain ⟨b, hb, hx⟩ := hj.mem_instrs hc ha hx
    exact ⟨b, hb, x, hx, .refl x⟩
  | clear =>
    intro a ha x hx
    rw [order_clear] at ha
    rcases hc.instrs_clear_cases ha with h | h <;> rw [h] at hx
    · cases hx
    · exact ⟨a, ha, x, hx, .refl x⟩
  | dropEmpty h =>
    rcases compacts_dropEmpty hc h with ⟨rfl, _⟩ | h
    · exact .refl k
    · intro a ha x hx
      rw [h.drops.layout.order] at ha
      rw [h.instrs a ha] at hx
      obtain ⟨i, hi, rfl⟩ := List.mem_map.mp hx
      exact ⟨a, (mem_live.mp ha).1, i, hi, .inr ⟨rfl, rfl⟩⟩

theorem Steps.supplies (h : g.Steps k) (hg : g.Regular) : g.Supplies k := by
  induction h with
  | refl => exact .refl g
  | tail hsteps hstep ih => exact ih.trans (hstep.supplies (hg.steps hsteps))

end Graph

end Bytecode
