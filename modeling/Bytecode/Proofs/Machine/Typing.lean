import Bytecode.Proofs.Machine.Balance

/-!
# Types of blocks

To see that a graph is balanced, one shape for every block is enough: the shape in which it is
entered. If the instructions of each block lead from its shape to those of the blocks that control
can go to, then every path enters a block in its shape.
-/

namespace Bytecode

namespace Instr

variable {i : Instr} {dest : Option BlockId} {s s₁ s₂ : Shape}

theorem Advances.unique (h₁ : i.Advances dest s s₁) (h₂ : i.Advances dest s s₂) : s₁ = s₂ := by
  cases h₁ with
  | plain hguard hunguard heffect hheight =>
    cases h₂ with
    | plain _ _ heffect' hheight' =>
      cases heffect.symm.trans heffect'
      congr 1
      omega
    | guard hguard' => exact absurd hguard' hguard
    | unguard hunguard' => exact absurd hunguard' hunguard
  | guard hguard hdest hcut =>
    cases h₂ with
    | plain hguard' => exact absurd hguard hguard'
    | guard _ hdest' hcut' =>
      cases hdest.symm.trans hdest'
      cases hcut.symm.trans hcut'
      rfl
    | unguard hunguard => cases hguard.symm.trans hunguard
  | unguard hunguard =>
    cases h₂ with
    | plain _ hunguard' => exact absurd hunguard hunguard'
    | guard hguard => cases hguard.symm.trans hunguard
    | unguard => rfl

theorem Branches.unique (h₁ : i.Branches s s₁) (h₂ : i.Branches s s₂) : s₁ = s₂ := by
  obtain ⟨e₁, heffect₁, hheight₁, hhandlers₁⟩ := h₁
  obtain ⟨e₂, heffect₂, hheight₂, hhandlers₂⟩ := h₂
  cases heffect₁.symm.trans heffect₂
  obtain ⟨height₁, handlers₁⟩ := s₁
  obtain ⟨height₂, handlers₂⟩ := s₂
  obtain rfl : height₁ = height₂ := by
    have : (height₁ : Int) = height₂ := hheight₁.trans hheight₂.symm
    omega
  rw [show handlers₁ = handlers₂ from hhandlers₁.trans hhandlers₂.symm]

end Instr

/-- The shapes along a run of instructions, given those of the blocks that the instructions refer
to. `atEnd` holds of the shape at the end if control gets there. -/
def Shaped (dest : Instr → Option BlockId) (types : BlockId → Option Shape)
    (atEnd : Shape → Prop) : List Instr → Shape → Prop
  | [], s => atEnd s
  | i :: rest, s =>
    i.Suits s ∧
    (i.op.hasTarget → ∃ target s', dest i = some target ∧ i.Branches s s' ∧
      types target = some s') ∧
    (i.op.fallsThrough → ∀ s', i.Advances (dest i) s s' → Shaped dest types atEnd rest s')

section

variable {dest : Instr → Option BlockId} {types : BlockId → Option Shape} {atEnd : Shape → Prop}
  {i : Instr} {rest : List Instr} {s t u : Shape}

theorem Shaped.plain (hsuits : i.Suits s) (hop : i.op.hasTarget = false)
    (hadvance : i.Advances (dest i) s t) (hrest : Shaped dest types atEnd rest t) :
    Shaped dest types atEnd (i :: rest) s := by
  refine ⟨hsuits, fun h => absurd h (by simp [hop]), fun _ t' ht => ?_⟩
  rw [ht.unique hadvance]
  exact hrest

theorem Shaped.branch {target : BlockId} (hsuits : i.Suits s) (hdest : dest i = some target)
    (hbranch : i.Branches s u) (htype : types target = some u)
    (hadvance : i.Advances (dest i) s t) (hrest : Shaped dest types atEnd rest t) :
    Shaped dest types atEnd (i :: rest) s := by
  refine ⟨hsuits, fun _ => ⟨target, u, hdest, hbranch, htype⟩, fun _ t' ht => ?_⟩
  rw [ht.unique hadvance]
  exact hrest

theorem Shaped.leap {target : BlockId} (hsuits : i.Suits s) (hop : i.op.fallsThrough = false)
    (hdest : dest i = some target) (hbranch : i.Branches s u) (htype : types target = some u) :
    Shaped dest types atEnd (i :: rest) s :=
  ⟨hsuits, fun _ => ⟨target, u, hdest, hbranch, htype⟩, fun h => absurd h (by simp [hop])⟩

theorem Shaped.exit (hsuits : i.Suits s) (hop : i.op.hasTarget = false)
    (hfall : i.op.fallsThrough = false) : Shaped dest types atEnd (i :: rest) s :=
  ⟨hsuits, fun h => absurd h (by simp [hop]), fun h => absurd h (by simp [hfall])⟩

end

namespace Graph

variable {g : Graph} {start : Nat} {types : BlockId → Option Shape} {id : BlockId} {s : Shape}

/-- Every block that has a shape leads to blocks that have theirs. -/
structure Typed (g : Graph) (start : Nat) (types : BlockId → Option Shape) : Prop where
  entry : types g.entry = some ⟨start, []⟩
  shaped : ∀ {id s}, types id = some s → Shaped Instr.target types
    (fun s' => ∃ next, (g.block id).next = some next ∧ types next = some s') (g.block id).instrs s

/-- A path stands in a block where the shape of the block leads to. -/
theorem Typed.visits (hg : g.Typed start types) {is : List Instr} (h : g.Visits start id is s) :
    ∃ pre, (g.block id).instrs = pre ++ is ∧ (pre = [] → types id = some s) ∧
      Shaped Instr.target types
        (fun s' => ∃ next, (g.block id).next = some next ∧ types next = some s') is s := by
  have henter : ∀ {id s}, types id = some s → ∃ pre,
      (g.block id).instrs = pre ++ (g.block id).instrs ∧ (pre = [] → types id = some s) ∧
      Shaped Instr.target types
        (fun s' => ∃ next, (g.block id).next = some next ∧ types next = some s')
        (g.block id).instrs s :=
    fun h => ⟨[], rfl, fun _ => h, hg.shaped h⟩
  induction h with
  | entry => exact henter hg.entry
  | @next id i rest s s' _ hfall hadvance ih =>
    obtain ⟨pre, hinstrs, _, _, _, hrest⟩ := ih
    refine ⟨pre ++ [i], by simp [hinstrs], by simp, hrest hfall s' hadvance⟩
  | @branch id target i rest s s' _ hop htarget hbranch ih =>
    obtain ⟨_, _, _, _, htypes, _⟩ := ih
    obtain ⟨target', s'', htarget', hbranch', htype⟩ := htypes hop
    cases htarget.symm.trans htarget'
    cases hbranch.unique hbranch'
    exact henter htype
  | fall _ hnext ih =>
    obtain ⟨_, _, _, next', hnext', htype⟩ := ih
    cases hnext.symm.trans hnext'
    exact henter htype

theorem Typed.enters (hg : g.Typed start types) (h : g.Visits start id (g.block id).instrs s) :
    types id = some s := by
  obtain ⟨pre, hinstrs, htype, _⟩ := hg.visits h
  exact htype (List.append_left_eq_self.mp hinstrs.symm)

theorem Typed.sound (hg : g.Typed start types) : g.Sound start where
  suits h := by
    obtain ⟨_, _, _, hsuits, _⟩ := hg.visits h
    exact hsuits
  target h hop := by
    obtain ⟨_, _, _, _, htypes, _⟩ := hg.visits h
    obtain ⟨target, s', htarget, hbranch, _⟩ := htypes hop
    exact ⟨Option.isSome_of_eq_some htarget, s', hbranch⟩
  goesOn h := by
    obtain ⟨_, _, _, next, hnext, _⟩ := hg.visits h
    exact Option.isSome_of_eq_some hnext

end Graph

end Bytecode
