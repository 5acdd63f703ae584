import Bytecode.Proofs.Assembly.Arrangement
import Bytecode.Proofs.Machine.Typing
import Bytecode.Proofs.Optimizer.Cold

/-!
# The optimizer keeps the meaning of a program

The passes put together. Whatever they are asked for, the graph that comes out, with its table of
constants, behaves as the graph that went in, if that one is well formed.
-/

namespace Bytecode

open List Result Bytecode.Graph

variable {V W E : Type} {M : Machine V W E} {config : PassConfig} {cs cs' : List Constant}
  {g h : Graph}

/-! ### Handlers that are marked -/

namespace Graph

/-- The layout of a graph has an end, and no instruction of it refers to a block outside. -/
structure Contained (g : Graph) : Prop where
  layout : g.LaysOut g.order
  target : ∀ id ∈ g.order, ∀ i ∈ (g.block id).instrs, ∀ t, i.target = some t → t ∈ g.order

theorem block_markHandlers (g : Graph) {id : BlockId} (hid : id < g.blocks.size) :
    g.markHandlers.block id = { g.block id with isHandler := (g.body.flatMap fun instrs =>
      (instrs.filter (·.op.isBlockPush)).filterMap (·.target)).contains id } := by
  unfold markHandlers
  rw [block_mapIdx, if_pos hid]

theorem sameLinks_markHandlers (g : Graph) : g.SameLinks g.markHandlers := by
  refine ⟨by simp [markHandlers], rfl, fun id => ?_⟩
  unfold markHandlers
  rw [block_mapIdx]
  split_ifs <;> rfl

theorem instrs_markHandlers (g : Graph) (id : BlockId) :
    (g.markHandlers.block id).instrs = (g.block id).instrs := by
  unfold markHandlers
  rw [block_mapIdx]
  split_ifs <;> rfl

/-- Marks of handlers close a graph that is contained in its layout. -/
theorem Contained.closed_markHandlers (hg : g.Contained) : g.markHandlers.Closed := by
  have hlinks := g.sameLinks_markHandlers
  refine .of_laysOut (hlinks.laysOut hg.layout) fun id hid i hi t ht => ?_
  rw [instrs_markHandlers] at hi
  have hmem := hg.target id hid i hi t ht
  refine ⟨hmem, fun hpush => ?_⟩
  rw [g.block_markHandlers (hg.layout.bound t hmem)]
  rw [contains_iff_mem, mem_flatMap]
  refine ⟨(g.block id).instrs, mem_map_of_mem hid, ?_⟩
  exact mem_filterMap.mpr ⟨i, mem_filter.mpr ⟨hi, hpush⟩, ht⟩

end Graph

theorem preserves_markHandlers (g : Graph) (cs : List Constant) :
    M.Preserves ⟨g, cs⟩ ⟨g.markHandlers, cs⟩ := by
  have hlinks := g.sameLinks_markHandlers
  refine Machine.preserves_of_refines (stays_true g) hlinks.entry
    (fun id _ => hlinks.next id) fun id _ => .of_run_eq fun s => ?_
  simp only [Program.instrs, instrs_markHandlers]

/-! ### All passes -/

/-- What the passes may expect of a graph whose labels are resolved: nothing leads out of the
layout, depths and handlers work out on every path, and the constants are there. -/
structure Graph.WellFormed (g : Graph) (cs : List Constant) (start : Nat) : Prop where
  contained : g.Contained
  sound : g.Sound start
  constants : g.FindsConstants start cs

theorem Graph.exists_of_optimizeUnit {g h : Graph} {shape : UnitShape} {cs cs' : List Constant}
    (hopt : g.optimizeUnit config shape cs = .ok (h, cs')) :
    ∃ r labelled first second final, g.resolveLabels = .ok r ∧
      r.markHandlers.labelHandlers = .ok labelled ∧
      (if config.optimize then labelled.optimize config cs else labelled.prune cs) = .ok first ∧
      (let cold := (first.1.checkUnboundLoads shape.localCount shape.paramCount).moveColdToEnd
       if config.optimize then cold.optimize config first.2 else .ok (cold, first.2)) =
        .ok second ∧
      second.1.dropUnusedConstants second.2 = .ok (final, cs') ∧
      h = final.resolveLines shape.firstLine := by
  unfold optimizeUnit at hopt
  obtain ⟨r, hresolve, hopt⟩ := bind_eq_ok.mp hopt
  obtain ⟨labelled, hlabel, hopt⟩ := bind_eq_ok.mp hopt
  cases hconfig : config.optimize
  all_goals
    simp only [hconfig, Bool.false_eq_true, reduceIte] at hopt
    obtain ⟨first, hfirst, hopt⟩ := bind_eq_ok.mp hopt
    obtain ⟨second, hsecond, hopt⟩ := bind_eq_ok.mp hopt
    obtain ⟨final, hfinal, hopt⟩ := bind_eq_ok.mp hopt
    obtain ⟨hh, hcs⟩ := Prod.mk.inj (Except.ok.inj hopt)
    exact ⟨r, labelled, first, second, final.1, hresolve, hlabel, hfirst, hsecond,
      hcs ▸ hfinal, hh.symm⟩

theorem preserves_optimizeUnit {r : Graph} {shape : UnitShape} (hresolve : g.resolveLabels = .ok r)
    (hr : r.Contained) (hopt : g.optimizeUnit config shape cs = .ok (h, cs')) :
    M.Preserves ⟨r, cs⟩ ⟨h, cs'⟩ := by
  obtain ⟨r', labelled, ⟨g₁, cs₁⟩, ⟨g₂, cs₂⟩, g₃, hresolve', hlabel, hfirst, hsecond, hunused,
    hh⟩ := exists_of_optimizeUnit hopt
  cases hresolve.symm.trans hresolve'
  rw [hh]
  have hlabels : M.Annotates r.markHandlers labelled := annotates_labelHandlers hlabel
  have hclosed := hlabels.closed hr.closed_markHandlers
  have hbefore : Program.Becomes ⟨labelled, cs⟩ ⟨g₁, cs₁⟩ := by
    split_ifs at hfirst
    · exact becomes_optimizeRounds hclosed hfirst
    · exact becomes_prune hclosed hfirst
  dsimp only at hsecond hunused
  have hchecks : M.Annotates g₁ (g₁.checkUnboundLoads shape.localCount shape.paramCount) :=
    annotates_checkUnboundLoads ..
  obtain ⟨hclosed', hcold⟩ :=
    preserves_moveColdToEnd (M := M) (hchecks.closed (hbefore.steps.closed hclosed)) cs₁
  generalize (g₁.checkUnboundLoads shape.localCount shape.paramCount).moveColdToEnd = cold
    at hsecond hclosed' hcold
  have hafter : Program.Becomes ⟨cold, cs₁⟩ ⟨g₂, cs₂⟩ := by
    split_ifs at hsecond
    · exact becomes_optimizeRounds hclosed' hsecond
    · cases hsecond
      exact .refl _
  have hpasses : M.Preserves ⟨r.markHandlers, cs⟩ ⟨g₂, cs₂⟩ :=
    ((hlabels.preserves cs).trans (hbefore.preserves M)).trans
      (((hchecks.preserves cs₁).trans hcold).trans (hafter.preserves M))
  exact ((preserves_markHandlers r cs).trans hpasses).trans
    ((preserves_dropUnusedConstants (hafter.steps.closed hclosed') hunused).trans
      (preserves_resolveLines cs' g₃ _))

/-- Whatever the passes are asked for, the graph that comes out behaves with its constants as the
graph that went in with its labels resolved, and neither goes wrong. -/
theorem optimizeUnit_behavesAs {g r h : Graph} {shape : UnitShape} {cs cs' : List Constant}
    (hresolve : g.resolveLabels = .ok r) (hopt : g.optimizeUnit config shape cs = .ok (h, cs'))
    (M : Machine V W E) (s : State V W E) (hr : r.WellFormed cs s.stack.length)
    (hs : s.handlers = []) : M.Safe ⟨r, cs⟩ s ∧ M.BehavesAs ⟨r, cs⟩ ⟨h, cs'⟩ s := by
  have hsafe := M.safe_of_sound hr.sound hr.constants hs
  exact ⟨hsafe, preserves_optimizeUnit hresolve hr.contained hopt s hs hsafe⟩

/-! ### A loop with a handler -/

/-- The stack with values taken off or put on until it has the given height. -/
def resize (stack : List Constant) (height : Nat) : List Constant :=
  List.replicate (height - stack.length) .none ++ stack.drop (stack.length - height)

@[simp] theorem length_resize (stack : List Constant) (height : Nat) :
    (resize stack height).length = height := by
  simp only [resize, length_append, length_replicate, length_drop]
  omega

/-- The result of an operation that only changes the height of the stack by its effect. -/
def heave (stack : List Constant) : Result Int → Except Constant (List Constant)
  | .ok e =>
    if 0 ≤ stack.length + e then .ok (resize stack (stack.length + e).toNat) else .error .none
  | .error _ => .error .none

theorem length_of_heave {stack stack' : List Constant} {r : Result Int} {e : Int}
    (h : heave stack r = .ok stack') (hr : r = .ok e) :
    (stack'.length : Int) = stack.length + e := by
  subst hr
  simp only [heave] at h
  split_ifs at h with hle
  cases h
  rw [length_resize]
  omega

/-- A machine on constants. Its outside does what the effects ask for, and nothing else. -/
def Machine.inert : Machine Constant Unit Unit where
  const := id
  null := .none
  position := .none
  unbound _ := .none
  truthy := Constant.isTruthy
  same a b := a = b
  tuple := .tuple
  unpack n v view := ⟨[], view.locals, view.world,
    match v with
    | .tuple vs => if vs.length = n then .ok vs else .error .none
    | _ => .error .none⟩
  global _ view := ⟨[], view.locals, view.world, .ok .none⟩
  choose op view := ⟨[], view.locals, view.world,
    (heave view.stack (op.effect 0 true)).map fun stack => (true, stack)⟩
  throw _ _ view := ⟨[], view.locals, view.world, .none⟩
  keywords _ view := ⟨[], view.locals, view.world, .ok view.stack⟩
  perform op arg view := ⟨[], view.locals, view.world, heave view.stack (op.effect arg false)⟩
  truthy_const _ := rfl
  tuple_const cs := by simp
  unpack_tuple vs view := by simp
  length_unpack n v view vs h := by
    dsimp only at h
    split at h
    · split_ifs at h with hlength
      cases h
      exact hlength
    · cases h
  length_choose op view taken stack e h he := by
    dsimp only at h
    cases hheave : heave view.stack (op.effect 0 true) with
    | error _ =>
      rw [hheave] at h
      cases h
    | ok stack' =>
      rw [hheave] at h
      cases h
      exact length_of_heave hheave he
  length_keywords v view stack h := by
    cases h
    rfl
  length_perform op arg view stack e h he := length_of_heave h he

/-- The shapes of the blocks of the loop: the iterator stays on the stack, and the handler finds the
exception above it. -/
def Graph.loopShape : BlockId → Option Shape
  | 0 => some ⟨0, []⟩
  | 1 => some ⟨1, []⟩
  | 2 => some ⟨2, []⟩
  | 3 => some ⟨2, []⟩
  | 4 => some ⟨0, []⟩
  | _ => none

theorem Graph.typed_guardedLoop : guardedLoop.Typed 0 loopShape where
  entry := rfl
  shaped {id s} h := by
    match id, h with
    | 0, h =>
      cases h
      apply Shaped.plain (t := ⟨1, []⟩) ⟨rfl, rfl, by decide, by decide⟩ rfl
        (.plain (e := 1) (by decide) (by decide) rfl rfl)
      apply Shaped.plain (t := ⟨1, []⟩) ⟨rfl, rfl, by decide, by decide⟩ rfl
        (.plain (e := 0) (by decide) (by decide) rfl rfl)
      exact ⟨1, rfl, rfl⟩
    | 1, h =>
      cases h
      apply Shaped.branch (s := ⟨1, []⟩) ⟨rfl, rfl, by decide, by decide⟩ rfl ⟨-1, rfl, rfl, rfl⟩
        (u := ⟨0, []⟩) rfl (.plain (e := 1) (by decide) (by decide) rfl rfl) (t := ⟨2, []⟩)
      exact ⟨2, rfl, rfl⟩
    | 2, h =>
      cases h
      apply Shaped.plain (t := ⟨1, []⟩) ⟨rfl, rfl, by decide, by decide⟩ rfl
        (.plain (e := -1) (by decide) (by decide) rfl rfl)
      apply Shaped.branch (s := ⟨1, []⟩) ⟨rfl, rfl, by decide, by decide⟩ rfl ⟨1, rfl, rfl, rfl⟩
        (u := ⟨2, []⟩) rfl (.guard rfl rfl rfl) (t := ⟨1, [⟨3, 1, false⟩]⟩)
      apply Shaped.plain (t := ⟨2, [⟨3, 1, false⟩]⟩) ⟨rfl, rfl, by decide, by decide⟩ rfl
        (.plain (e := 1) (by decide) (by decide) rfl rfl)
      apply Shaped.plain (t := ⟨1, [⟨3, 1, false⟩]⟩) ⟨rfl, rfl, by decide, by decide⟩ rfl
        (.plain (e := -1) (by decide) (by decide) rfl rfl)
      apply Shaped.plain (t := ⟨1, []⟩) ⟨rfl, rfl, by decide, by decide⟩ rfl (.unguard rfl)
      exact Shaped.leap (s := ⟨1, []⟩) ⟨rfl, rfl, by decide, by decide⟩ rfl rfl
        (u := ⟨1, []⟩) ⟨0, rfl, rfl, rfl⟩ rfl
    | 3, h | 4, h =>
      cases h
      exact .exit ⟨rfl, rfl, by decide, by decide⟩ rfl rfl
    | _ + 5, h => cases h

theorem Graph.wellFormed_guardedLoop : guardedLoop.WellFormed [.none] 0 where
  contained := ⟨⟨rfl, ⟨rfl, rfl, rfl, rfl, rfl⟩, by decide, by decide⟩, by decide⟩
  sound := typed_guardedLoop.sound
  constants := findsConstants (by decide)

/-- The loop and what the passes make of it, on a machine that starts with nothing. -/
theorem optimizeUnit_behavesAs_guardedLoop :
    ∃ h cs', guardedLoop.resolveLabels = .ok guardedLoop ∧
      guardedLoop.optimizeUnit {} {} [.none] = .ok (h, cs') ∧
      guardedLoop.WellFormed [.none] 0 ∧
      Machine.inert.BehavesAs ⟨guardedLoop, [.none]⟩ ⟨h, cs'⟩ ⟨[], fun _ => none, [], (), []⟩ := by
  have hresolve : guardedLoop.resolveLabels = .ok guardedLoop := by decide +kernel
  have hok : (guardedLoop.optimizeUnit {} {} [.none]).isOk := by decide +kernel
  obtain ⟨⟨h, cs'⟩, hopt⟩ := Result.exists_of_isOk hok
  exact ⟨h, cs', hresolve, hopt, wellFormed_guardedLoop,
    (optimizeUnit_behavesAs hresolve hopt Machine.inert ⟨[], fun _ => none, [], (), []⟩
      wellFormed_guardedLoop rfl).2⟩

end Bytecode
