import Bytecode.Listing
import Bytecode.Proofs.Graph.Chain
import Bytecode.Proofs.Optimizer.Pipeline
import Bytecode.Proofs.Optimizer.Tidied

/-!
# From a listing to a compact graph

A graph that is built instruction by instruction starts a new block behind every jump and exit. With
its labels resolved and its handlers marked it is regular, and the passes leave it compact.
-/

namespace Bytecode

def ListingItem.real (op : Opcode) (arg line : Nat) : ListingItem :=
  .instr (.real op) arg (.ofLine line)

def ListingItem.pseudo (op : PseudoOp) (arg line : Nat) : ListingItem :=
  .instr (.pseudo op) arg (.ofLine line)

namespace Graph

open List Result

variable {g k r : Graph} {i : Instr} {l : Label} {work : List (BlockId × HandlerStack)}
  {items : List ListingItem} {stack : HandlerStack} {seen : List BlockId}

/-! ### Construction -/

/-- A graph in the middle of its construction. -/
structure Draft (g : Graph) : Prop extends g.Chained where
  bound : ∀ l id, g.labelBlock? l = some id → id < g.blocks.size
  ended : ∀ id, TerminatorsLast (g.block id).instrs
  fresh : ∀ id, ∀ i ∈ (g.block id).instrs, i.target = none ∧ i.handler = none

namespace Draft

theorem empty : ({} : Graph).Draft where
  toChained := .empty
  bound l id hl := by simp [labelBlock?] at hl
  ended id := by rcases id with _ | id <;> exact fun i hi => by cases hi
  fresh id := by rcases id with _ | id <;> exact fun i hi => by cases hi

section

variable (hg : g.Draft)
include hg

theorem instrs_appendBlock (id : BlockId) :
    (g.appendBlock.block id).instrs = (g.block id).instrs := by
  rw [block_appendBlock g hg.size]
  split_ifs with hnew
  · rw [hnew, block_eq_of_size_le g (Nat.le_refl _)]
  · rfl
  · rfl

theorem appendBlock : g.appendBlock.Draft where
  toChained := hg.toChained.appendBlock
  bound l id hl := by
    rw [size_appendBlock]
    exact Nat.lt_succ_of_lt (hg.bound l id hl)
  ended id := by
    rw [hg.instrs_appendBlock]
    exact hg.ended id
  fresh id := by
    rw [hg.instrs_appendBlock]
    exact hg.fresh id

/-- An instruction at the end of a block that goes on. -/
theorem extend (hopen : (g.block g.current).isTerminated = false)
    (hi : i.target = none ∧ i.handler = none) :
    (g.modify g.current fun b => { b with instrs := b.instrs ++ [i] }).Draft where
  toChained := hg.toChained.modify _ fun _ => rfl
  bound l id hl := by
    rw [size_modify]
    exact hg.bound l id hl
  ended id := by
    rw [block_modify]
    split_ifs with hid
    · rw [← hid.1]
      refine .append (fun j hj => ?_) (hg.ended g.current) (by simp [TerminatorsLast])
      simp only [Block.isTerminated, Block.last?, Option.mem_def.mp hj] at hopen
      simpa using hopen
    · exact hg.ended id
  fresh id j hj := by
    rw [block_modify] at hj
    split_ifs at hj
    · rcases mem_append.mp hj with hj | hj
      · exact hg.fresh id j hj
      · exact mem_singleton.mp hj ▸ hi
    · exact hg.fresh id j hj

theorem addInstr (hi : i.target = none ∧ i.handler = none) : (g.addInstr i).Draft := by
  unfold Graph.addInstr
  split_ifs with hopen
  · refine hg.appendBlock.extend ?_ hi
    have hnew := block_appendBlock g hg.size g.blocks.size
    rw [if_pos rfl] at hnew
    show (g.appendBlock.block g.blocks.size).isTerminated = false
    rw [hnew]
    rfl
  · exact hg.extend (by simpa using hopen) hi

theorem nameCurrent (hl : l < g.labels.size) : (g.nameCurrent l).Draft where
  toChained := hg.toChained.nameCurrent l
  bound m id hm := by
    have hsize : (g.nameCurrent l).blocks.size = g.blocks.size := size_modify ..
    rw [labelBlock?_nameCurrent hl] at hm
    rw [hsize]
    split_ifs at hm
    · exact Option.some.inj hm ▸ hg.current_lt
    · exact hg.bound m id hm
  ended id := by
    rw [block_nameCurrent hg.size]
    split_ifs <;> exact hg.ended id
  fresh id := by
    rw [block_nameCurrent hg.size]
    split_ifs <;> exact hg.fresh id

theorem bindLabel (h : g.bindLabel l = .ok k) : k.Draft := by
  obtain ⟨rfl, _⟩ | ⟨hlabel, ⟨_, _, rfl⟩ | rfl⟩ := bindLabel_eq_ok h
  · exact hg
  · exact hg.nameCurrent (label_lt_of_getElem? hlabel)
  · exact hg.appendBlock.nameCurrent (label_lt_of_getElem? hlabel)

theorem addLabel : g.addLabel.1.Draft where
  toChained := ⟨hg.entry, hg.size, hg.next⟩
  bound l id hl := hg.bound l id (g.labelBlock?_addLabel l ▸ hl)
  ended := hg.ended
  fresh := hg.fresh

end

theorem label {b : Numbered} (hb : b.graph.Draft) (number : Nat) :
    (b.label number).1.graph.Draft := by
  unfold Numbered.label
  split
  · exact hb
  · exact hb.addLabel

theorem add {b c : Numbered} {item : ListingItem} (hb : b.graph.Draft) (h : b.add item = .ok c) :
    c.graph.Draft := by
  cases item with
  | label number =>
    obtain ⟨k, hk, h⟩ := bind_eq_ok.mp h
    cases h
    exact (hb.label number).bindLabel hk
  | instr op arg loc =>
    simp only [Numbered.add] at h
    split_ifs at h with hop
    · obtain ⟨k, hk, h⟩ := bind_eq_ok.mp h
      cases h
      unfold addJump at hk
      split_ifs at hk <;> cases hk
      refine Draft.addInstr (hb.label arg) ?_
      exact ⟨rfl, rfl⟩
    · obtain ⟨k, hk, h⟩ := bind_eq_ok.mp h
      cases h
      unfold addOp at hk
      split_ifs at hk
      cases hk
      exact hb.addInstr ⟨rfl, rfl⟩

theorem ofItems {b c : Numbered} (hb : b.graph.Draft) (h : items.foldlM Numbered.add b = .ok c) :
    c.graph.Draft :=
  foldlM_induction (P := fun b => b.graph.Draft) (fun _ _ _ _ hadd hb => hb.add hadd) h hb

/-- What is resolved refers to blocks of the layout. -/
theorem resolved (hg : g.Draft) (h : g.resolveLabels = .ok r) : r.Resolved := by
  have horder := hg.laysOut.order
  obtain ⟨hlinks, hinstrs, _⟩ := mapInstrsM_spec (horder ▸ hg.laysOut.nodup) h
  have hspec : ∀ i j, i.target = none ∧ i.handler = none → g.resolveInstr i = .ok j →
      j.op = i.op ∧ r.Sites j := by
    intro i j ⟨htarget, hhandler⟩ hj
    unfold resolveInstr at hj
    split_ifs at hj with hop
    · simp only [Bool.and_eq_true] at hop
      split at hj
      · rename_i id hid
        cases hj
        refine ⟨rfl, hop.1.symm, fun t ht => ?_, by simp [hhandler]⟩
        rw [hlinks.order, hg.mem_order_iff]
        exact Option.some.inj ht ▸ hg.bound _ id hid
      · cases hj
    · cases hj
      rw [htarget] at hop
      refine ⟨rfl, ?_, by simp [htarget], by simp [hhandler]⟩
      rw [htarget]
      simpa using hop
  have hrelated : ∀ id ∈ g.order, Forall₂ (fun i j => j.op = i.op ∧ r.Sites j)
      (g.block id).instrs (r.block id).instrs := by
    intro id hid
    refine forall₂_iff_get.mpr ?_
    obtain ⟨hlength, hget⟩ := forall₂_iff_get.mp (mapM_eq_ok.mp (hinstrs id hid))
    exact ⟨hlength, fun n h₁ h₂ => hspec _ _ (hg.fresh id _ (getElem_mem _)) (hget n h₁ h₂)⟩
  refine ⟨hlinks.order ▸ hlinks.laysOut (horder ▸ hg.laysOut), fun id hid => ?_,
    fun id hid j hj => ?_⟩
  all_goals rw [hlinks.order] at hid
  · have hends : EndsAs (g.block id).instrs (r.block id).instrs :=
      (hrelated id hid).imp fun i j hij => by
        rw [hij.1]
        exact fun h => h
    exact hends.terminatorsLast (hg.ended id)
  · obtain ⟨i, _, hij⟩ := exists_of_mem_forall₂ (hrelated id hid) hj
    exact hij.2

end Draft

theorem resolved_ofItems (h : ofItems items = .ok g) : g.Resolved := by
  obtain ⟨b, hb, h⟩ := bind_eq_ok.mp h
  exact (Draft.empty.ofItems (b := {}) hb).resolved h

/-! ### Handlers -/

/-- A graph that is resolved already stays as it is. -/
theorem Resolved.relates_resolveLabels (hg : g.Resolved) (h : g.resolveLabels = .ok r) :
    Relates Eq g r := by
  obtain ⟨hlinks, hinstrs, hother⟩ := mapInstrsM_spec hg.layout.nodup h
  have hframes := SameFrames.mapInstrsM h
  refine ⟨hlinks, fun id => by rw [hframes id], fun id => ?_⟩
  by_cases hid : id ∈ g.order
  · have hsame : ∀ i ∈ (g.block id).instrs, g.resolveInstr i = .ok i := by
      intro i hi
      have hrefers := (hg.sites id hid i hi).refers
      rw [resolveInstr, if_neg]
      cases htarget : i.target <;> simp_all
    have hmapM := hinstrs id hid
    rw [Result.mapM_eq_map (F := fun i => i) hsame] at hmapM
    rw [← Except.ok.inj hmapM]
    simp
  · rw [hother id hid]
    exact forall₂_refl _

theorem Resolved.congr (hg : g.Resolved) (h : Relates Eq g r) : r.Resolved := by
  have horder := h.links.order
  have hinstrs := h.instrs_eq
  refine ⟨horder ▸ h.links.laysOut hg.layout, fun id hid => ?_, fun id hid i hi => ?_⟩
  all_goals rw [horder] at hid
  · rw [hinstrs]
    exact hg.ended id hid
  · rw [hinstrs] at hi
    have hsites := hg.sites id hid i hi
    exact ⟨hsites.refers, horder ▸ hsites.target, horder ▸ hsites.handler⟩

theorem Resolved.contained (hg : g.Resolved) : g.Contained :=
  ⟨hg.layout, fun id hid i hi => (hg.sites id hid i hi).target⟩

theorem Resolved.regular_markHandlers (hg : g.Resolved) : g.markHandlers.Regular := by
  have hclosed := hg.contained.closed_markHandlers
  have horder := g.sameLinks_markHandlers.order
  refine ⟨hclosed.layout, fun id hid => ?_, fun id hid i hi => ?_⟩
  · rw [instrs_markHandlers]
    exact hg.ended id (horder ▸ hid)
  · have hadmits := hclosed.admits id hid i hi
    rw [instrs_markHandlers] at hi
    rw [horder] at hid
    have hsites := hg.sites id hid i hi
    exact ⟨⟨hsites.refers, fun t ht => (hadmits t ht).1, horder ▸ hsites.handler⟩,
      fun hop t ht => (hadmits t ht).2 hop⟩

/-- The walk over a block writes only handlers that are on the stack or opened in the block. -/
theorem walkInstrs_inside {O : BlockId → Prop} {is : List Instr} {walk : BlockWalk}
    (h : walkInstrs stack is = .ok walk) (hstack : ∀ t ∈ stack, O t)
    (his : ∀ i ∈ is, ∀ t, i.target = some t → O t) :
    (∀ j ∈ walk.instrs, ∀ t, j.handler = some t → O t) ∧ (∀ t ∈ walk.stack, O t) ∧
      ∀ x ∈ walk.found, O x.1 ∧ ∀ t ∈ x.2, O t := by
  induction is generalizing stack walk with
  | nil =>
    cases h
    exact ⟨by simp, hstack, by simp⟩
  | cons i is ih =>
    obtain ⟨hi, his⟩ := forall_mem_cons.mp his
    obtain ⟨rest, j, hrest, _, hhandler, hwalk, hend, hfound⟩ := walkInstrs_cons h
    obtain ⟨hinstrs, hstack', hfound'⟩ := ih hrest (Instr.forall_mem_handlersAfter hstack hi) his
    refine ⟨hwalk ▸ forall_mem_cons.mpr ⟨fun t ht => ?_, hinstrs⟩, hend ▸ hstack', ?_⟩
    · exact Instr.forall_mem_handlersAt hstack t (mem_of_head? (hhandler ▸ ht))
    · rcases hfound with ⟨_, hfound⟩ | ⟨t, _, ht, hfound⟩ <;> rw [hfound]
      · exact hfound'
      · exact forall_mem_cons.mpr ⟨⟨hi t ht, hstack⟩, hfound'⟩

theorem mem_enqueue {found : List (BlockId × HandlerStack)} {x : BlockId × HandlerStack}
    (hx : x ∈ (enqueue found work seen).1) : x ∈ found ∨ x ∈ work := by
  induction found generalizing work seen with
  | nil => exact .inr hx
  | cons y found ih =>
    obtain ⟨id, stack⟩ := y
    rw [enqueue] at hx
    split_ifs at hx
    · exact (ih hx).imp_left (mem_cons_of_mem _)
    · rcases ih hx with hx | hx
      · exact .inl (mem_cons_of_mem _ hx)
      · rcases mem_cons.mp hx with rfl | hx
        · exact .inl mem_cons_self
        · exact .inr hx

theorem relates_keepers (ids : List BlockId) (g : Graph) : Relates Eq g
    (ids.foldl (fun h k => h.modify k fun b => { b with keepsPosition := true }) g) := by
  refine .foldl (fun h id => ?_) ids g
  exact .modify id (fun _ => rfl) (fun _ => rfl) (forall₂_refl _)

def walkOn (g : Graph) (id : BlockId) (walk : BlockWalk) : Graph :=
  walk.keepers.foldl (fun h k => h.modify k fun b => { b with keepsPosition := true })
    (g.setInstrs id walk.instrs)

/-- The blocks that the walk over a block leads to, with their stacks. -/
def foundFrom (g : Graph) (id : BlockId) (walk : BlockWalk) : List (BlockId × HandlerStack) :=
  walk.found ++ (g.fallthrough? id).toList.map fun next => (next, walk.stack)

theorem walkBlocks_cons (fuel : Nat) (id : BlockId) (stack : HandlerStack)
    (work : List (BlockId × HandlerStack)) (seen : List BlockId) (g : Graph) :
    walkBlocks (fuel + 1) ((id, stack) :: work) seen g =
      walkInstrs stack (g.block id).instrs >>= fun walk =>
        let next := enqueue ((g.walkOn id walk).foundFrom id walk) work seen
        walkBlocks fuel next.1 next.2 (g.walkOn id walk) := rfl

/-- The walk over a block keeps a graph regular, and leads to blocks of the layout only. -/
theorem Regular.walkOn {id : BlockId} {walk : BlockWalk} (hg : g.Regular) (hid : id ∈ g.order)
    (hstack : ∀ t ∈ stack, t ∈ g.order) (hwalk : walkInstrs stack (g.block id).instrs = .ok walk) :
    (g.walkOn id walk).Regular ∧ (g.walkOn id walk).order = g.order ∧
      ∀ x ∈ (g.walkOn id walk).foundFrom id walk, x.1 ∈ g.order ∧ ∀ t ∈ x.2, t ∈ g.order := by
  obtain ⟨hinstrs, hend, hfound⟩ := walkInstrs_inside (O := (· ∈ g.order)) hwalk hstack
    fun i hi => (hg.holds id hid i hi).target
  have hlabels : Relates Instr.Labels g (g.setInstrs id walk.instrs) :=
    .setInstrs id (labels_walkInstrs hwalk)
  have hset : (g.setInstrs id walk.instrs).Regular := by
    refine hg.of_alike (hlabels.mono fun _ _ => Instr.Labels.alike) fun j hj i hi => ?_
    rw [block_setInstrs] at hi
    split_ifs at hi
    · exact hinstrs i hi
    · exact (hg.holds j hj i hi).handler
  have hkeep : Relates Eq (g.setInstrs id walk.instrs) (g.walkOn id walk) :=
    relates_keepers walk.keepers _
  have hregular := hset.of_eq hkeep
  have horder : (g.walkOn id walk).order = g.order := hkeep.links.order.trans hlabels.links.order
  refine ⟨hregular, horder, fun x hx => ?_⟩
  rcases mem_append.mp hx with hx | hx
  · exact hfound x hx
  · obtain ⟨next, hnext, rfl⟩ := mem_map.mp hx
    refine ⟨?_, hend⟩
    rw [← horder]
    exact hregular.closed.next_mem (horder ▸ hid)
      (fallthrough?_eq_some.mp (Option.mem_toList.mp hnext)).2

theorem Regular.walkBlocks {fuel : Nat} (hg : g.Regular)
    (hwork : ∀ x ∈ work, x.1 ∈ g.order ∧ ∀ t ∈ x.2, t ∈ g.order)
    (h : walkBlocks fuel work seen g = .ok k) : k.Regular := by
  induction fuel generalizing g work seen with
  | zero =>
    cases h
    exact hg
  | succ fuel ih =>
    cases work with
    | nil =>
      cases h
      exact hg
    | cons x work =>
      obtain ⟨id, stack⟩ := x
      obtain ⟨⟨hid, hstack⟩, hwork⟩ := forall_mem_cons.mp hwork
      obtain ⟨walk, hwalk, h⟩ := bind_eq_ok.mp ((walkBlocks_cons ..).symm.trans h)
      obtain ⟨hregular, horder, hfound⟩ := hg.walkOn hid hstack hwalk
      refine ih hregular (fun x hx => ?_) h
      rw [horder]
      rcases mem_enqueue hx with hx | hx
      · exact hfound x hx
      · exact hwork x hx

theorem Regular.labelHandlers (hg : g.Regular) (h : g.labelHandlers = .ok k) : k.Regular := by
  have hstart := hg.of_eq (relates_forgetPositions g)
  refine hstart.walkBlocks (forall_mem_singleton.mpr ⟨?_, by simp⟩) h
  exact hstart.layout.entry_mem

/-! ### All passes -/

variable {config : PassConfig} {shape : UnitShape} {cs cs' : List Constant}

theorem Regular.tidied_optimize (hg : g.Regular) (h : g.optimize config cs = .ok (k, cs')) :
    k.Tidied :=
  ⟨hg.steps (becomes_optimizeRounds hg.closed h).steps, hg.optimizeRounds h⟩

theorem Tidied.checkUnboundLoads (hg : g.Tidied) (localCount paramCount : Nat) :
    (g.checkUnboundLoads localCount paramCount).Tidied :=
  hg.of_alike (relates_checkUnboundLoads g localCount paramCount) fun _ _ => Instr.Checks.alike

/-- The graphs between the passes on a scope, from the one with resolved labels on. -/
structure Stages (shape : UnitShape) (r labelled first second final k : Graph) : Prop where
  labels : r.markHandlers.labelHandlers = .ok labelled
  regular : labelled.Regular
  early : labelled.Steps first
  tidiedFirst : first.Tidied
  late : (first.checkUnboundLoads shape.localCount shape.paramCount).moveColdToEnd.Steps second
  tidiedSecond : second.Tidied
  constants : Relates Instr.Renumbers second final
  tidiedFinal : final.Tidied
  lines : k = final.resolveLines shape.firstLine

theorem Resolved.exists_stages (hr : r.Resolved) (hlabels : g.resolveLabels = .ok r)
    (h : g.optimizeUnit config shape cs = .ok (k, cs')) :
    ∃ labelled first second final, Stages shape r labelled first second final k := by
  obtain ⟨r', labelled, first, second, final, hr', hlabelled, hfirst, hsecond, hfinal, hk⟩ :=
    exists_of_optimizeUnit h
  obtain rfl : r = r' := Except.ok.inj (hlabels.symm.trans hr')
  have hregular : labelled.Regular := hr.regular_markHandlers.labelHandlers hlabelled
  have hround : labelled.Steps first.1 ∧ first.1.Tidied := by
    split_ifs at hfirst
    · exact ⟨(becomes_optimizeRounds hregular.closed hfirst).steps, hregular.tidied_optimize hfirst⟩
    · have hsteps := (becomes_prune hregular.closed hfirst).steps
      exact ⟨hsteps, hregular.steps hsteps, hregular.prune hfirst⟩
  have hmoved := (hround.2.checkUnboundLoads shape.localCount shape.paramCount).moveColdToEnd
  have hagain : (first.1.checkUnboundLoads shape.localCount
      shape.paramCount).moveColdToEnd.Steps second.1 ∧ second.1.Tidied := by
    dsimp only at hsecond
    split_ifs at hsecond
    · exact ⟨(becomes_optimizeRounds hmoved.regular.closed hsecond).steps,
        hmoved.regular.tidied_optimize hsecond⟩
    · cases hsecond
      exact ⟨.refl, hmoved⟩
  exact ⟨labelled, first.1, second.1, final, hlabelled, hregular, hround.1, hround.2, hagain.1,
    hagain.2, relates_dropUnusedConstants hfinal, hagain.2.dropUnusedConstants hfinal, hk⟩

theorem Resolved.tidied_optimizeUnit (hg : g.Resolved)
    (h : g.optimizeUnit config shape cs = .ok (k, cs')) : k.Tidied := by
  obtain ⟨r, hlabels, _⟩ := bind_eq_ok.mp h
  obtain ⟨_, _, _, _, hstages⟩ :=
    (hg.congr (hg.relates_resolveLabels hlabels)).exists_stages hlabels h
  exact hstages.lines ▸ hstages.tidiedFinal.resolveLines shape.firstLine

theorem Silent.instrCount (hg : g.Silent) : g.instrCount = 0 := by
  rw [Graph.instrCount, length_eq_zero_iff, flatten_eq_nil_iff]
  intro is his
  obtain ⟨id, hid, rfl⟩ := mem_map.mp his
  exact hg id hid

/-- Whatever the listing, if it is a graph and the passes finish, then no instruction is left or the
graph is compact. -/
theorem compact_optimizeUnit_ofItems {items : List ListingItem} (hitems : ofItems items = .ok g)
    (h : g.optimizeUnit config shape cs = .ok (k, cs')) : k.instrCount = 0 ∨ k.Compact :=
  ((resolved_ofItems hitems).tidied_optimizeUnit h).rest.imp_left Silent.instrCount

/-- Two tests, one of them under a handler, that leave by the same return. -/
def sharedReturn : List ListingItem :=
  [.real .loadName 0 1, .pseudo .popJumpIfFalse 1 1, .pseudo .setupFinally 2 2, .real .loadName 1 2,
   .pseudo .popBlock 0 2, .pseudo .popJumpIfFalse 1 2, .real .returnConst 0 3, .label 2,
   .instr (.real .pushExcInfo) 0 .none, .instr (.real .reraise) 0 .none, .label 1,
   .instr (.real .returnConst) 0 .none]

theorem compact_optimizeUnit_sharedReturn : ∃ g h cs', ofItems sharedReturn = .ok g ∧
    g.optimizeUnit {} {} [.none] = .ok (h, cs') ∧ h.instrCount ≠ 0 ∧ h.Compact := by
  have hok : (ofItems sharedReturn >>= fun g => g.optimizeUnit {} {} [.none]).toOption.any
      (·.1.instrCount ≠ 0) := by decide +kernel
  obtain ⟨⟨h, cs'⟩, hrun, hcount⟩ := Result.exists_of_any hok
  obtain ⟨g, hitems, hopt⟩ := Result.bind_eq_ok.mp hrun
  have hne : h.instrCount ≠ 0 := by simpa using hcount
  exact ⟨g, h, cs', hitems, hopt, hne, (compact_optimizeUnit_ofItems hitems hopt).resolve_left hne⟩

end Graph

end Bytecode
