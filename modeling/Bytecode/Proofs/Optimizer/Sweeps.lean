import Bytecode.Graph.Optimize
import Bytecode.Proofs.Optimizer.Threading

/-!
# Sweeps

The passes over all blocks of a graph, and the rounds that they are put together to, make steps that
keep the behaviour of the program.
-/

namespace Bytecode

open List Result Program

variable {g h k : Graph} {id : BlockId} {ids pre : List BlockId} {referenced : Array Bool}
  {I : Graph → Prop} {cs cs' : List Constant} {is : List Instr}

/-! ### Copies, jumps and idle instructions -/

/-- A sweep over the layout that changes no link becomes what its visits become. -/
theorem becomes_foldl {step : Graph → BlockId → Graph}
    (hstep : ∀ (h : Graph) (id : BlockId), id ∈ h.order →
      h.SameLinks (step h id) ∧ Becomes ⟨h, cs⟩ ⟨step h id, cs⟩) (hids : ids ⊆ g.order) :
    Becomes ⟨g, cs⟩ ⟨ids.foldl step g, cs⟩ := by
  induction ids generalizing g with
  | nil => exact .refl _
  | cons id ids ih =>
    obtain ⟨hid, hids⟩ := cons_subset.mp hids
    obtain ⟨hlinks, hbecomes⟩ := hstep g id hid
    exact hbecomes.trans (ih (hlinks.order ▸ hids))

theorem Graph.fst_copyExitsOnce (g : Graph) (maxSize : Nat) :
    (g.copyExitsOnce maxSize).1 = g.order.foldl (fun h id => h.copyExit maxSize id) g := by
  suffices h : ∀ (ids : List BlockId) (h : Graph × Bool),
      (ids.foldl (fun h id => (h.1.copyExit maxSize id,
        h.2 || (h.1.exitToCopy? maxSize id).isSome)) h).1 =
      ids.foldl (fun h id => h.copyExit maxSize id) h.1 from h g.order (g, false)
  intro ids
  induction ids with
  | nil => exact fun _ => rfl
  | cons id ids ih => exact fun _ => ih _


theorem becomes_copyExitSweeps (maxSize passes : Nat) (g : Graph) (cs : List Constant) :
    Becomes ⟨g, cs⟩ ⟨g.copyExitSweeps maxSize passes, cs⟩ := by
  induction passes generalizing g with
  | zero => exact .refl _
  | succ passes ih =>
    have honce : Becomes ⟨g, cs⟩ ⟨(g.copyExitsOnce maxSize).1, cs⟩ := by
      rw [Graph.fst_copyExitsOnce]
      exact becomes_foldl (fun h id hid => ⟨h.sameLinks_copyExit maxSize id,
        .copyExit hid maxSize cs⟩) (List.Subset.refl _)
    rw [Graph.copyExitSweeps]
    split
    · rename_i h heq
      rw [heq] at honce
      exact honce.trans (ih h)
    · rename_i h heq
      rw [heq] at honce
      exact honce

theorem becomes_dropNopsAt (hid : id ∈ g.order) (cs : List Constant) :
    Becomes ⟨g, cs⟩ ⟨g.dropNopsAt id, cs⟩ :=
  .thin hid (thinned_dropNops _ _) cs

theorem becomes_dropAllNops (g : Graph) (cs : List Constant) :
    Becomes ⟨g, cs⟩ ⟨g.dropAllNops, cs⟩ :=
  becomes_foldl (fun _ id hid => ⟨.setInstrs id _, becomes_dropNopsAt hid cs⟩) (List.Subset.refl _)

theorem becomes_dropRedundantJumps (g : Graph) (cs : List Constant) :
    Becomes ⟨g, cs⟩ ⟨g.dropRedundantJumps, cs⟩ := by
  refine becomes_foldl (fun h id hid => ?_) (List.Subset.refl _)
  split_ifs with hjump
  · exact ⟨.modify id fun b => b.next_modifyLast _, .idleJump hid hjump cs⟩
  · exact ⟨.refl h, .refl _⟩

/-! ### Blocks that are referred to -/

namespace Graph

/-- Every block that an instruction refers to is marked. -/
def Marks (g : Graph) (referenced : Array Bool) : Prop :=
  ∀ id ∈ g.order, ∀ i ∈ (g.block id).instrs, ∀ t, i.target = some t ∨ i.handler = some t →
    t < g.blocks.size → referenced.getD t false

theorem getD_foldl_mark {ids : List BlockId} {marks : Array Bool} {t : BlockId}
    (ht : t < marks.size) (h : t ∈ ids ∨ marks.getD t false) :
    (ids.foldl (fun marks id => marks.setIfInBounds id true) marks).getD t false := by
  induction ids generalizing marks with
  | nil => simpa using h
  | cons id ids ih =>
    refine ih (by simpa using ht) ?_
    by_cases heq : t = id
    · subst heq
      right
      simp [Array.getD, ht]
    · rcases h with h | h
      · exact .inl (by simpa [heq] using h)
      · right
        simp only [Array.getD, Array.size_setIfInBounds, ht, ↓reduceDIte,
          Array.getInternal_eq_getElem] at h ⊢
        rwa [Array.getElem_setIfInBounds_ne _ (Ne.symm heq)]

theorem marks_referenced (g : Graph) : g.Marks g.referenced := by
  intro id hid i hi t ht hlt
  refine getD_foldl_mark (by simpa using hlt) (.inl ?_)
  refine mem_flatMap.mpr ⟨(g.block id).instrs, mem_map.mpr ⟨id, hid, rfl⟩, ?_⟩
  refine mem_flatMap.mpr ⟨i, hi, ?_⟩
  rcases ht with ht | ht <;> simp [ht]

namespace Marks

variable (hg : g.Marks referenced)
include hg

theorem unreferenced (hid : id < g.blocks.size) (hmark : referenced.getD id false = false) :
    g.Unreferenced id := by
  intro j hj i hi
  constructor
  all_goals
    intro ht
    have hmarked := hg j hj i hi id (by simp [ht]) hid
    rw [hmark] at hmarked
    cases hmarked

theorem hidden (hid : id < g.blocks.size) (hmark : referenced.getD id false = false)
    (hhandler : (g.block id).isHandler = false) : g.Private id :=
  ⟨fun j hj i hi => (hg.unreferenced hid hmark j hj i hi).1, hhandler⟩

theorem setInstrs (his : ∀ j ∈ is, ∀ t, j.target = some t ∨ j.handler = some t →
    t < g.blocks.size → referenced.getD t false) : (g.setInstrs id is).Marks referenced := by
  intro a ha j hj t ht hlt
  rw [(SameLinks.setInstrs id is).order] at ha
  rw [size_setInstrs] at hlt
  rw [block_setInstrs] at hj
  split_ifs at hj
  exacts [his j hj t ht hlt, hg a ha j hj t ht hlt]

theorem edit (hid : id ∈ g.order) (h : Edits (g.block id).instrs is) :
    (g.setInstrs id is).Marks referenced :=
  hg.setInstrs (h.forall_mem (fun hij hi t ht =>
    hi t (ht.imp hij.target_eq fun ht => hij.handler_eq ▸ ht)) (hg id hid))

theorem thin (hid : id ∈ g.order) (h : Thinned (g.block id).instrs is) :
    (g.setInstrs id is).Marks referenced :=
  hg.setInstrs (h.forall_mem (fun _ _ hi => hi) (hg id hid))

theorem absorb {post : List BlockId} {next : BlockId} (hj : g.Joint pre id next post)
    (hc : g.Closed) : (g.absorb id next).Marks referenced := by
  intro j hmem i hi t ht hlt
  rw [(hj.laysOut hc).order] at hmem
  obtain ⟨k, hk, hi⟩ := hj.mem_instrs hc hmem hi
  exact hg k hk i hi t ht (by simpa [Graph.absorb] using hlt)

end Marks

/-- The second graph has other instructions in some blocks, none of which refers to a block that is
not marked, and behaves as the first. -/
structure Reworks (cs : List Constant) (g h : Graph) : Prop where
  becomes : Becomes ⟨g, cs⟩ ⟨h, cs⟩
  links : g.SameLinks h
  handler : ∀ id, (h.block id).isHandler = (g.block id).isHandler
  marks : ∀ {referenced}, g.Marks referenced → h.Marks referenced

namespace Reworks

theorem refl (cs : List Constant) (g : Graph) : Reworks cs g g :=
  ⟨.refl _, .refl g, fun _ => rfl, id⟩

theorem trans (hg : Reworks cs g h) (hh : Reworks cs h k) : Reworks cs g k where
  becomes := hg.becomes.trans hh.becomes
  links := hg.links.trans hh.links
  handler id := (hh.handler id).trans (hg.handler id)
  marks := hh.marks ∘ hg.marks

theorem setInstrs (h : Becomes ⟨g, cs⟩ ⟨g.setInstrs id is, cs⟩)
    (hmarks : ∀ {referenced}, g.Marks referenced → (g.setInstrs id is).Marks referenced) :
    Reworks cs g (g.setInstrs id is) :=
  ⟨h, .setInstrs id is, fun a => by rw [SameFrames.setInstrs id is a], hmarks⟩

end Reworks

/-! ### Pairs -/

/-- The pair becomes idle by two edits. -/
theorem reworks_idleAcross {b : BlockId} {mid : List BlockId} (h : Straddle g b mid id)
    (hg : g.Closed) (cs : List Constant) : Reworks cs g (g.idleAcross b id) := by
  obtain ⟨is, i, j, js, hpush, hi, hpop, hj, heq⟩ := h.exists_instrs
  have hb := h.mem b (by simp)
  have hlinks : g.SameLinks (g.setInstrs b (is ++ [i.toNop])) := .setInstrs _ _
  have hid : id ∈ (g.setInstrs b (is ++ [i.toNop])).order := hlinks.order ▸ h.mem id (by simp)
  have hfirst : Edits (g.block b).instrs (is ++ [i.toNop]) := by
    rw [hpush]
    exact .recast (rel_append (Recasts.refl_list is)
      (.cons (.toNop (.inl (i.isPlain_of_isPurePush hi))) .nil))
  have hsecond : Edits ((g.setInstrs b (is ++ [i.toNop])).block id).instrs (j.toNop :: js) := by
    rw [block_setInstrs_of_ne _ _ h.ne, hpop]
    exact .recast (.cons (.toNop (.inl (by rw [hj]; rfl))) (Recasts.refl_list js))
  refine ⟨⟨?_, fun _ _ _ _ => h.preserves hg cs⟩, ?_, fun a => ?_, fun hmarks => ?_⟩ <;>
    simp only [heq]
  · exact .head (.put hb (.edit hfirst)) (.single (.put hid (.edit hsecond)))
  · exact hlinks.trans (.setInstrs _ _)
  · rw [(SameFrames.setInstrs b _).trans (.setInstrs id _) a]
  · exact (hmarks.edit hb hfirst).edit hid hsecond

namespace PairSweep

variable {referenced : Array Bool} {s : PairSweep} {done rest : List BlockId} {id : BlockId}

/-- In the middle of a sweep, after the blocks in `done`: control that gets to the end of these
comes from the carried block, through empty private ones. -/
structure Ready (referenced : Array Bool) (s : PairSweep) (done : List BlockId) : Prop where
  closed : s.graph.Closed
  marks : s.graph.Marks referenced
  carry : ∀ b, s.carry = some b → ∃ pre mid, done = pre ++ b :: mid ∧ ∀ m ∈ mid,
    (s.graph.block m).instrs = [] ∧ referenced.getD m false = false ∧
      (s.graph.block m).isHandler = false

/-- What a visit may pair the start of a block with. -/
theorem straddle_of_carry (hg : g.Closed) (hmarks : g.Marks referenced) {pre mid : List BlockId}
    {b : BlockId} (horder : g.order = (pre ++ b :: mid) ++ id :: rest)
    (hmid : ∀ m ∈ mid, (g.block m).instrs = [] ∧ referenced.getD m false = false ∧
      (g.block m).isHandler = false) (hid : referenced.getD id false = false)
    (hhandler : (g.block id).isHandler = false) (hpair : g.pairsAcross b id) :
    Straddle g b mid id := by
  have horder' : g.order = pre ++ b :: (mid ++ id :: rest) := by simpa using horder
  have hnodup : (b :: (mid ++ [id])).Nodup := by
    refine List.Nodup.sublist ?_ hg.layout.nodup
    rw [horder']
    exact sublist_append_of_sublist_right (by simp)
  have hmem : ∀ j ∈ b :: (mid ++ [id]), j ∈ g.order := by
    intro j hj
    rw [horder']
    simp only [mem_cons, mem_append] at hj ⊢
    tauto
  have hlt : ∀ j ∈ mid ++ [id], j < g.blocks.size := fun j hj =>
    hg.layout.bound j (hmem j (mem_cons_of_mem b hj))
  simp only [pairsAcross, Bool.and_eq_true, Option.any_eq_true, decide_eq_true_eq] at hpair
  obtain ⟨⟨i, hlast, hpush⟩, j, hhead, hpop⟩ := hpair
  refine ⟨(horder' ▸ hg.layout.linked).passes, hnodup, hmem, fun m hm => (hmid m hm).1,
    fun m hm => ?_, ⟨_, i, Block.instrs_of_last? hlast, hpush⟩, ?_⟩
  · rcases mem_append.mp hm with hm | hm
    · exact hmarks.hidden (hlt m (by simp [hm])) (hmid m hm).2.1 (hmid m hm).2.2
    · obtain rfl : m = id := by simpa using hm
      exact hmarks.hidden (hlt m (by simp)) hid hhandler
  · obtain ⟨is, his⟩ := head?_eq_some_iff.mp hhead
    exact ⟨j, is, his, hpop⟩

theorem visit_spec (cs : List Constant) (hs : s.Ready referenced done)
    (horder : s.graph.order = done ++ id :: rest) :
    Reworks cs s.graph (s.visit referenced id).graph ∧
      (s.visit referenced id).Ready referenced (done ++ [id]) := by
  unfold visit
  dsimp only
  have hid : id ∈ s.graph.order := by simp [horder]
  have hthin := thinned_dropNops (s.graph.lineAfter id) (s.graph.block id).instrs
  have hfirst : Reworks cs s.graph (s.graph.dropNopsAt id) :=
    .setInstrs (becomes_dropNopsAt hid cs) fun hmarks => hmarks.thin hid hthin
  have hkeep : ∀ m, m ≠ id → (s.graph.dropNopsAt id).block m = s.graph.block m :=
    fun m hm => block_setInstrs_of_ne _ _ (Ne.symm hm)
  generalize s.graph.dropNopsAt id = g at hfirst hkeep ⊢
  have hg := hfirst.becomes.steps.closed hs.closed
  have hmarks := hfirst.marks hs.marks
  rw [← hfirst.links.order] at horder hid
  have hnotin : id ∉ done := fun h =>
    (nodup_append.mp (horder ▸ hg.layout.nodup)).2.2 id h id (by simp) rfl
  -- What is still carried when the block is entered.
  have hcarry : ∀ b, (if referenced.getD id false || (g.block id).isHandler then none
      else s.carry) = some b → referenced.getD id false = false ∧ (g.block id).isHandler = false ∧
        ∃ pre mid, done = pre ++ b :: mid ∧ ∀ m ∈ mid, (g.block m).instrs = [] ∧
          referenced.getD m false = false ∧ (g.block m).isHandler = false := by
    intro b hb
    split_ifs at hb with hpriv
    obtain ⟨hr, hh⟩ : referenced.getD id false = false ∧ (g.block id).isHandler = false := by
      simpa using hpriv
    obtain ⟨pre, mid, rfl, hmid⟩ := hs.carry b hb
    refine ⟨hr, hh, pre, mid, rfl, fun m hm => ?_⟩
    rw [hkeep m fun he => hnotin (by simp [← he, hm])]
    exact hmid m hm
  generalize (if referenced.getD id false || (g.block id).isHandler then none else s.carry) = carry
    at hcarry ⊢
  -- The pair across blocks, if there is one.
  have hacross : ∃ h, (carry.filter fun b => g.pairsAcross b id).elim g
      (fun b => g.idleAcross b id) = h ∧ Reworks cs g h ∧
        ∀ pre b mid, carry = some b → done = pre ++ b :: mid → ∀ m ∈ mid,
          h.block m = g.block m := by
    refine ⟨_, rfl, ?_⟩
    cases hf : carry.filter fun b => g.pairsAcross b id with
    | none => exact ⟨.refl cs g, fun _ _ _ _ _ _ _ => rfl⟩
    | some b =>
      obtain ⟨hb, hpair⟩ := Option.filter_eq_some_iff.mp hf
      obtain ⟨hr, hh, pre, mid, hdone, hmid⟩ := hcarry b hb
      have hstraddle := straddle_of_carry hg hmarks (hdone ▸ horder) hmid hr hh hpair
      refine ⟨reworks_idleAcross hstraddle hg cs, fun pre' b' mid' hb' hdone' m hm => ?_⟩
      obtain rfl : b = b' := Option.some.inj (hb.symm.trans hb')
      have hdistinct : (pre' ++ b :: mid').Nodup := by
        rw [← hdone']
        exact (nodup_append.mp (horder ▸ hg.layout.nodup)).1
      refine Straddle.block_other (fun he => ?_) fun he => hnotin (by simp [← he, hdone', hm])
      have := (nodup_cons.mp (nodup_append.mp hdistinct).2.1).1
      exact this (he ▸ hm)
  obtain ⟨h, hh, hsecond, hkeep'⟩ := hacross
  rw [hh]
  rw [← hsecond.links.order] at hid
  have hthird : Reworks cs h (h.setInstrs id (cancelPairs (h.block id).instrs)) :=
    have hcancel := rewrites_cancelPairs cs (h.block id).instrs
    .setInstrs (.rewrite hid List.prefix_rfl hcancel) fun hmarks => hmarks.edit hid hcancel.edits
  have hall := hsecond.trans hthird
  refine ⟨hfirst.trans hall, hall.becomes.steps.closed hg, hall.marks hmarks, fun b hb => ?_⟩
  dsimp only at hb ⊢
  split_ifs at hb with _ hempty
  · -- The block is empty, and what was carried goes on.
    obtain ⟨hr, hhandler, pre, mid, hdone, hmid⟩ := hcarry b hb
    refine ⟨pre, mid ++ [id], by simp [hdone], fun m hm => ?_⟩
    rcases mem_append.mp hm with hm | hm
    · have hne : id ≠ m := fun he => hnotin (by simp [he, hdone, hm])
      rw [block_setInstrs_of_ne _ _ hne, hkeep' pre b mid hb hdone m hm]
      exact hmid m hm
    · obtain rfl : m = id := by simpa using hm
      refine ⟨?_, hr, (hall.handler m).trans hhandler⟩
      rw [block_setInstrs, List.isEmpty_iff.mp hempty]
      split_ifs
      · rfl
      · exact List.isEmpty_iff.mp hempty
  · exact ⟨done, [], by simp [Option.some.inj hb], by simp⟩

theorem foldl_visit_spec (cs : List Constant) (hs : s.Ready referenced done)
    (horder : s.graph.order = done ++ rest) :
    Reworks cs s.graph (rest.foldl (visit referenced) s).graph := by
  induction rest generalizing s done with
  | nil => exact .refl cs _
  | cons id rest ih =>
    obtain ⟨hfirst, hs'⟩ := visit_spec cs hs horder
    refine hfirst.trans (ih hs' ?_)
    rw [hfirst.links.order, horder, append_assoc, singleton_append]

end PairSweep

end Graph

theorem becomes_dropNopsAndPairs (hg : g.Closed) (cs : List Constant) :
    Becomes ⟨g, cs⟩ ⟨g.dropNopsAndPairs, cs⟩ := by
  suffices h : ∀ (referenced : Array Bool) (fuel : Nat) {g : Graph}, g.Closed → g.Marks referenced →
      Becomes ⟨g, cs⟩ ⟨g.cancelSweeps referenced fuel, cs⟩ from
    h _ _ hg g.marks_referenced
  intro referenced fuel
  induction fuel with
  | zero => exact fun _ _ => .refl _
  | succ fuel ih =>
    intro g hg hmarks
    have hready : Graph.PairSweep.Ready referenced ⟨g, none, false⟩ [] := ⟨hg, hmarks, nofun⟩
    have hsweep := Graph.PairSweep.foldl_visit_spec cs hready rfl
    rw [Graph.cancelSweeps]
    split_ifs
    · exact hsweep.becomes.trans (ih (hsweep.becomes.steps.closed hg) (hsweep.marks hmarks))
    · exact hsweep.becomes

/-! ### Blocks that leave the layout -/

theorem becomes_dropUnreachable (hg : g.Closed) (h : g.dropUnreachable = .ok k)
    (cs : List Constant) : Becomes ⟨g, cs⟩ ⟨k, cs⟩ :=
  .trans ⟨.single (.clear g), fun _ _ _ _ => preserves_clear hg cs⟩ (.dropEmpty hg.clear h cs)

theorem becomes_tidy {fuel : Nat} (hg : g.Closed) (h : g.tidy fuel = .ok k) (cs : List Constant) :
    Becomes ⟨g, cs⟩ ⟨k, cs⟩ := by
  induction fuel generalizing g with
  | zero =>
    obtain rfl := Except.ok.inj h
    exact .refl _
  | succ fuel ih =>
    obtain ⟨b, hdrop, h⟩ := bind_eq_ok.mp h
    have hnops := becomes_dropAllNops g cs
    have hfirst : Becomes ⟨g, cs⟩ ⟨b, cs⟩ :=
      hnops.trans (.dropEmpty (hnops.steps.closed hg) hdrop cs)
    split_ifs at h
    · have hnext := hfirst.trans (becomes_dropRedundantJumps b cs)
      exact hnext.trans (ih (hnext.steps.closed hg) h)
    · obtain rfl := Except.ok.inj h
      exact hfirst

namespace Graph

/-- What joining two blocks keeps is kept by joining all that can be. -/
theorem mergeAfter_induction (hclosed : ∀ {g}, I g → g.Closed)
    (habsorb : ∀ {g pre id next post}, I g → g.Joint pre id next post →
      (g.block id).isTerminated = false → g.Unreferenced next → I (g.absorb id next))
    {rest : List BlockId} (hg : I g) (hmarks : g.Marks referenced)
    (horder : g.order = pre ++ id :: rest) : I (g.mergeAfter referenced id rest) := by
  induction rest generalizing g pre id with
  | nil => exact hg
  | cons next rest ih =>
    rw [mergeAfter]
    split_ifs with hkeep
    · exact ih hg hmarks (by simpa using horder : g.order = (pre ++ [id]) ++ next :: rest)
    · simp only [Bool.or_eq_true, not_or, Bool.not_eq_true] at hkeep
      have hc := hclosed hg
      have hlt := hc.layout.bound next (by simp [horder])
      have hhidden := hmarks.unreferenced hlt hkeep.1.2
      have hj : g.Joint pre id next rest :=
        ⟨horder, fun j hj i hi => (hhidden j hj i hi).1, hkeep.2⟩
      exact ih (habsorb hg hj hkeep.1.1 hhidden) (hmarks.absorb hj hc) (hj.laysOut hc).order

theorem mergeFallthrough_induction (hclosed : ∀ {g}, I g → g.Closed)
    (habsorb : ∀ {g pre id next post}, I g → g.Joint pre id next post →
      (g.block id).isTerminated = false → g.Unreferenced next → I (g.absorb id next)) (hg : I g) :
    I g.mergeFallthrough := by
  unfold mergeFallthrough
  split
  · exact hg
  · rename_i id rest horder
    have hstart : g.order = [] ++ id :: rest := horder
    exact mergeAfter_induction hclosed habsorb hg g.marks_referenced hstart

end Graph

theorem becomes_mergeFallthrough (hg : g.Closed) (cs : List Constant) :
    Becomes ⟨g, cs⟩ ⟨g.mergeFallthrough, cs⟩ := by
  refine (Graph.mergeFallthrough_induction
    (I := fun h => Becomes ⟨g, cs⟩ ⟨h, cs⟩ ∧ h.Closed) And.right ?_ ⟨.refl _, hg⟩).1
  rintro h pre id next post ⟨hbecomes, hc⟩ hj hend hhidden
  exact ⟨hbecomes.trans ⟨.single (.absorb hj hend hhidden), fun _ _ _ _ => hj.preserves hc cs⟩,
    hj.closed hc⟩

/-! ### Rounds -/

variable {config : PassConfig}

theorem becomes_simplify {a b : Graph} (hc : g.Closed) (he : g.WellEnded)
    (ha : g.dropEmpty = .ok a) (hb : (a.copyExits config).simplifyBlocks cs = .ok (b, cs')) :
    Becomes ⟨g, cs⟩ ⟨b.dropNopsAndPairs.copyExits config, cs'⟩ := by
  have hcopied : Becomes ⟨g, cs⟩ ⟨a.copyExits config, cs⟩ :=
    .trans (.dropEmpty hc ha cs) (becomes_copyExitSweeps _ _ a cs)
  have hsimple := hcopied.trans (becomes_simplifyBlocks (hcopied.steps.closed hc)
    (hcopied.steps.wellEnded hc he) hb)
  exact (hsimple.trans (becomes_dropNopsAndPairs (hsimple.steps.closed hc) cs')).trans
    (becomes_copyExitSweeps _ _ _ cs')

theorem becomes_optimizeOnce (hg : g.Closed) (h : g.optimizeOnce config cs = .ok (k, cs')) :
    Becomes ⟨g, cs⟩ ⟨k, cs'⟩ := by
  unfold Graph.optimizeOnce at h
  obtain ⟨⟨⟩, hcheck, h⟩ := bind_eq_ok.mp h
  obtain ⟨a, ha, h⟩ := bind_eq_ok.mp h
  obtain ⟨⟨b, cs₁⟩, hb, h⟩ := bind_eq_ok.mp h
  obtain ⟨c, hreach, h⟩ := bind_eq_ok.mp h
  obtain ⟨d, htidy, h⟩ := bind_eq_ok.mp h
  cases h
  have hfirst := becomes_simplify hg (Graph.wellEnded_of_check hcheck) ha hb
  have hreached := hfirst.trans (becomes_dropUnreachable (hfirst.steps.closed hg) hreach cs')
  have htidied := hreached.trans (becomes_tidy (hreached.steps.closed hg) htidy cs')
  exact htidied.trans (becomes_mergeFallthrough (htidied.steps.closed hg) cs')

theorem becomes_optimizeRounds {rounds : Nat} (hg : g.Closed)
    (h : g.optimizeRounds config rounds cs = .ok (k, cs')) : Becomes ⟨g, cs⟩ ⟨k, cs'⟩ := by
  induction rounds generalizing g cs with
  | zero =>
    cases h
    exact .refl _
  | succ rounds ih =>
    obtain ⟨⟨b, cs₁⟩, hb, h⟩ := bind_eq_ok.mp h
    have hfirst := becomes_optimizeOnce hg hb
    dsimp only at h
    split_ifs at h
    · cases h
      exact hfirst
    · exact hfirst.trans (ih (hfirst.steps.closed hg) h)

theorem becomes_prune (hg : g.Closed) (h : g.prune cs = .ok (k, cs')) :
    Becomes ⟨g, cs⟩ ⟨k, cs'⟩ := by
  unfold Graph.prune at h
  obtain ⟨a, ha, h⟩ := bind_eq_ok.mp h
  obtain ⟨b, hb, h⟩ := bind_eq_ok.mp h
  cases h
  exact .trans (.dropEmpty hg ha cs) (becomes_dropUnreachable (hg.dropEmpty ha) hb cs)

end Bytecode
