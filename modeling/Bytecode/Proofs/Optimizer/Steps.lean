import Bytecode.Proofs.Optimizer.Constants
import Bytecode.Proofs.Optimizer.Idle
import Bytecode.Proofs.Optimizer.Pruning
import Mathlib.Logic.Relation

/-!
# Steps of the optimizer

A round of the optimizer is a sequence of small steps on the graph. A property that every step keeps
is kept by every round, and the steps that a round makes also keep the behaviour of the program.
Every pass is shown to make such steps once, for whatever is to be proved of it.
-/

namespace Bytecode

open List Result

variable {is js : List Instr} {i j : Instr} {Q : Instr → Prop}

theorem terminatorsLast_cons {i : Instr} :
    TerminatorsLast (i :: is) ↔ (is ≠ [] → i.op.isTerminator = false) ∧ TerminatorsLast is := by
  cases is with
  | nil => simp [TerminatorsLast]
  | cons j is => simp [TerminatorsLast]

theorem TerminatorsLast.thinned (h : Thinned is js) (his : TerminatorsLast is) :
    TerminatorsLast js := by
  induction h with
  | nil => exact his
  | @keep i loc is js h ih =>
    obtain ⟨hi, his⟩ := terminatorsLast_cons.mp his
    refine terminatorsLast_cons.mpr ⟨fun hjs => hi ?_, ih his⟩
    rintro rfl
    cases h
    exact hjs rfl
  | drop _ _ ih => exact ih (terminatorsLast_cons.mp his).2

theorem TerminatorsLast.append (hlast : ∀ i ∈ is.getLast?, i.op.isTerminator = false)
    (his : TerminatorsLast is) (hjs : TerminatorsLast js) : TerminatorsLast (is ++ js) := by
  induction is with
  | nil => exact hjs
  | cons i is ih =>
    obtain ⟨hi, his⟩ := terminatorsLast_cons.mp his
    cases is with
    | nil => exact terminatorsLast_cons.mpr ⟨fun _ => hlast i rfl, hjs⟩
    | cons j is =>
      exact terminatorsLast_cons.mpr ⟨fun _ => hi (by simp), ih (by simpa using hlast) his⟩

theorem terminatorsLast_append (hjs : js ≠ []) : TerminatorsLast (is ++ js) ↔
    (∀ i ∈ is, i.op.isTerminator = false) ∧ TerminatorsLast js := by
  rw [TerminatorsLast, dropLast_append_of_ne_nil hjs, forall_mem_append, TerminatorsLast]

namespace Graph

variable {g h k : Graph} {id t : BlockId}

/-- A jump can be sent on: to where the jump goes that it lands on, or past that one. -/
inductive Threads (g : Graph) (i : Instr) : Instr → Prop where
  | along {t : BlockId} {dest : Instr} {rest : List Instr} {op : Operation}
      (hi : i.op.isTest ∨ i.op = .pseudo .jump) (ht : i.target = some t)
      (hblock : (g.block t).instrs = dest :: rest)
      (hdest : dest.op.isTest ∨ dest.op = .pseudo .jump)
      (hop : op = i.op ∨ i.op.isTest ∧ op.isTest) :
      g.Threads i { i with target := dest.target, op := op }
  | past {t next : BlockId} {dest : Instr} {rest : List Instr} {op : Operation}
      (hi : i.op.isTest) (ht : i.target = some t) (hblock : (g.block t).instrs = dest :: rest)
      (hdest : dest.op.isTest) (hnext : (g.block t).next = some next) (hop : op.isTest) :
      g.Threads i { i with op := op, target := some next }

def Unreferenced (g : Graph) (id : BlockId) : Prop :=
  ∀ j ∈ g.order, ∀ i ∈ (g.block j).instrs, i.target ≠ some id ∧ i.handler ≠ some id

/-- What a step can put in place of the instructions of a block. -/
inductive Puts (g : Graph) (id : BlockId) : List Instr → Prop where
  | edit {is : List Instr} (h : Edits (g.block id).instrs is) : Puts g id is
  | thin {is : List Instr} (h : Thinned (g.block id).instrs is) : Puts g id is
  | thread {pre rest : List Instr} {i j : Instr} (hblock : (g.block id).instrs = pre ++ i :: rest)
      (h : g.Threads i j) : Puts g id (pre ++ j :: rest)
  | copyExit {is : List Instr} {i : Instr} {t : BlockId} (hblock : (g.block id).instrs = is ++ [i])
      (hjump : i.op.isUnconditionalJump) (ht : i.target = some t) (hexit : (g.block t).exitsScope) :
      Puts g id (is ++ i.toNop :: (g.block t).instrs)
  | idleJump {is : List Instr} {i : Instr} {t : BlockId} (hblock : (g.block id).instrs = is ++ [i])
      (hjump : i.op.isUnconditionalJump) (ht : i.target = some t)
      (hnext : (g.block id).next = some t) : Puts g id (is ++ [i.toNop])

inductive Step : Graph → Graph → Prop where
  | put {g : Graph} {id : BlockId} {is : List Instr} (hid : id ∈ g.order) (h : g.Puts id is) :
      Step g (g.setInstrs id is)
  | absorb {g : Graph} {id next : BlockId} {pre post : List BlockId} (hj : g.Joint pre id next post)
      (hend : (g.block id).isTerminated = false) (hhidden : g.Unreferenced next) :
      Step g (g.absorb id next)
  | clear (g : Graph) : Step g g.countPredecessors.clearUnreachable
  | dropEmpty {g k : Graph} (h : g.dropEmpty = .ok k) : Step g k

abbrev Steps : Graph → Graph → Prop := Relation.ReflTransGen Step

theorem Threads.isJump (h : g.Threads i j) : i.op.isJump ∧ j.op.isJump := by
  have hjump : ∀ {op : Operation}, op.isTest ∨ op = .pseudo .jump → op.isJump :=
    fun h => h.elim Operation.isJump_of_isTest fun h => h ▸ rfl
  cases h with
  | along hi _ _ _ hop =>
    exact ⟨hjump hi, hop.elim (fun h => h ▸ hjump hi) fun h => hjump (.inl h.2)⟩
  | past hi _ _ _ _ hop => exact ⟨hjump (.inl hi), hjump (.inl hop)⟩

/-! ### What steps keep -/

/-- What holds of all instructions holds of those that are put down, if it carries over to each. -/
theorem Puts.forall_mem (h : g.Puts id is) (hg : g.Closed) (hid : id ∈ g.order)
    (hall : ∀ a ∈ g.order, ∀ i ∈ (g.block a).instrs, Q i)
    (hrecast : ∀ {i j}, Recasts i j → Q i → Q j)
    (hplace : ∀ (i : Instr) (loc : Location), Q i → Q { i with loc := loc })
    (hthread : ∀ {i j}, g.Threads i j → Q i → Q j) (hidle : ∀ i, Q i → Q i.toNop) :
    ∀ j ∈ is, Q j := by
  have hold := hall id hid
  cases h with
  | edit h => exact h.forall_mem hrecast hold
  | thin h => exact h.forall_mem hplace hold
  | thread hblock h =>
    rw [hblock, forall_mem_append, forall_mem_cons] at hold
    exact forall_mem_append.mpr ⟨hold.1, forall_mem_cons.mpr ⟨hthread h hold.2.1, hold.2.2⟩⟩
  | @copyExit _ i t hblock _ ht =>
    have hmem := (hg.admits id hid i (by simp [hblock]) t ht).1
    rw [hblock, forall_mem_append, forall_mem_singleton] at hold
    exact forall_mem_append.mpr ⟨hold.1, forall_mem_cons.mpr ⟨hidle i hold.2, hall t hmem⟩⟩
  | idleJump hblock =>
    rw [hblock, forall_mem_append, forall_mem_singleton] at hold
    exact forall_mem_append.mpr ⟨hold.1, forall_mem_singleton.mpr (hidle _ hold.2)⟩

theorem Admits.recasts (hi : g.Admits i) (h : Recasts i j) : g.Admits j := by
  intro t ht
  obtain ⟨hmem, hopens⟩ := hi t (h.target_eq ht)
  exact ⟨hmem, fun hpush => hopens (h.isBlockPush hpush)⟩

theorem Closed.threads (hg : g.Closed) (hi : g.Admits i) (h : g.Threads i j) : g.Admits j := by
  intro u hu
  refine ⟨?_, fun hpush => absurd hpush (by simp [Operation.isBlockPush_of_isJump h.isJump.2])⟩
  cases h with
  | @along t dest _ _ _ ht hblock _ _ =>
    exact (hg.admits t (hi t ht).1 dest (by simp [hblock]) u hu).1
  | past _ ht _ _ hnext _ => exact hg.next_mem (hi _ ht).1 (hnext.trans hu)

theorem Step.closed (h : g.Step k) (hg : g.Closed) : k.Closed := by
  cases h with
  | @put id is hid h =>
    have hnew : ∀ j ∈ is, g.Admits j :=
      h.forall_mem hg hid hg.admits (fun hij hi => hi.recasts hij) (fun i loc hi => hi)
        (fun hij hi => hg.threads hi hij) fun i _ => .of_none rfl
    refine hg.rewrite (.setInstrs id is) (fun a ha => ?_) fun a ha i hi => ?_
    · rw [block_setInstrs]
      split_ifs <;> exact ha
    · rw [block_setInstrs] at hi
      split_ifs at hi
      exacts [hnew i hi, hg.admits a ha i hi]
  | absorb hj => exact hj.closed hg
  | clear => exact hg.clear
  | dropEmpty h => exact hg.dropEmpty h

theorem Steps.closed (h : g.Steps k) (hg : g.Closed) : k.Closed := by
  induction h with
  | refl => exact hg
  | tail _ hstep ih => exact hstep.closed ih

theorem Puts.terminatorsLast (h : g.Puts id is) (hc : g.Closed) (hg : g.WellEnded)
    (hid : id ∈ g.order) : TerminatorsLast is := by
  have hold := hg id hid
  cases h with
  | edit h => exact h.endsAs.terminatorsLast hold
  | thin h => exact hold.thinned h
  | thread hblock h =>
    rw [hblock] at hold
    refine EndsAs.terminatorsLast (rel_append (EndsAs.refl _) (.cons (fun _ => ?_) (EndsAs.refl _)))
      hold
    rw [Operation.isTerminator, h.isJump.1, Bool.true_or]
  | @copyExit _ i t hblock _ ht =>
    have hmem := (hc.admits id hid i (by simp [hblock]) t ht).1
    rw [hblock, terminatorsLast_append (by simp)] at hold
    refine (terminatorsLast_append (by simp)).mpr ⟨hold.1, ?_⟩
    exact terminatorsLast_cons.mpr ⟨fun _ => rfl, hg t hmem⟩
  | idleJump hblock =>
    rw [hblock, terminatorsLast_append (by simp)] at hold
    exact (terminatorsLast_append (by simp)).mpr ⟨hold.1, by simp [TerminatorsLast]⟩

theorem Joint.wellEnded {pre post : List BlockId} {next : BlockId} (hj : g.Joint pre id next post)
    (hc : g.Closed) (hend : (g.block id).isTerminated = false) (hg : g.WellEnded) :
    (g.absorb id next).WellEnded := by
  intro j hmem
  rw [(hj.laysOut hc).order] at hmem
  by_cases hid : j = id
  · subst hid
    rw [hj.block_id hc]
    refine .append (fun i hi => ?_) (hg j hj.mem_id) (hg next hj.mem_next)
    simp only [Block.isTerminated, Block.last?] at hend
    rw [Option.mem_def.mp hi] at hend
    simpa using hend
  · rw [hj.block_mem hc hid hmem]
    refine hg j ?_
    rw [hj.order]
    simp only [mem_append, mem_cons] at hmem ⊢
    tauto

/-- The blocks out of reach lose their instructions, and the others keep them. -/
theorem Closed.instrs_clear_cases (hg : g.Closed) (hid : id ∈ g.order) :
    (g.countPredecessors.clearUnreachable.block id).instrs = [] ∨
      (g.countPredecessors.clearUnreachable.block id).instrs = (g.block id).instrs := by
  by_cases hreach : id ∈ g.reachable
  · obtain ⟨n, hn⟩ := g.block_countPredecessors id
    exact .inr (by rw [hg.block_clear hreach, hn])
  · exact .inl (hg.instrs_clear hid hreach)

theorem order_clear (g : Graph) : g.countPredecessors.clearUnreachable.order = g.order :=
  (g.sameLinks_countPredecessors.trans g.countPredecessors.sameLinks_clearUnreachable).order

theorem Step.wellEnded (h : g.Step k) (hc : g.Closed) (hg : g.WellEnded) : k.WellEnded := by
  cases h with
  | @put id is hid h =>
    intro j hj
    rw [(SameLinks.setInstrs id is).order] at hj
    rw [block_setInstrs]
    split_ifs
    exacts [h.terminatorsLast hc hg hid, hg j hj]
  | absorb hj hend => exact hj.wellEnded hc hend hg
  | clear =>
    intro j hj
    rw [order_clear] at hj
    rcases hc.instrs_clear_cases hj with h | h <;> rw [h]
    · exact fun i hi => by cases hi
    · exact hg j hj
  | dropEmpty h => exact hg.dropEmpty hc h

theorem Steps.wellEnded (h : g.Steps k) (hc : g.Closed) (hg : g.WellEnded) : k.WellEnded := by
  induction h with
  | refl => exact hg
  | tail hsteps hstep ih => exact hstep.wellEnded (Steps.closed hsteps hc) ih

/-! ### What is left when the empty blocks are gone -/

/-- The instruction with the blocks that it refers to moved on to their landings. -/
def relocate (g : Graph) (i : Instr) : Instr :=
  { i with target := i.target.map g.land, handler := i.handler.map g.land }

theorem landInstr_eq_ok (h : g.landInstr g.order i = .ok j) :
    j = g.relocate i ∧ ∀ t, i.target = some t ∨ i.handler = some t →
      g.landing? g.order t = some (g.land t) := by
  have hland : ∀ {o o' : Option BlockId},
      o.mapM (fun t => Result.require (.runsOffEnd t) (g.landing? g.order t)) = .ok o' →
        o' = o.map g.land ∧ ∀ t, o = some t → g.landing? g.order t = some (g.land t) := by
    intro o o' ho
    cases o with
    | none => exact ⟨(Except.ok.inj ho).symm, nofun⟩
    | some t =>
      obtain ⟨l, hl, ho⟩ := bind_eq_ok.mp ho
      have hl := Result.require_eq_ok.mp hl
      refine ⟨?_, fun u hu => ?_⟩
      · rw [Option.map_some, land_eq hl]
        exact (Except.ok.inj ho).symm
      · obtain rfl := Option.some.inj hu
        rw [land_eq hl, hl]
  unfold landInstr at h
  dsimp only at h
  obtain ⟨target, htarget, h⟩ := bind_eq_ok.mp h
  obtain ⟨handler, hhandler, h⟩ := bind_eq_ok.mp h
  obtain rfl := Except.ok.inj h
  obtain ⟨rfl, hlandt⟩ := hland htarget
  obtain ⟨rfl, hlandh⟩ := hland hhandler
  exact ⟨rfl, fun t ht => ht.elim (hlandt t) (hlandh t)⟩

/-- What is left when the empty blocks are gone, with every reference moved on. -/
structure Compacts (g k : Graph) : Prop where
  drops : g.DropsEmpty k
  instrs : ∀ id ∈ g.live, (k.block id).instrs = (g.block id).instrs.map g.relocate
  lands : ∀ id ∈ g.live, ∀ i ∈ (g.block id).instrs, ∀ t, i.target = some t ∨ i.handler = some t →
    g.landing? g.order t = some (g.land t)

theorem compacts_dropEmpty (hg : g.Closed) (h : g.dropEmpty = .ok k) :
    k = g ∧ (g.live = [] ∨ g.live = g.order) ∨ g.Compacts k := by
  refine (dropEmpty_cases hg h).imp_right fun ⟨hlayout, hinstrs, hhandler⟩ => ?_
  have hall : ∀ id ∈ g.live, Forall₂ (fun i j => g.landInstr g.order i = .ok j)
      (g.block id).instrs (k.block id).instrs := fun id hid => mapM_eq_ok.mp (hinstrs id hid)
  refine ⟨⟨hlayout, fun id hid => (hall id hid).imp fun _ _ => landsAs_of_landInstr, hhandler⟩,
    fun id hid => ?_, fun id hid i hi => ?_⟩
  · have hmap : Forall₂ (fun i j => g.relocate i = j) (g.block id).instrs
        (k.block id).instrs := (hall id hid).imp fun _ _ h => (landInstr_eq_ok h).1.symm
    exact (forall₂_eq_eq_eq ▸ forall₂_map_left_iff.mpr hmap :
      (g.block id).instrs.map g.relocate = (k.block id).instrs).symm
  · obtain ⟨n, hn, rfl⟩ := getElem_of_mem hi
    have hn' : n < (k.block id).instrs.length := (hall id hid).length_eq ▸ hn
    exact (landInstr_eq_ok ((forall₂_iff_get.mp (hall id hid)).2 n hn hn')).2

end Graph

/-! ### Steps that keep the behaviour -/

/-- The second program comes from the first in steps, and behaves as it on every machine. -/
structure Program.Becomes (p q : Program) : Prop where
  steps : p.graph.Steps q.graph
  preserves : ∀ ⦃V W E : Type⦄ (M : Machine V W E), M.Preserves p q

namespace Program.Becomes

variable {p q r : Program} {g : Graph} {id : BlockId} {cs cs' : List Constant}

theorem refl (p : Program) : p.Becomes p :=
  ⟨.refl, fun _ _ _ M => .refl M p⟩

theorem trans (h : p.Becomes q) (h' : q.Becomes r) : p.Becomes r :=
  ⟨h.steps.trans h'.steps, fun _ _ _ M => (h.preserves M).trans (h'.preserves M)⟩

/-- Other instructions that do what the old ones did with a table that the new one extends. -/
theorem put (hid : id ∈ g.order) (h : g.Puts id is) (hgrows : cs <+: cs')
    (hrefines : ∀ ⦃V W E : Type⦄ (M : Machine V W E),
      M.Refines cs (g.block id).instrs cs' is) : Becomes ⟨g, cs⟩ ⟨g.setInstrs id is, cs'⟩ := by
  refine ⟨.single (.put hid h), fun V W E M => ?_⟩
  refine Machine.preserves_of_refines (Graph.stays_true g) rfl (fun j _ => ?_) fun j _ => ?_
  · exact (Graph.SameLinks.setInstrs id is).next j
  · simp only [Program.instrs]
    rw [Graph.block_setInstrs]
    split_ifs with hj
    · exact hj.1 ▸ hrefines M
    · exact M.refines_extend hgrows _

theorem rewrite (hid : id ∈ g.order) (hgrows : cs <+: cs')
    (h : Rewrites cs (g.block id).instrs cs' is) : Becomes ⟨g, cs⟩ ⟨g.setInstrs id is, cs'⟩ :=
  put hid (.edit h.edits) hgrows h.refines

theorem thin (hid : id ∈ g.order) (h : Thinned (g.block id).instrs is) (cs : List Constant) :
    Becomes ⟨g, cs⟩ ⟨g.setInstrs id is, cs⟩ :=
  put hid (.thin h) List.prefix_rfl fun _ _ _ _ => .of_run_eq (h.run_eq cs)

theorem copyExit (hid : id ∈ g.order) (maxSize : Nat) (cs : List Constant) :
    Becomes ⟨g, cs⟩ ⟨g.copyExit maxSize id, cs⟩ := by
  rcases g.copyExit_cases maxSize id with heq | ⟨is, i, t, hblock, hjump, ht, hexit, heq⟩ <;>
    rw [heq]
  · exact .refl _
  · exact ⟨.single (.put hid (.copyExit hblock hjump ht hexit)),
      fun _ _ _ _ => preserves_copyExit hblock hjump ht hexit cs⟩

theorem idleJump (hid : id ∈ g.order) (h : g.endsInRedundantJump id) (cs : List Constant) :
    Becomes ⟨g, cs⟩ ⟨g.modify id (·.modifyLast Instr.toNop), cs⟩ := by
  obtain ⟨is, i, t, hblock, hjump, ht, hnext, heq⟩ := Graph.idleJump_eq h
  rw [heq]
  exact ⟨.single (.put hid (.idleJump hblock hjump ht hnext)),
    fun _ _ _ _ => preserves_idleJump hblock hjump ht hnext cs⟩

theorem dropEmpty {k : Graph} (hg : g.Closed) (h : g.dropEmpty = .ok k) (cs : List Constant) :
    Becomes ⟨g, cs⟩ ⟨k, cs⟩ :=
  ⟨.single (.dropEmpty h), fun _ _ _ _ => preserves_dropEmpty hg h cs⟩

end Program.Becomes

end Bytecode
