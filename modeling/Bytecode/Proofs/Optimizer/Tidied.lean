import Bytecode.Proofs.Optimizer.Compact

/-!
# What the last passes keep

What comes after the rounds keeps a graph in good order and compact: checks of loads, the move of
cold blocks, new numbers of constants, and lines.
-/

namespace Bytecode

open List Instr Operation

variable {is : List Instr}

/-- The two instructions take control to the same places. -/
structure Instr.Alike (i j : Instr) : Prop where
  target : j.target = i.target
  jumps : j.op.isJump = i.op.isJump
  pushes : j.op.isBlockPush = i.op.isBlockPush
  exits : j.op.isScopeExit = i.op.isScopeExit
  falls : j.op.fallsThrough = i.op.fallsThrough

namespace Instr

variable {i j : Instr}

theorem Alike.of_op (hop : j.op = i.op) (htarget : j.target = i.target) : i.Alike j :=
  ⟨htarget, by rw [hop], by rw [hop], by rw [hop], by rw [hop]⟩

theorem Places.alike (h : i.Places j) : i.Alike j ∧ j.handler = i.handler := by
  obtain ⟨loc, rfl, _⟩ := h
  exact ⟨.of_op rfl rfl, rfl⟩

theorem Checks.alike (h : i.Checks j) : i.Alike j ∧ j.handler = i.handler := by
  rcases h with rfl | ⟨hop, rfl⟩
  · exact ⟨.of_op rfl rfl, rfl⟩
  · exact ⟨⟨rfl, by rw [hop]; rfl, by rw [hop]; rfl, by rw [hop]; rfl, by rw [hop]; rfl⟩, rfl⟩

theorem Renumbers.alike (h : i.Renumbers j) : i.Alike j ∧ j.handler = i.handler := by
  rcases h with rfl | ⟨_, arg, rfl⟩
  · exact ⟨.of_op rfl rfl, rfl⟩
  · exact ⟨.of_op rfl rfl, rfl⟩

theorem Labels.alike (h : i.Labels j) : i.Alike j := by
  obtain ⟨handler, arg, rfl, _⟩ := h
  exact .of_op rfl rfl

end Instr

theorem alike_of_places {js : List Instr} (h : Forall₂ Places is js) : Forall₂ Alike is js :=
  h.imp fun _ _ hij => hij.alike.1

theorem Instr.Alike.endsAs {js : List Instr} (h : Forall₂ Alike is js) : EndsAs is js :=
  h.imp fun i j hij => by
    rw [isTerminator, isTerminator, hij.jumps, hij.exits]
    exact fun h => h

theorem Instr.Alike.getLast? {js : List Instr} (h : Forall₂ Alike is js) :
    js.getLast?.all (·.op.fallsThrough) = is.getLast?.all (·.op.fallsThrough) := by
  rw [← head?_reverse, ← head?_reverse]
  have hrev := rel_reverse h
  generalize js.reverse = js at hrev
  generalize is.reverse = is at hrev
  cases hrev with
  | nil => rfl
  | cons hij _ => exact hij.falls

namespace Graph

variable {g h k : Graph} {id next a exit : BlockId} {cs cs' : List Constant} {i : Instr}

/-- A graph in good order, and compact unless no instruction is left. -/
structure Tidied (g : Graph) : Prop where
  regular : g.Regular
  rest : g.Silent ∨ g.Compact

/-! ### The same ways through other instructions -/

theorem fallthrough?_eq_of_alike {b : BlockId}
    (hinstrs : Forall₂ Alike (g.block a).instrs (k.block b).instrs)
    (hnext : (k.block b).next = (g.block a).next) : k.fallthrough? b = g.fallthrough? a := by
  have hfalls : (k.block b).fallsThrough = (g.block a).fallsThrough :=
    Alike.getLast? hinstrs
  rw [fallthrough?, fallthrough?, hfalls, hnext]

theorem successors_eq_of_alike {b : BlockId}
    (hinstrs : Forall₂ Alike (g.block a).instrs (k.block b).instrs)
    (hnext : (k.block b).next = (g.block a).next) : k.successors b = g.successors a := by
  have htargets : (k.block b).instrs.filterMap (·.target) =
      (g.block a).instrs.filterMap (·.target) := by
    generalize (k.block b).instrs = js at hinstrs
    generalize (g.block a).instrs = is at hinstrs
    induction hinstrs with
    | nil => rfl
    | cons hij _ ih => rw [filterMap_cons, filterMap_cons, hij.target, ih]
  rw [successors, successors, htargets, fallthrough?_eq_of_alike hinstrs hnext]

theorem successors_of_alike (hk : Relates Alike g k) (id : BlockId) :
    k.successors id = g.successors id :=
  successors_eq_of_alike (hk.instrs id) (hk.links.next id)

theorem Relates.alike (h : Relates Eq g k) : Relates Alike g k := by
  refine h.mono ?_
  rintro i _ rfl
  exact .of_op rfl rfl

section

variable (hk : Relates Alike g k)
include hk

theorem WellEnded.of_alike (hg : g.WellEnded) : k.WellEnded := by
  intro id hid
  exact (Alike.endsAs (hk.instrs id)).terminatorsLast (hg id (hk.links.order ▸ hid))

theorem Reached.of_alike (hg : g.Reached) : k.Reached := by
  intro id hid
  rw [hk.links.entry]
  refine (hg id (hk.links.order ▸ hid)).mono fun a b hb => ?_
  rwa [successors_of_alike hk]

theorem Wired.of_alike (hg : g.Wired) : k.Wired := by
  refine ⟨hk.links.order ▸ hk.links.laysOut hg.layout, fun id hid j hj t ht => ?_⟩
  rw [hk.links.order] at hid ⊢
  obtain ⟨i, hi, hij⟩ := Result.exists_of_mem_forall₂ (hk.instrs id) hj
  exact hg.targets id hid i hi t (hij.target ▸ ht)

theorem Regular.of_alike (hg : g.Regular)
    (hhandler : ∀ id ∈ g.order, ∀ j ∈ (k.block id).instrs, ∀ t, j.handler = some t → t ∈ g.order) :
    k.Regular := by
  have hw := hg.closed.wired.of_alike hk
  refine ⟨hw.layout, hg.ended.of_alike hk, fun id hid j hj => ?_⟩
  have hid' := hk.links.order ▸ hid
  obtain ⟨i, hi, hij⟩ := Result.exists_of_mem_forall₂ (hk.instrs id) hj
  have hholds := hg.holds id hid' i hi
  refine ⟨⟨?_, hw.targets id hid j hj, fun t ht => ?_⟩, fun hop t ht => ?_⟩
  · rw [hij.target, hholds.refers, hasTarget, hasTarget, hij.jumps, hij.pushes]
  · rw [hk.links.order]
    exact hhandler id hid' j hj t ht
  · rw [hk.handler]
    exact hholds.opens (hij.pushes ▸ hop) t (hij.target ▸ ht)

end

theorem Regular.of_eq (hg : g.Regular) (h : Relates Eq g k) : k.Regular := by
  refine hg.of_alike h.alike fun id hid i hi => ?_
  rw [h.instrs_eq] at hi
  exact (hg.holds id hid i hi).handler

theorem Tidied.of_alike {R : Instr → Instr → Prop} (hg : g.Tidied) (hk : Relates R g k)
    (hR : ∀ i j, R i j → i.Alike j ∧ j.handler = i.handler) : k.Tidied := by
  have halike : Relates Alike g k := hk.mono fun i j hij => (hR i j hij).1
  have horder := hk.links.order
  have hregular : k.Regular := by
    refine hg.regular.of_alike halike fun id hid j hj t ht => ?_
    obtain ⟨i, hi, hij⟩ := Result.exists_of_mem_forall₂ (hk.instrs id) hj
    exact (hg.regular.holds id hid i hi).handler t ((hR i j hij).2 ▸ ht)
  have hnil : ∀ id, (k.block id).instrs = [] ↔ (g.block id).instrs = [] := by
    intro id
    rw [← length_eq_zero_iff, ← length_eq_zero_iff, (hk.instrs id).length_eq]
  refine ⟨hregular, hg.rest.imp (fun hs id hid => ?_) fun hc => ⟨hregular, fun id hid => ?_,
    hc.reached.of_alike halike⟩⟩
  all_goals rw [horder] at hid
  · exact (hnil id).mpr (hs id hid)
  · exact fun h => hc.full id hid ((hnil id).mp h)

/-! ### Cold blocks -/

theorem Compact.bridges (hg : g.Compact) (hb : g.Bridges h id next) : h.Compact := by
  have hc := hg.regular.closed
  have hmem : ∀ {j}, j ∈ h.order ↔ j = g.blocks.size ∨ j ∈ g.order := hb.mem_order_iff hc
  have hnext := hc.next_mem hb.mem hb.link
  have hinstrs : ∀ j ∈ g.order, (h.block j).instrs = (g.block j).instrs := by
    intro j hj
    obtain ⟨n, hblock, _⟩ := hb.block_eq hc hj
    rw [hblock]
  have hregular : h.Regular := by
    refine ⟨(hb.closed hc).layout, fun j hj => ?_, fun j hj i hi => ?_⟩
    · rcases hmem.mp hj with rfl | hj
      · rw [hb.jump]
        simp [TerminatorsLast]
      · rw [hinstrs j hj]
        exact hg.regular.ended j hj
    · have hadmits := (hb.closed hc).admits j hj i hi
      refine ⟨?_, fun hop t ht => (hadmits t ht).2 hop⟩
      rcases hmem.mp hj with rfl | hj
      · rw [hb.jump] at hi
        obtain rfl := mem_singleton.mp hi
        exact ⟨rfl, fun t ht => (hadmits t ht).1, fun t ht => by cases ht⟩
      · rw [hinstrs j hj] at hi
        have hsites := (hg.regular.holds j hj i hi).toSites
        exact ⟨hsites.refers, fun t ht => (hadmits t ht).1,
          fun t ht => hmem.mpr (.inr (hsites.handler t ht))⟩
  have hkeep : ∀ {a}, Reaches g.successors [g.entry] a → Reaches h.successors [h.entry] a := by
    intro a ha
    induction ha with
    | root ha => exact .root (hb.entry ▸ ha)
    | @step a b ha hab ih =>
      have hamem := hc.within.inside ha
      rcases mem_successors.mp hab with ⟨i, hi, ht⟩ | ⟨hfall, hn⟩
      · exact ih.step (mem_successors.mpr (.inl ⟨i, hinstrs a hamem ▸ hi, ht⟩))
      · by_cases haid : a = id
        · -- The way goes through the jump now.
          subst haid
          obtain rfl : next = b := Option.some.inj (hb.link.symm.trans hn)
          have hjump : Reaches h.successors [h.entry] g.blocks.size :=
            ih.step (mem_successors.mpr (.inr (by rw [hb.self]; exact ⟨hfall, rfl⟩)))
          refine hjump.step (mem_successors.mpr (.inl ?_))
          rw [hb.jump]
          exact ⟨_, mem_singleton.mpr rfl, rfl⟩
        · refine ih.step (mem_successors.mpr (.inr ?_))
          rw [hb.other a (hc.layout.ne_size hamem) haid]
          exact ⟨hfall, hn⟩
  refine ⟨hregular, fun j hj => ?_, fun j hj => ?_⟩
  all_goals rcases hmem.mp hj with rfl | hj
  · rw [hb.jump]
    exact cons_ne_nil _ _
  · rw [hinstrs j hj]
    exact hg.full j hj
  · refine (hkeep (hg.reached id hb.mem)).step (mem_successors.mpr (.inr ?_))
    rw [hb.self]
    exact ⟨hb.falls, rfl⟩
  · exact hkeep (hg.reached j hj)

/-- Whatever can be reached is warm or cold, and is still reached if the cold blocks come last. -/
theorem Bridging.reaches_coldLast (hb : g.Bridging []) (hg : g.Regular)
    (ha : Reaches g.successors [g.entry] a) : ((g.block a).warm ∨ (g.block a).cold) ∧
      Reaches (g.setLayout g.coldLast).successors [(g.setLayout g.coldLast).entry] a := by
  have hc := hb.closed
  have hstays := hb.tempered.stays hc
  induction ha with
  | root ha =>
    obtain rfl := mem_singleton.mp ha
    exact ⟨.inl hb.tempered.entry, .root (mem_singleton.mpr hb.entry_coldLast.symm)⟩
  | @step a b ha hab ih =>
    have hmem := hc.within.inside ha
    obtain ⟨hmark, hreach⟩ := ih
    obtain ⟨n, hblock⟩ := g.block_setLayout g.coldLast a
    rcases mem_successors.mp hab with ⟨i, hi, ht⟩ | ⟨hfall, hn⟩
    · refine ⟨?_, hreach.step (mem_successors.mpr (.inl ⟨i, by rwa [hblock], ht⟩))⟩
      have hholds := hg.holds a hmem i hi
      have htarget := hholds.refers
      rw [ht, hasTarget] at htarget
      rcases (Bool.or_eq_true _ _).mp htarget.symm with hjump | hpush
      · exact (hstays.jump a ⟨hmem, hmark⟩ i hi hjump b ht).2
      · exact hb.tempered.handler b (hholds.target b ht) (hholds.opens hpush b ht)
    · have hfallthrough := fallthrough?_eq_some.mpr ⟨hfall, hn⟩
      have hfall' : ((g.setLayout g.coldLast).block a).fallsThrough := by
        rw [hblock]
        exact hfall
      exact ⟨(hstays.fall a ⟨hmem, hmark⟩ hfall b hn).2, hreach.step (mem_successors.mpr
        (.inr ⟨hfall', hb.next_coldLast hmem hmark hfallthrough⟩))⟩

theorem Bridging.tidied_coldLast (hb : g.Bridging []) (hg : g.Tidied) :
    (g.setLayout g.coldLast).Tidied := by
  have horder : (g.setLayout g.coldLast).order = g.coldLast :=
    (laysOut_coldLast hb.closed hb.tempered).order
  have hmem : ∀ {j}, j ∈ (g.setLayout g.coldLast).order ↔ j ∈ g.order := by
    rw [horder]
    exact mem_coldLast
  have hblock : ∀ j, ((g.setLayout g.coldLast).block j).instrs = (g.block j).instrs ∧
      ((g.setLayout g.coldLast).block j).isHandler = (g.block j).isHandler := by
    intro j
    obtain ⟨n, hn⟩ := g.block_setLayout g.coldLast j
    rw [hn]
    exact ⟨rfl, rfl⟩
  have hregular : (g.setLayout g.coldLast).Regular := by
    refine ⟨(closed_coldLast hb.closed hb.tempered).layout, fun j hj => ?_, fun j hj i hi => ?_⟩
    all_goals rw [hmem] at hj
    · rw [(hblock j).1]
      exact hg.regular.ended j hj
    · rw [(hblock j).1] at hi
      exact (hg.regular.holds j hj i hi).congr (fun t ht => hmem.mpr ht)
        fun t ht => (hblock t).2.trans ht
  refine ⟨hregular, hg.rest.imp (fun hs j hj => ?_) fun hcompact => ⟨hregular, fun j hj => ?_,
    fun j hj => ?_⟩⟩
  all_goals rw [hmem] at hj
  · exact (hblock j).1.trans (hs j hj)
  · rw [(hblock j).1]
    exact hcompact.full j hj
  · exact (hb.reaches_coldLast hg.regular (hcompact.reached j hj)).2

/-- Control falls through a graph without instructions, so all of it is warm. -/
theorem Silent.warm (hg : g.Silent) (hc : g.Closed) (ht : g.Tempered) (hid : id ∈ g.order) :
    (g.block id).warm := by
  have hall : ∀ (ids : List BlockId) (a : BlockId), g.Linked (a :: ids) →
      (∀ b ∈ a :: ids, b ∈ g.order) → (g.block a).warm → ∀ b ∈ a :: ids, (g.block b).warm := by
    intro ids
    induction ids with
    | nil =>
      intro a _ _ ha b hb
      exact mem_singleton.mp hb ▸ ha
    | cons c ids ih =>
      intro a hlinked hmem ha
      refine forall_mem_cons.mpr ⟨ha, ih c hlinked.2 (fun b hb => hmem b (by simp [hb])) ?_⟩
      refine ht.warm a (hmem a (by simp)) ha c (mem_plainSuccessors_of_fallthrough ?_)
      refine fallthrough?_eq_some.mpr ⟨?_, hlinked.1⟩
      simp [Block.fallsThrough, Block.last?, hg a (hmem a (by simp))]
  obtain ⟨rest, horder⟩ := head?_eq_some_iff.mp hc.layout.head
  exact hall rest g.entry (horder ▸ hc.layout.linked) (fun b hb => horder ▸ hb) ht.entry id
    (horder ▸ hid)

theorem Tidied.of_eq (hg : g.Tidied) (h : Relates Eq g k) : k.Tidied := by
  refine hg.of_alike h ?_
  rintro i _ rfl
  exact ⟨.of_op rfl rfl, rfl⟩

theorem Tidied.bridges (hg : g.Tidied) (ht : g.Tempered) (hb : g.Bridges h id next) : h.Tidied := by
  rcases hg.rest with hs | hcompact
  · have hapart := ht.apart id hb.mem (hs.warm hg.regular.closed ht hb.mem)
    rw [hb.cold] at hapart
    cases hapart
  · have hbridged := hcompact.bridges hb
    exact ⟨hbridged.regular, .inr hbridged⟩

theorem Tidied.dropRedundantJumps (hg : g.Tidied) : g.dropRedundantJumps.Tidied where
  regular := hg.regular.steps (becomes_dropRedundantJumps g []).steps
  rest := hg.rest.imp (fun hs => hs.steps hg.regular (becomes_dropRedundantJumps g []).steps)
    fun hcompact => hcompact.dropRedundantJumps

theorem Tidied.moveColdToEnd (hg : g.Tidied) : g.moveColdToEnd.Tidied :=
  moveColdToEnd_induction hg.regular.closed hg (hg.of_eq (relates_markCold g))
    (fun hg _ ht hb => hg.bridges ht hb) (fun hg hb => hb.tidied_coldLast hg)
    fun hg _ => hg.dropRedundantJumps

/-! ### Copies of shared exits -/

/-- The block that one stands for after an exit has been copied. -/
def standsFor (copy exit id : BlockId) : BlockId :=
  if id = copy then exit else id

theorem standsFor_of_ne {copy : BlockId} (h : id ≠ copy) : standsFor copy exit id = id :=
  if_neg h

/-- A jump to an exit that others share goes to a copy of it, which stands right after it. -/
structure Splits (g h : Graph) (id exit : BlockId) (is : List Instr) (i : Instr) : Prop where
  mem : id ∈ g.order
  instrs : (g.block id).instrs = is ++ [i]
  jump : i.op.isJump
  target : i.target = some exit
  exits : (g.block exit).exitsScope
  blank : ∀ j ∈ (g.block exit).instrs, j.line < 0
  shared : 1 < (g.block exit).predecessors
  ne : id ≠ exit
  entry : h.entry = g.entry
  size : h.blocks.size = g.blocks.size + 1
  copied : Forall₂ Places (g.block exit).instrs (h.block g.blocks.size).instrs
  next : (h.block g.blocks.size).next = (g.block exit).next
  count : (h.block g.blocks.size).predecessors = 1
  self : h.block id =
    { g.block id with instrs := is ++ [{ i with target := some g.blocks.size }] }
  left : h.block exit =
    { g.block exit with
      predecessors := (g.block exit).predecessors - 1
      next := some g.blocks.size }
  other : ∀ j, j ≠ g.blocks.size → j ≠ id → j ≠ exit → h.block j = g.block j

theorem splitExit_cases (hid : id ∈ g.order) :
    g.splitExit id = g ∨ ∃ exit is i, g.Splits (g.splitExit id) id exit is i := by
  cases hshared : g.sharedExit? id with
  | none => exact .inl (by simp [splitExit, hshared])
  | some found =>
    obtain ⟨exit, loc⟩ := found
    obtain ⟨is, i, hinstrs, hjump, htarget, hexit, hline, hcount⟩ := sharedExit?_eq_some hshared
    have hblock := block_splitExit hshared
    have hne := ne_of_sharedExit? hshared
    have hlast : (g.block id).last? = some i := by simp [Block.last?, hinstrs]
    have hidlt := Nat.ne_of_lt (lt_size_of_instrs hinstrs)
    have hexitlt := Nat.ne_of_lt (exit_lt_size hexit)
    refine .inr ⟨exit, is, i, hid, hinstrs, hjump, htarget, hexit, hline, hcount, hne, ?_, ?_, ?_,
      ?_, ?_, ?_, ?_, fun j hsize hjid hjexit => ?_⟩
    · simp only [splitExit, hshared]
      rfl
    · simp [splitExit, hshared, addBlock]
    · rw [hblock, if_pos rfl]
      exact Relates.places_modifyHead
        { instrs := (g.block exit).instrs, next := (g.block exit).next, predecessors := 1 } hline
          loc
    · rw [hblock, if_pos rfl, Block.next_modifyHead]
    · rw [hblock, if_pos rfl]
      unfold Block.modifyHead
      split <;> rfl
    · rw [hblock, if_neg hidlt, if_pos rfl]
      simp [Block.modifyLast, hlast, hinstrs]
    · rw [hblock, if_neg hexitlt, if_neg hne.symm, if_pos rfl]
    · rw [hblock, if_neg hsize, if_neg hjid, if_neg hjexit]

namespace Splits

variable {B : BlockId → Prop} {exit j : BlockId} {is : List Instr} {i : Instr}
variable (hs : g.Splits h id exit is i)
include hs

theorem instrs_eq (hj : j ≠ g.blocks.size) (hne : j ≠ id) :
    (h.block j).instrs = (g.block j).instrs := by
  by_cases hexit : j = exit
  · rw [hexit, hs.left]
  · rw [hs.other j hj hne hexit]

theorem isHandler_eq (hj : j ≠ g.blocks.size) : (h.block j).isHandler = (g.block j).isHandler := by
  by_cases hid : j = id
  · rw [hid, hs.self]
  · by_cases hexit : j = exit
    · rw [hexit, hs.left]
    · rw [hs.other j hj hid hexit]

theorem fallthrough?_eq (hj : j ≠ g.blocks.size) : h.fallthrough? j = g.fallthrough? j := by
  by_cases hid : j = id
  · subst hid
    simp only [fallthrough?, hs.self, Block.fallsThrough, Block.last?, hs.instrs, getLast?_concat]
    rfl
  · by_cases hexit : j = exit
    · subst hexit
      have hfalls := Block.fallsThrough_of_exitsScope hs.exits
      have hfalls' : (h.block j).fallsThrough = false := by rw [hs.left]; exact hfalls
      simp [fallthrough?, hfalls, hfalls']
    · rw [fallthrough?, fallthrough?, hs.other j hj hid hexit]

theorem successors_eq (hj : j ≠ g.blocks.size) (hne : j ≠ id) :
    h.successors j = g.successors j := by
  rw [successors, successors, hs.instrs_eq hj hne, hs.fallthrough?_eq hj]

theorem successors_self : ∃ pre post,
    g.successors id = pre ++ exit :: post ∧ h.successors id = pre ++ g.blocks.size :: post := by
  refine ⟨is.filterMap (·.target), (g.fallthrough? id).toList, ?_, ?_⟩
  · simp [successors, hs.instrs, hs.target]
  · rw [successors, hs.fallthrough?_eq (Nat.ne_of_lt (lt_size_of_instrs hs.instrs)), hs.self]
    simp

theorem successors_copy : h.successors g.blocks.size = g.successors exit :=
  successors_eq_of_alike (alike_of_places hs.copied) hs.next

/-- The blocks that follow stand for those that followed before. -/
theorem map_successors (hg : g.Within B) (hj : B (standsFor g.blocks.size exit j)) :
    (h.successors j).map (standsFor g.blocks.size exit) =
      g.successors (standsFor g.blocks.size exit j) := by
  have hsize : standsFor g.blocks.size exit g.blocks.size = exit := if_pos rfl
  have hkeep : ∀ ids : List BlockId, (∀ b ∈ ids, B b) →
      ids.map (standsFor g.blocks.size exit) = ids := fun ids hids =>
    (map_congr_left fun b hb => standsFor_of_ne (Nat.ne_of_lt (hg.bound b (hids b hb)))).trans
      (map_id' ids)
  have hstep := hg.step _ hj
  by_cases hcopy : j = g.blocks.size
  · rw [hcopy, hsize] at hstep ⊢
    rw [hs.successors_copy]
    exact hkeep _ hstep
  · rw [standsFor_of_ne hcopy] at hstep ⊢
    by_cases hid : j = id
    · obtain ⟨pre, post, hbefore, hafter⟩ := hs.successors_self
      rw [hid, hbefore, forall_mem_append, forall_mem_cons] at hstep
      rw [hid, hbefore, hafter, map_append, map_cons, hsize, hkeep pre hstep.1,
        hkeep post hstep.2.2]
    · rw [hs.successors_eq hcopy hid]
      exact hkeep _ hstep

theorem standsFor_entry (hg : g.Within B) : standsFor g.blocks.size exit h.entry = g.entry := by
  rw [hs.entry, standsFor_of_ne (Nat.ne_of_lt (hg.bound _ hg.entry))]

theorem within (hg : g.Within B) : h.Within fun j => B (standsFor g.blocks.size exit j) where
  entry := (hs.standsFor_entry hg).symm ▸ hg.entry
  bound j hj := by
    rw [hs.size]
    by_cases hcopy : j = g.blocks.size
    · exact hcopy ▸ Nat.lt_succ_self _
    · rw [standsFor_of_ne hcopy] at hj
      exact Nat.lt_succ_of_lt (hg.bound j hj)
  step a ha b hb := by
    refine hg.step _ ha _ ?_
    rw [← hs.map_successors hg ha]
    exact mem_map_of_mem hb

/-- The copy stands in the layout, right after the exit, if the exit does. -/
theorem layout (hg : g.LaysOut g.order) : h.LaysOut h.order ∧
    ∀ j, j ∈ h.order ↔ standsFor g.blocks.size exit j ∈ g.order := by
  have hnew : g.blocks.size ∉ g.order := fun hmem => Nat.lt_irrefl _ (hg.bound _ hmem)
  have hkeep : ∀ j ∈ g.order, j ≠ exit → (h.block j).next = (g.block j).next := by
    intro j hj hne
    by_cases hjid : j = id
    · rw [hjid, hs.self]
    · rw [hs.other j (ne_of_mem_of_not_mem hj hnew) hjid hne]
  by_cases hexit : exit ∈ g.order
  · obtain ⟨pre, post, horder, hlays⟩ :=
      hg.insert hexit hs.entry hs.size (by rw [hs.left]) hs.next hkeep
    rw [hlays.order]
    refine ⟨hlays, fun j => ?_⟩
    rw [standsFor]
    split_ifs with hcopy
    · simp [hcopy, hexit]
    · simp [horder, hcopy]
  · have hlays := hg.congr hs.entry (fun j hj => hkeep j hj (ne_of_mem_of_not_mem hj hexit))
      (hs.size ▸ Nat.le_succ _)
    rw [hlays.order]
    refine ⟨hlays, fun j => ?_⟩
    rw [standsFor]
    split_ifs with hcopy
    · exact iff_of_false (hcopy ▸ hnew) hexit
    · rfl

theorem order_subset (hg : g.LaysOut g.order) : g.order ⊆ h.order := by
  intro j hj
  rw [(hs.layout hg).2, standsFor_of_ne (hg.ne_size hj)]
  exact hj

theorem wellEnded (hg : g.LaysOut g.order) (hended : g.WellEnded) : h.WellEnded := by
  intro j hj
  rw [(hs.layout hg).2, standsFor] at hj
  split_ifs at hj with hcopy
  · rw [hcopy]
    exact (Alike.endsAs (alike_of_places hs.copied)).terminatorsLast (hended exit hj)
  · by_cases hid : j = id
    · have hold := hended id hs.mem
      rw [hs.instrs] at hold
      rw [hid, hs.self]
      simpa [TerminatorsLast] using hold
    · rw [hs.instrs_eq hcopy hid]
      exact hended j hj

section

variable (hg : g.Wired)
include hg

theorem exit_mem : exit ∈ g.order :=
  hg.targets id hs.mem i (by simp [hs.instrs]) exit hs.target

theorem mem_order_iff : j ∈ h.order ↔ j = g.blocks.size ∨ j ∈ g.order := by
  rw [(hs.layout hg.layout).2, standsFor]
  split_ifs with hcopy
  · exact iff_of_true (hs.exit_mem hg) (.inl hcopy)
  · simp [hcopy]

/-- An instruction comes from the first graph, or it is the jump to the copy. -/
theorem mem_instrs {x : Instr} (hj : j ∈ h.order) (hx : x ∈ (h.block j).instrs) :
    (∃ a ∈ g.order, ∃ y ∈ (g.block a).instrs, y.Places x) ∨
      x = { i with target := some g.blocks.size } := by
  rcases (hs.mem_order_iff hg).mp hj with rfl | hj
  · exact .inl ⟨exit, hs.exit_mem hg, Result.exists_of_mem_forall₂ hs.copied hx⟩
  · by_cases hid : j = id
    · rw [hid, hs.self] at hx
      rcases mem_append.mp hx with hx | hx
      · exact .inl ⟨id, hs.mem, x, by simp [hs.instrs, hx], Std.Refl.refl x⟩
      · exact .inr (mem_singleton.mp hx)
    · rw [hs.instrs_eq (hg.layout.ne_size hj) hid] at hx
      exact .inl ⟨j, hj, x, hx, Std.Refl.refl x⟩

theorem wired : h.Wired := by
  refine ⟨(hs.layout hg.layout).1, fun j hj x hx t ht => (hs.mem_order_iff hg).mpr ?_⟩
  rcases hs.mem_instrs hg hj hx with ⟨a, ha, y, hy, loc, rfl, _⟩ | rfl
  · exact .inr (hg.targets a ha y hy t ht)
  · exact .inl (Option.some.inj ht).symm

end

theorem regular (hg : g.Regular) : h.Regular := by
  have hw := hg.closed.wired
  have hmem : ∀ {j}, j ∈ h.order ↔ j = g.blocks.size ∨ j ∈ g.order := hs.mem_order_iff hw
  have hold : ∀ x, g.Holds x → h.Holds x := by
    intro x hx
    refine ⟨⟨hx.refers, fun t ht => hmem.mpr (.inr (hx.target t ht)),
      fun t ht => hmem.mpr (.inr (hx.handler t ht))⟩, fun hop t ht => ?_⟩
    rw [hs.isHandler_eq (hg.layout.ne_size (hx.target t ht))]
    exact hx.opens hop t ht
  refine ⟨(hs.wired hw).layout, hs.wellEnded hg.layout hg.ended, fun j hj x hx => ?_⟩
  rcases hs.mem_instrs hw hj hx with ⟨a, ha, y, hy, loc, rfl, _⟩ | rfl
  · exact hold _ ((hg.holds a ha y hy).place loc)
  · exact (hold i (hg.holds id hs.mem i (by simp [hs.instrs]))).jump hs.jump (hmem.mpr (.inl rfl))

end Splits

/-! ### Edges on record -/

def edges (g : Graph) : List BlockId :=
  g.entry :: g.reachable.flatMap g.successors

/-- No block that can be reached has more predecessors on record than edges lead to it. -/
def Counted (g : Graph) : Prop :=
  ∀ id ∈ g.reachable, (g.block id).predecessors ≤ g.edges.count id

theorem reachable_of_alike (hk : Relates Alike g k) : k.reachable = g.reachable := by
  rw [reachable, reachable, hk.links.size, hk.links.entry, funext (successors_of_alike hk)]

theorem edges_of_alike (hk : Relates Alike g k) : k.edges = g.edges := by
  rw [edges, edges, reachable_of_alike hk, hk.links.entry, funext (successors_of_alike hk)]

section

variable {B : BlockId → Prop} (hg : g.Within B)
include hg

theorem Within.lt_size (ha : a ∈ g.reachable) : a < g.blocks.size :=
  hg.bound a (hg.inside (hg.mem_reachable_iff.mp ha))

theorem Within.ne_size (ha : a ∈ g.reachable) : a ≠ g.blocks.size :=
  Nat.ne_of_lt (hg.lt_size ha)

theorem Within.mem_reachable_of_mem_edges (ha : a ∈ g.edges) : a ∈ g.reachable := by
  rcases mem_cons.mp ha with rfl | ha
  · exact hg.mem_reachable_iff.mpr (.root (mem_singleton.mpr rfl))
  · obtain ⟨b, hb, hab⟩ := mem_flatMap.mp ha
    exact hg.reachable_step hb hab

theorem Within.counted_countPredecessors : g.countPredecessors.Counted := by
  have halike := (relates_countPredecessors g).alike
  intro id hid
  rw [reachable_of_alike halike] at hid
  rw [hg.predecessors_eq (hg.lt_size hid), edges_of_alike halike]
  exact Nat.le_refl _

variable (hs : g.Splits h id exit is i)
include hs

/-- What could be reached still can be; in place of the exit it may be the copy. -/
theorem Splits.reaches (ha : Reaches g.successors [g.entry] a) : Reaches h.successors [h.entry] a ∨
      a = exit ∧ Reaches h.successors [h.entry] g.blocks.size := by
  induction ha with
  | root ha => exact .inl (.root (hs.entry ▸ ha))
  | @step a b ha hb ih =>
    have hne := Nat.ne_of_lt (hg.bound a (hg.inside ha))
    by_cases hid : a = id
    · subst hid
      have hreach := ih.resolve_right fun h => hs.ne h.1
      obtain ⟨pre, post, hold, hnew⟩ := hs.successors_self
      rw [hold] at hb
      by_cases hbe : b = exit
      · exact .inr ⟨hbe, hreach.step (by simp [hnew])⟩
      · refine .inl (hreach.step ?_)
        rw [hnew]
        simp only [mem_append, mem_cons] at hb ⊢
        tauto
    · rcases ih with hreach | ⟨rfl, hreach⟩
      · exact .inl (hreach.step (by rwa [hs.successors_eq hne hid]))
      · exact .inl (hreach.step (by rwa [hs.successors_copy]))

variable (hid : id ∈ g.reachable)
include hid

theorem Splits.exit_mem_reachable : exit ∈ g.reachable := by
  obtain ⟨pre, post, hold, _⟩ := hs.successors_self
  exact hg.reachable_step hid (by simp [hold])

omit hid in
theorem Splits.reaches_of_ne (ha : a ∈ g.reachable) (hne : a ≠ exit) :
    Reaches h.successors [h.entry] a :=
  (hs.reaches hg (hg.mem_reachable_iff.mp ha)).resolve_right fun h => hne h.1

theorem Splits.reaches_copy : Reaches h.successors [h.entry] g.blocks.size := by
  obtain ⟨pre, post, _, hnew⟩ := hs.successors_self
  exact (hs.reaches_of_ne hg hid hs.ne).step (by simp [hnew])

theorem Splits.count_successors (t : BlockId) :
    (h.entry :: (g.blocks.size :: g.reachable).flatMap h.successors).count t +
        (if t = exit then 1 else 0) =
      g.edges.count t + (if t = g.blocks.size then 1 else 0) + (g.successors exit).count t := by
  obtain ⟨pre, post, hreachable⟩ := append_of_mem hid
  obtain ⟨xs, ys, hold, hnew⟩ := hs.successors_self
  have hrest : (pre ++ post).flatMap h.successors = (pre ++ post).flatMap g.successors := by
    refine flatMap_congr fun j hj => hs.successors_eq (hg.ne_size ?_) ?_
    · rw [hreachable]
      simp only [mem_append, mem_cons] at hj ⊢
      tauto
    · rintro rfl
      have hnodup := hreachable ▸ g.nodup_reachable
      exact (nodup_cons.mp (nodup_middle.mp hnodup)).1 hj
  have hperm : g.reachable.Perm (id :: (pre ++ post)) := hreachable ▸ perm_middle
  rw [edges, hs.entry, count_cons, count_cons, (hperm.flatMap_right g.successors).count_eq,
    ((hperm.cons _).flatMap_right h.successors).count_eq]
  simp only [flatMap_cons, hrest, hold, hnew, hs.successors_copy, count_append, count_cons,
    beq_iff_eq]
  have h₁ : (exit = t) = (t = exit) := propext eq_comm
  have h₂ : (g.blocks.size = t) = (t = g.blocks.size) := propext eq_comm
  simp only [h₁, h₂]
  omega

variable (hcounted : g.Counted)
include hcounted

/-- An exit that had more than one predecessor on record still has one. -/
theorem Splits.reaches_exit : Reaches h.successors [h.entry] exit := by
  have hexit := hs.exit_mem_reachable hg hid
  have hcopy := hs.reaches_copy hg hid
  have hcount := hs.count_successors hg hid exit
  have hrecord := hcounted exit hexit
  have hshared := hs.shared
  rw [if_pos rfl] at hcount
  have hedge : 0 < (h.entry :: (g.blocks.size :: g.reachable).flatMap h.successors).count exit := by
    omega
  rcases mem_cons.mp (count_pos_iff.mp hedge) with hentry | hedge
  · exact .root (mem_singleton.mpr hentry)
  · obtain ⟨b, hb, hedge⟩ := mem_flatMap.mp hedge
    rcases mem_cons.mp hb with rfl | hb
    · exact hcopy.step hedge
    · by_cases hbe : b = exit
      · -- An exit that leads to itself: so does its copy.
        rw [hbe, hs.successors_eq (hg.ne_size hexit) hs.ne.symm, ← hs.successors_copy] at hedge
        exact hcopy.step hedge
      · exact (hs.reaches_of_ne hg hb hbe).step hedge

theorem Splits.mem_reachable_iff : a ∈ h.reachable ↔ a = g.blocks.size ∨ a ∈ g.reachable := by
  have hw := hs.within hg.reaching
  rw [hw.mem_reachable_iff]
  constructor
  · intro ha
    have ha := hw.inside ha
    rw [standsFor] at ha
    split_ifs at ha with hcopy
    · exact .inl hcopy
    · exact .inr (hg.mem_reachable_iff.mpr ha)
  · rintro (rfl | ha)
    · exact hs.reaches_copy hg hid
    · by_cases hae : a = exit
      · exact hae ▸ hs.reaches_exit hg hid hcounted
      · exact hs.reaches_of_ne hg ha hae

theorem Splits.count_edges (t : BlockId) :
    h.edges.count t + (if t = exit then 1 else 0) =
      g.edges.count t + (if t = g.blocks.size then 1 else 0) + (g.successors exit).count t := by
  have hnew : g.blocks.size ∉ g.reachable := fun hmem => hg.ne_size hmem rfl
  have hperm : h.reachable.Perm (g.blocks.size :: g.reachable) :=
    (perm_ext_iff_of_nodup h.nodup_reachable (nodup_cons.mpr ⟨hnew, g.nodup_reachable⟩)).mpr
      fun a => (hs.mem_reachable_iff hg hid hcounted).trans mem_cons.symm
  rw [← hs.count_successors hg hid t, edges, count_cons, count_cons,
    (hperm.flatMap_right h.successors).count_eq]

theorem Splits.counted : h.Counted := by
  intro j hj
  have hcount := hs.count_edges hg hid hcounted j
  rcases (hs.mem_reachable_iff hg hid hcounted).mp hj with rfl | hj
  · rw [if_pos rfl, if_neg (Nat.ne_of_gt (exit_lt_size hs.exits))] at hcount
    rw [hs.count]
    omega
  · have hne := hg.ne_size hj
    rw [if_neg hne] at hcount
    have hold := hcounted j hj
    by_cases hexit : j = exit
    · subst hexit
      rw [if_pos rfl] at hcount
      rw [hs.left]
      dsimp only
      omega
    · rw [if_neg hexit] at hcount
      have hsame : (h.block j).predecessors = (g.block j).predecessors := by
        by_cases hid : j = id
        · rw [hid, hs.self]
        · rw [hs.other j hne hid hexit]
      omega

omit hid in
theorem Splits.reached (hlayout : g.LaysOut g.order) (hreached : g.Reached) : h.Reached := by
  have hmem : ∀ j ∈ g.order, j ∈ g.reachable := fun j hj =>
    hg.mem_reachable_iff.mpr (hreached j hj)
  intro j hj
  refine (hs.within hg).mem_reachable_iff.mp
    ((hs.mem_reachable_iff hg (hmem id hs.mem) hcounted).mpr ?_)
  rw [(hs.layout hlayout).2, standsFor] at hj
  split_ifs at hj with hcopy
  · exact .inl hcopy
  · exact .inr (hmem j hj)

end

theorem Compact.splits (hg : g.Compact) (hcounted : g.Counted) (hs : g.Splits h id exit is i) :
    h.Compact := by
  have hw := hg.regular.closed.wired
  refine ⟨hs.regular hg.regular, fun j hj => ?_,
    hs.reached hw.within hcounted hw.layout hg.reached⟩
  rcases (hs.mem_order_iff hw).mp hj with rfl | hj
  · intro hnil
    have hlength := hs.copied.length_eq
    rw [hnil, length_nil, length_eq_zero_iff] at hlength
    exact hg.full exit (hs.exit_mem hw) hlength
  · by_cases hjid : j = id
    · rw [hjid, hs.self]
      simp
    · rw [hs.instrs_eq (hw.layout.ne_size hj) hjid]
      exact hg.full j hj

theorem LaysOut.splitExits_induction {P : Graph → Prop} {ids : List BlockId}
    (hg : g.LaysOut g.order) (hids : ids ⊆ g.order) (hstart : P g)
    (hstep : ∀ {g h id exit is i}, g.LaysOut g.order → P g → g.Splits h id exit is i → P h) :
    P (ids.foldl splitExit g) := by
  induction ids generalizing g with
  | nil => exact hstart
  | cons id ids ih =>
    obtain ⟨hid, hids⟩ := cons_subset.mp hids
    rcases splitExit_cases hid with heq | ⟨exit, is, i, hs⟩
    · rw [foldl_cons, heq]
      exact ih hg hids hstart
    · exact ih (hs.layout hg).1 (List.Subset.trans hids (hs.order_subset hg)) (hstep hg hstart hs)

theorem Tidied.resolveLines (hg : g.Tidied) (firstLine : Int) :
    (g.resolveLines firstLine).Tidied := by
  have hcount := hg.of_eq (relates_countPredecessors g)
  have hsplit := hcount.regular.layout.splitExits_induction
    (P := fun g => g.Tidied ∧ g.Counted) (List.Subset.refl _)
    ⟨hcount, hg.regular.closed.within.counted_countPredecessors⟩ fun _ hg hs => by
      have hcompact := hg.1.rest.resolve_left fun h => by
        have hnil := h _ hs.mem
        rw [hs.instrs] at hnil
        simp at hnil
      have hnew := hcompact.splits hg.2 hs
      have hw := hcompact.regular.closed.within
      have hid := hw.mem_reachable_iff.mpr (hcompact.reached _ hs.mem)
      exact ⟨⟨hnew.regular, .inr hnew⟩, hs.counted hw hid hg.2⟩
  exact hsplit.1.of_alike (relates_fillLines _ firstLine) fun _ _ => Places.alike

/-! ### Constants -/

theorem relates_dropUnusedConstants (h : g.dropUnusedConstants cs = .ok (k, cs')) :
    Relates Renumbers g k := by
  unfold Graph.dropUnusedConstants at h
  split_ifs at h
  · cases h
    exact .refl g
  · obtain ⟨used, _, h⟩ := Result.bind_eq_ok.mp h
    cases h
    exact .mapInstrs (fun is => forall₂_map_right_iff.mpr
      (forall₂_same.mpr fun i _ => renumbers_renumber _ i)) g

theorem Tidied.dropUnusedConstants (hg : g.Tidied) (h : g.dropUnusedConstants cs = .ok (k, cs')) :
    k.Tidied :=
  hg.of_alike (relates_dropUnusedConstants h) fun _ _ => Renumbers.alike

end Graph

end Bytecode
