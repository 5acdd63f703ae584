import Bytecode.Proofs.Optimizer.Drafts

/-!
# Operations of finished code

Passes and assembly bring in only operations of a few kinds. What holds of those, and of the
operations of a graph under construction, holds of the opcodes of its code.
-/

namespace Bytecode

open List

/-- The operations that passes and assembly bring into a unit. -/
def Operation.isIntroduced (op : Operation) : Bool :=
  op.isMade || match op with
    | .real .loadFast | .real .loadFastCheck | .real .copyFreeVars | .real .makeCell
    | .real .returnGenerator => true
    | .real op => op.direction?.isSome
    | .pseudo _ => false

namespace Graph

variable {g h k : Graph} {P : Operation → Prop}

def Uses (P : Operation → Prop) (g : Graph) : Prop :=
  ∀ id ∈ g.order, ∀ i ∈ (g.block id).instrs, P i.op

namespace Uses

theorem relates {R : Instr → Instr → Prop} (hg : g.Uses P) (h : Relates R g k)
    (hR : ∀ i j, R i j → P i.op → P j.op) : k.Uses P := by
  intro id hid j hj
  rw [h.links.order] at hid
  obtain ⟨i, hi, hij⟩ := Result.exists_of_mem_forall₂ (h.instrs id) hj
  exact hR i j hij (hg id hid i hi)

theorem supplies (hP : ∀ op, op.isIntroduced → P op) (hg : g.Uses P) (h : g.Supplies k) :
    k.Uses P := by
  intro id hid j hj
  obtain ⟨a, ha, i, hi, hmade | ⟨hop, _⟩⟩ := h id hid j hj
  · exact hP _ (by simp [Operation.isIntroduced, hmade])
  · exact hop ▸ hg a ha i hi

theorem resolveLabels (hdraft : g.Draft) (hg : g.Uses P) (h : g.resolveLabels = .ok k) :
    k.Uses P := by
  have horder := hdraft.laysOut.order
  obtain ⟨hlinks, hinstrs, _⟩ := mapInstrsM_spec (horder ▸ hdraft.laysOut.nodup) h
  intro id hid j hj
  rw [hlinks.order] at hid
  obtain ⟨i, hi, hij⟩ := Result.exists_of_mem_mapM (hinstrs id hid) hj
  have hop : j.op = i.op := by
    unfold resolveInstr at hij
    split at hij
    · split at hij <;> cases hij
      rfl
    · cases hij
      rfl
  exact hop ▸ hg id hid i hi

theorem markHandlers (hg : g.Uses P) : g.markHandlers.Uses P := by
  intro id hid i hi
  rw [instrs_markHandlers] at hi
  exact hg id (g.sameLinks_markHandlers.order ▸ hid) i hi

theorem labelHandlers (hg : g.Uses P) (h : g.labelHandlers = .ok k) : k.Uses P :=
  hg.relates (relates_labelHandlers h) fun _ _ ⟨_, _, hj, _⟩ hi => hj ▸ hi

section

variable (hP : ∀ op, op.isIntroduced → P op) (hg : g.Uses P)
include hP hg

theorem checkUnboundLoads (localCount paramCount : Nat) :
    (g.checkUnboundLoads localCount paramCount).Uses P := by
  refine hg.relates (relates_checkUnboundLoads g localCount paramCount) fun i j hij hi => ?_
  rcases hij with rfl | ⟨_, rfl⟩
  · exact hi
  · exact hP _ rfl

/-- The blocks that are added between cold blocks and warm ones jump. -/
theorem bridges (hc : g.Closed) {id next : BlockId} (hb : g.Bridges h id next) : h.Uses P := by
  intro j hj i hi
  rcases (hb.mem_order_iff hc).mp hj with rfl | hj
  · rw [hb.jump] at hi
    obtain rfl := mem_singleton.mp hi
    exact hP _ rfl
  · obtain ⟨_, hblock, _⟩ := hb.block_eq hc hj
    rw [hblock] at hi
    exact hg j hj i hi

theorem moveColdToEnd (ht : g.Tidied) : g.moveColdToEnd.Uses P := by
  refine (moveColdToEnd_induction (I := fun g => g.Tidied ∧ g.Uses P) ht.regular.closed ⟨ht, hg⟩
    ?_ ?_ ?_ ?_).2
  · exact ⟨ht.of_eq (relates_markCold g),
      hg.relates (relates_markCold g) fun _ _ hij hi => hij ▸ hi⟩
  · exact fun ⟨ht, hg⟩ hc htempered hb => ⟨ht.bridges htempered hb, hg.bridges hP hc hb⟩
  · intro g ⟨ht, hg⟩ hb
    refine ⟨hb.tidied_coldLast ht, fun id hid i hi => ?_⟩
    rw [(laysOut_coldLast hb.closed hb.tempered).order, mem_coldLast] at hid
    obtain ⟨_, hblock⟩ := g.block_setLayout g.coldLast id
    rw [hblock] at hi
    exact hg id hid i hi
  · exact fun ⟨ht, hg⟩ _ =>
      ⟨ht.dropRedundantJumps,
        hg.supplies hP ((becomes_dropRedundantJumps _ []).steps.supplies ht.regular)⟩

end

theorem renumbers (hg : g.Uses P) (h : Relates Instr.Renumbers g k) : k.Uses P := by
  refine hg.relates h fun i j hij hi => ?_
  rcases hij with rfl | ⟨_, _, rfl⟩ <;> exact hi

theorem splits {id exit : BlockId} {is : List Instr} {i : Instr} (hg : g.Uses P) (hw : g.Wired)
    (hs : g.Splits h id exit is i) : h.Uses P := by
  intro j hj x hx
  rcases hs.mem_instrs hw hj hx with ⟨a, ha, y, hy, _, rfl, _⟩ | rfl
  · exact hg a ha y hy
  · exact hg id hs.mem i (by simp [hs.instrs])

theorem resolveLines (hg : g.Uses P) (hr : g.Regular) (firstLine : Int) :
    (g.resolveLines firstLine).Uses P := by
  have hcount := relates_countPredecessors g
  have hw := (hr.of_eq hcount).closed.wired
  have hall := hw.layout.splitExits_induction (P := fun g => g.Wired ∧ g.Uses P)
    (List.Subset.refl _) ⟨hw, hg.relates hcount fun _ _ hij hi => hij ▸ hi⟩
    fun _ ⟨hw, hg⟩ hs => ⟨hs.wired hw, hg.splits hw hs⟩
  exact hall.2.relates (relates_fillLines _ firstLine) fun _ _ ⟨_, hj, _⟩ hi => hj ▸ hi

variable {config : PassConfig} {shape : UnitShape} {cs cs' : List Constant}

theorem optimizeUnit (hP : ∀ op, op.isIntroduced → P op) (hdraft : g.Draft) (hg : g.Uses P)
    (h : g.optimizeUnit config shape cs = .ok (k, cs')) : k.Uses P ∧ k.order.Nodup := by
  obtain ⟨r, hlabels, _⟩ := Result.bind_eq_ok.mp h
  obtain ⟨labelled, first, second, final, hs⟩ := (hdraft.resolved hlabels).exists_stages hlabels h
  have hlabelled := (hg.resolveLabels hdraft hlabels).markHandlers.labelHandlers hs.labels
  have hfirst := hlabelled.supplies hP (Steps.supplies hs.early hs.regular)
  have hchecked := hs.tidiedFirst.checkUnboundLoads shape.localCount shape.paramCount
  have hmoved := (hfirst.checkUnboundLoads hP shape.localCount shape.paramCount).moveColdToEnd hP
    hchecked
  have hsecond := hmoved.supplies hP (Steps.supplies hs.late hchecked.moveColdToEnd.regular)
  have hfinal := hsecond.renumbers hs.constants
  rw [hs.lines]
  exact ⟨hfinal.resolveLines hs.tidiedFinal.regular shape.firstLine,
    (hs.tidiedFinal.resolveLines shape.firstLine).regular.closed.layout.nodup⟩

/-! ### Code -/

theorem mem_setup (hP : ∀ op, op.isIntroduced → P op) {f : Frame} {i : Instr} (hi : i ∈ f.setup) :
    P i.op := by
  simp only [Frame.setup, mem_append, mem_map] at hi
  rcases hi with (hi | ⟨c, _, rfl⟩) | hi
  · split_ifs at hi
    · simp at hi
    · obtain rfl := mem_singleton.mp hi
      exact hP _ rfl
  · exact hP _ rfl
  · split_ifs at hi
    · simp only [mem_cons, not_mem_nil, or_false] at hi
      rcases hi with rfl | rfl <;> exact hP _ rfl
    · simp at hi

/-- The code of a graph has the operations of the graph, or ones that assembly brings in. -/
theorem decode_assemble (hP : ∀ op, op.isIntroduced → P op) (hext : ¬P (.real .extendedArg))
    (hg : g.Uses P) (hnodup : g.order.Nodup) {f : Frame} {c : CodeObject}
    (h : assemble g cs f = .ok c) :
    ∃ ds, decode c.code = .ok ds ∧ ∀ d ∈ ds, P (.real d.op) := by
  obtain ⟨a, harrange, hcode⟩ := exists_of_assemble h
  obtain ⟨directed, hfollows⟩ := arrange_spec hnodup harrange
  have hlayout : ∀ j ∈ a.layout.instrs, P j.op := by
    intro j hj
    obtain ⟨s, hs, i, seen, js, hjs, hi, -, hij⟩ := hfollows.origin hj
    have hsource : P s.op := by
      rcases mem_append.mp hs with hs | hs
      · exact mem_setup hP hs
      · obtain ⟨_, his, hs⟩ := mem_flatten.mp hs
        obtain ⟨id, hid, rfl⟩ := mem_map.mp his
        exact hg id hid s hs
    have hdirected : P i.op := by
      rcases mem_directInstr hjs hi with ⟨rfl, _⟩ | ⟨_, op, _, _, _, hop, hdir, _⟩ | hop | hop
      · exact hsource
      · rw [hop]
        refine hP _ ?_
        unfold Operation.isIntroduced
        split <;> simp_all
      · exact hop ▸ hP _ rfl
      · exact hop ▸ hP _ rfl
    cases hij with
    | same hop => exact hop ▸ hdirected
    | idle _ hop => exact hop ▸ hP _ rfl
    | closure _ hop => exact hop ▸ hP _ rfl
  obtain ⟨ds, hds, _, hreads⟩ := Layout.decode_encode
    (fun i hi he => hext (he ▸ hlayout i hi)) (Arrangement.toCode_spec hcode).1
  refine ⟨ds, hds, fun d hd => ?_⟩
  obtain ⟨n, hn⟩ := mem_iff_getElem?.mp hd
  have hlt : n < a.layout.instrs.length := hreads.length ▸ (List.getElem?_eq_some_iff.mp hn).1
  have hi := getElem?_eq_getElem hlt
  exact hreads.op hi hn ▸ hlayout _ (getElem_mem hlt)

end Uses

end Graph

end Bytecode
