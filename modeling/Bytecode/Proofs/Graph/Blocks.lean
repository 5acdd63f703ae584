import Bytecode.Graph
import Bytecode.Proofs.Result

/-!
# Blocks and links

What a change of one block does to the others, and which changes leave the layout alone: those that
keep the entry, the number of blocks and the links between them.
-/

namespace Bytecode

open Array

variable {id : BlockId}

namespace Block

theorem instrs_of_last? {b : Block} {i : Instr} (h : b.last? = some i) :
    b.instrs = b.instrs.dropLast ++ [i] := by
  obtain ⟨init, hinit⟩ := List.getLast?_eq_some_iff.mp h
  rw [hinit, List.dropLast_concat]

@[simp] theorem next_modifyLast (b : Block) (f : Instr → Instr) :
    (b.modifyLast f).next = b.next := by
  unfold modifyLast
  split <;> rfl

@[simp] theorem next_modifyHead (b : Block) (f : Instr → Instr) :
    (b.modifyHead f).next = b.next := by
  unfold modifyHead
  split <;> rfl

@[simp] theorem isHandler_modifyHead (b : Block) (f : Instr → Instr) :
    (b.modifyHead f).isHandler = b.isHandler := by
  unfold modifyHead
  split <;> rfl

theorem instrs_modifyLast {b : Block} {i : Instr} (h : b.last? = some i)
    (f : Instr → Instr) : (b.modifyLast f).instrs = b.instrs.dropLast ++ [f i] := by
  simp [modifyLast, h]

end Block

namespace Graph

variable {g h k : Graph} {f : Instr → Result Instr} {pre post ids : List BlockId}

theorem block_eq_of_lt (g : Graph) (hid : id < g.blocks.size) : g.block id = g.blocks[id] := by
  simp [block, hid]

theorem block_eq_of_size_le (g : Graph) (hid : g.blocks.size ≤ id) : g.block id = {} := by
  simp [block, hid]

@[simp] theorem size_modify (g : Graph) (id : BlockId) (f : Block → Block) :
    (g.modify id f).blocks.size = g.blocks.size := by
  simp [modify]

@[simp] theorem entry_modify (g : Graph) (id : BlockId) (f : Block → Block) :
    (g.modify id f).entry = g.entry := rfl

theorem block_modify (g : Graph) (id : BlockId) (f : Block → Block) (j : BlockId) :
    (g.modify id f).block j = if id = j ∧ j < g.blocks.size then f (g.block j) else g.block j := by
  simp only [modify, block, getElem?_modify]
  by_cases hj : j < g.blocks.size <;> by_cases hid : id = j <;> simp [hid, hj]

theorem block_modify_of_ne (g : Graph) {j : BlockId} (f : Block → Block) (h : id ≠ j) :
    (g.modify id f).block j = g.block j := by
  rw [block_modify, if_neg (fun hj => h hj.1)]

theorem block_modify_self (g : Graph) (f : Block → Block) (h : id < g.blocks.size) :
    (g.modify id f).block id = f (g.block id) := by
  rw [block_modify, if_pos ⟨rfl, h⟩]

theorem block_addBlock (g : Graph) (b : Block) (id : BlockId) :
    (g.addBlock b).1.block id = if id = g.blocks.size then b else g.block id := by
  simp only [addBlock, block, getElem?_push]
  split_ifs <;> rfl

theorem block_mapIdx (g : Graph) (f : Nat → Block → Block) (id : BlockId) :
    ({ g with blocks := g.blocks.mapIdx f } : Graph).block id =
      if id < g.blocks.size then f id (g.block id) else g.block id := by
  by_cases hid : id < g.blocks.size <;> simp [block, hid]

@[simp] theorem size_setInstrs (g : Graph) (id : BlockId) (instrs : List Instr) :
    (g.setInstrs id instrs).blocks.size = g.blocks.size := by
  simp [setInstrs]

@[simp] theorem entry_setInstrs (g : Graph) (id : BlockId) (instrs : List Instr) :
    (g.setInstrs id instrs).entry = g.entry := rfl

theorem block_setInstrs (g : Graph) (id : BlockId) (instrs : List Instr) (j : BlockId) :
    (g.setInstrs id instrs).block j =
      if id = j ∧ j < g.blocks.size then { g.block j with instrs := instrs } else g.block j :=
  block_modify ..

theorem block_setInstrs_of_ne (g : Graph) {j : BlockId} (instrs : List Instr) (h : id ≠ j) :
    (g.setInstrs id instrs).block j = g.block j :=
  block_modify_of_ne _ _ h

theorem setInstrs_self (g : Graph) (id : BlockId) : g.setInstrs id (g.block id).instrs = g := by
  obtain ⟨blocks, entry, current, labels⟩ := g
  simp only [setInstrs, modify, mk.injEq, and_true]
  apply ext_getElem?
  intro j
  rw [getElem?_modify]
  split_ifs with hj
  · subst hj
    cases hb : blocks[id]? with
    | none => rfl
    | some b => simp [block, hb]
  · rfl

theorem setInstrs_setInstrs (g : Graph) (id : BlockId) (a b : List Instr) :
    (g.setInstrs id a).setInstrs id b = g.setInstrs id b := by
  simp only [setInstrs, modify, mk.injEq, and_true]
  apply ext_getElem?
  intro j
  simp only [getElem?_modify]
  split_ifs <;> simp [Function.comp_def]

theorem modify_eq_self (hid : g.blocks.size ≤ id) (f : Block → Block) : g.modify id f = g := by
  have hblocks : g.blocks.modify id f = g.blocks := by
    refine ext (by simp) fun k hk hk' => ?_
    rw [getElem_modify, if_neg (by omega)]
  rw [modify, hblocks]

theorem modify_eq_setInstrs {f : Block → Block} {is : List Instr}
    (hf : f (g.block id) = { g.block id with instrs := is }) :
    g.modify id f = g.setInstrs id is := by
  rcases Nat.lt_or_ge id g.blocks.size with hid | hid
  · rw [block_eq_of_lt g hid] at hf
    refine congrArg (fun blocks => { g with blocks := blocks }) ?_
    refine ext (by simp) fun k hk hk' => ?_
    simp only [getElem_modify]
    split_ifs with hk
    · subst hk
      exact hf
    · rfl
  · rw [setInstrs, modify_eq_self hid, modify_eq_self hid]

/-- The second graph has the same blocks in the same order, whatever is in them. -/
structure SameLinks (g h : Graph) : Prop where
  size : h.blocks.size = g.blocks.size
  entry : h.entry = g.entry
  next : ∀ id, (h.block id).next = (g.block id).next

namespace SameLinks

theorem refl (g : Graph) : SameLinks g g := ⟨rfl, rfl, fun _ => rfl⟩

theorem trans (hg : SameLinks g h) (hh : SameLinks h k) : SameLinks g k :=
  ⟨hh.size.trans hg.size, hh.entry.trans hg.entry, fun id => (hh.next id).trans (hg.next id)⟩

theorem orderFrom (hg : SameLinks g h) (fuel : Nat) (id : BlockId) :
    h.orderFrom fuel id = g.orderFrom fuel id := by
  induction fuel generalizing id with
  | zero => rfl
  | succ fuel ih =>
    simp only [Graph.orderFrom, hg.next, List.cons.injEq, true_and]
    cases (g.block id).next with
    | none => rfl
    | some next => exact ih next

theorem order (hg : SameLinks g h) : h.order = g.order := by
  rw [Graph.order, Graph.order, hg.size, hg.entry, hg.orderFrom]

theorem modify {f : Block → Block} (id : BlockId) (hf : ∀ b, (f b).next = b.next) :
    SameLinks g (g.modify id f) := by
  refine ⟨by simp, rfl, fun j => ?_⟩
  rw [block_modify]
  split_ifs
  · exact hf _
  · rfl

theorem setInstrs (id : BlockId) (instrs : List Instr) : SameLinks g (g.setInstrs id instrs) :=
  SameLinks.modify id fun _ => rfl

theorem foldl {α : Type} {step : Graph → α → Graph} (hstep : ∀ g a, SameLinks g (step g a))
    (as : List α) (g : Graph) : SameLinks g (as.foldl step g) := by
  induction as generalizing g with
  | nil => exact refl g
  | cons a as ih => exact (hstep g a).trans (ih (step g a))

end SameLinks

/-- The second graph differs from the first in the instructions of its blocks at most. -/
def SameFrames (g h : Graph) : Prop :=
  ∀ id, h.block id = { g.block id with instrs := (h.block id).instrs }

namespace SameFrames

theorem refl (g : Graph) : SameFrames g g := fun _ => rfl

theorem trans (hg : SameFrames g h) (hh : SameFrames h k) : SameFrames g k := by
  intro id
  rw [hh id, hg id]

theorem modify {f : List Instr → List Instr} (id : BlockId) :
    SameFrames g (g.modify id fun b => { b with instrs := f b.instrs }) := by
  intro j
  rw [block_modify]
  split_ifs <;> rfl

theorem setInstrs (id : BlockId) (instrs : List Instr) : SameFrames g (g.setInstrs id instrs) := by
  intro j
  rw [block_setInstrs]
  split_ifs <;> rfl

end SameFrames

theorem next_of_orderFrom {fuel : Nat} {a b : BlockId}
    (h : g.orderFrom fuel id = pre ++ a :: b :: post) : (g.block a).next = some b := by
  induction fuel generalizing id pre with
  | zero => simp [orderFrom] at h
  | succ fuel ih =>
    rw [orderFrom] at h
    cases hn : (g.block id).next with
    | none =>
      rw [hn] at h
      rcases pre with _ | ⟨c, pre⟩ <;> simp at h
    | some next =>
      simp only [hn] at h
      rcases pre with _ | ⟨c, pre⟩
      · obtain ⟨rfl, hrest⟩ : id = a ∧ g.orderFrom fuel next = b :: post := by simpa using h
        rcases fuel with _ | fuel
        · simp [orderFrom] at hrest
        · obtain ⟨rfl, _⟩ := List.cons.inj hrest
          exact hn
      · exact ih (List.cons.inj h).2

theorem next_of_order {a b : BlockId} (h : g.order = pre ++ a :: b :: post) :
    (g.block a).next = some b :=
  next_of_orderFrom h

/-- A pass that changes the instructions of the listed blocks one after the other: what one step
does to a block, the whole pass does to it. -/
theorem foldlM_setInstrs {step : Graph → BlockId → Result Graph}
    {P : List Instr → List Instr → Prop}
    (hstep : ∀ g id h, step g id = .ok h →
      ∃ instrs, h = g.setInstrs id instrs ∧ P (g.block id).instrs instrs)
    (hnil : ∀ instrs, P [] instrs → P [] []) (hids : ids.Nodup) (hg : ids.foldlM step g = .ok h) :
    SameLinks g h ∧ (∀ id ∈ ids, P (g.block id).instrs (h.block id).instrs) ∧
      ∀ id ∉ ids, h.block id = g.block id := by
  induction ids generalizing g with
  | nil =>
    obtain rfl : g = h := by simpa using hg
    exact ⟨SameLinks.refl g, by simp, fun _ _ => rfl⟩
  | cons id ids ih =>
    obtain ⟨k, hk, hg⟩ := Result.bind_eq_ok.mp (List.foldlM_cons.symm.trans hg)
    obtain ⟨instrs, rfl, hP⟩ := hstep g id k hk
    obtain ⟨hid, hids⟩ := List.nodup_cons.mp hids
    obtain ⟨hlinks, hall, hother⟩ := ih hids hg
    refine ⟨(SameLinks.setInstrs id instrs).trans hlinks, ?_, ?_⟩
    · intro j hj
      rcases List.mem_cons.mp hj with rfl | hj
      · rw [hother j hid, block_setInstrs]
        split_ifs with hlt
        · exact hP
        · rw [block_eq_of_size_le g (by simpa using hlt)] at hP ⊢
          exact hnil _ hP
      · have hne : id ≠ j := fun he => hid (he ▸ hj)
        have := hall j hj
        rwa [block_setInstrs_of_ne g instrs hne] at this
    · intro j hj
      obtain ⟨hne, hj⟩ : j ≠ id ∧ j ∉ ids := by simpa using hj
      rw [hother j hj, block_setInstrs_of_ne g instrs (Ne.symm hne)]

theorem instrs_foldl_modify (f : List Instr → List Instr) (hnodup : ids.Nodup) (g : Graph)
    (id : BlockId) :
    ((ids.foldl (fun h id => h.modify id fun b => { b with instrs := f b.instrs }) g).block
        id).instrs =
      if id ∈ ids ∧ id < g.blocks.size then f (g.block id).instrs else (g.block id).instrs := by
  induction ids generalizing g with
  | nil => simp
  | cons a ids ih =>
    obtain ⟨hnot, hnodup⟩ := List.nodup_cons.mp hnodup
    rw [List.foldl_cons, ih hnodup, block_modify]
    by_cases ha : a = id
    · subst ha
      by_cases hlt : a < g.blocks.size <;> simp [hnot, hlt]
    · simp [ha, Ne.symm ha]

theorem mapInstrsM_spec (hnodup : g.order.Nodup) (hg : g.mapInstrsM f = .ok h) :
    SameLinks g h ∧ (∀ id ∈ g.order, (g.block id).instrs.mapM f = .ok (h.block id).instrs) ∧
      ∀ id ∉ g.order, h.block id = g.block id := by
  refine foldlM_setInstrs (P := fun a b => a.mapM f = .ok b) ?_ (fun _ _ => rfl) hnodup hg
  intro g id h hstep
  obtain ⟨instrs, hi, hstep⟩ := Result.bind_eq_ok.mp hstep
  exact ⟨instrs, by simpa using hstep.symm, hi⟩

theorem SameFrames.mapInstrsM (hg : g.mapInstrsM f = .ok h) : SameFrames g h := by
  refine Result.foldlM_induction (P := SameFrames g) (fun s id t _ hstep hs => ?_) hg (.refl g)
  obtain ⟨instrs, _, hstep⟩ := Result.bind_eq_ok.mp hstep
  obtain rfl := Except.ok.inj hstep
  exact hs.trans (.setInstrs id instrs)

end Graph

end Bytecode
