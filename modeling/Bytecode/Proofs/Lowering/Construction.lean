import Bytecode.Proofs.Graph.Chain
import Bytecode.Proofs.Machine.Typing

/-!
# Graphs under construction

While a graph grows, its instructions refer to labels, and every label has a shape: the one in which
its block will be entered. The graph is laid out if the instructions of each block lead from the
shape of the block to the shapes of the labels they refer to, and to that of the next block.
-/

namespace Bytecode

open List

variable {pending' : List Label}

/-- The label that an instruction refers to, as long as it is not resolved. -/
def Instr.label? (i : Instr) : Option Label :=
  if i.op.hasTarget then some i.arg else none

/-! ### Runs of instructions -/

section

variable {dest : Instr → Option BlockId} {types types' : BlockId → Option Shape}
  {atEnd atEnd' : Shape → Prop} {is js : List Instr} {s : Shape}

theorem Shaped.mono (h : Shaped dest types atEnd is s) (hend : ∀ s, atEnd s → atEnd' s) :
    Shaped dest types atEnd' is s := by
  induction is generalizing s with
  | nil => exact hend s h
  | cons i is ih =>
    obtain ⟨hsuits, hbranch, hrest⟩ := h
    exact ⟨hsuits, hbranch, fun hfall s' hs' => ih (hrest hfall s' hs')⟩

theorem Shaped.append (h : Shaped dest types (Shaped dest types atEnd js) is s) :
    Shaped dest types atEnd (is ++ js) s := by
  induction is generalizing s with
  | nil => exact h
  | cons i is ih =>
    obtain ⟨hsuits, hbranch, hrest⟩ := h
    exact ⟨hsuits, hbranch, fun hfall s' hs' => ih (hrest hfall s' hs')⟩

theorem Shaped.congr (h : Shaped dest types atEnd is s)
    (htypes : ∀ i ∈ is, ∀ l, dest i = some l → types' l = types l) :
    Shaped dest types' atEnd is s := by
  induction is generalizing s with
  | nil => exact h
  | cons i is ih =>
    obtain ⟨hsuits, hbranch, hrest⟩ := h
    obtain ⟨hi, htypes⟩ := forall_mem_cons.mp htypes
    refine ⟨hsuits, fun hop => ?_, fun hfall s' hs' => ih (hrest hfall s' hs') htypes⟩
    obtain ⟨target, s', hdest, hbranches, htype⟩ := hbranch hop
    exact ⟨target, s', hdest, hbranches, (hi target hdest).trans htype⟩

end

namespace Graph

variable {g : Graph} {T : Label → Shape} {E : BlockId → Shape} {ends : Shape → Prop}
  {known : List (Label × Shape)} {pending : List Label} {c : Shape}

/-! ### Growing -/

/-- Instructions may refer to the label: it has a block, or waits for one. -/
def CanUse (g : Graph) (pending : List Label) (l : Label) : Prop :=
  l < g.labels.size ∧ (g.labelBlock? l = none → l ∈ pending)

/-- The blocks are laid out in the order of their numbers. `T` gives the shapes of labels and `E`
those of blocks; `ends` holds of the shape at the end of the last block if control gets there.
The shapes of some labels are known, so that instructions may refer to them. The first block has
begun and is that of no label. -/
structure Laid (g : Graph) (T : Label → Shape) (E : BlockId → Shape) (ends : Shape → Prop)
    (known : List (Label × Shape)) (pending : List Label) : Prop extends g.Chained where
  first : (g.block 0).instrs ≠ [] ∧ (g.block 0).label = none
  bound : ∀ {l id : Nat}, g.labelBlock? l = some id →
    id < g.blocks.size ∧ (g.block id).label = some l ∧ E id = T l
  known : ∀ x ∈ known, T x.1 = x.2 ∧ g.CanUse pending x.1
  uses : ∀ {id : Nat} {i}, i ∈ (g.block id).instrs → i.target = none ∧
    ∀ l, i.label? = some l → g.CanUse pending l
  shaped : ∀ id : Nat, id < g.blocks.size → Shaped Instr.label? (fun l => some (T l))
    (fun s => if id = g.current then ends s else s = E (id + 1)) (g.block id).instrs (E id)

namespace Laid

variable {known' : List (Label × Shape)} {i : Instr}

theorem initial (htarget : i.target = none) (hlabel : i.label? = none) {s : Shape}
    (hi : Shaped Instr.label? (fun l => some (T l)) (· = c) [i] s) :
    (({} : Graph).addInstr i).Laid T (fun _ => s) (· = c) [] [] where
  entry := rfl
  size := rfl
  first := ⟨cons_ne_nil _ _, rfl⟩
  next id := by
    rcases id with _ | id <;> rfl
  bound {l id} h := by
    simp [labelBlock?, Graph.addInstr, Graph.block, Graph.modify, Block.isTerminated,
      Block.last?] at h
  known x hx := by cases hx
  uses {id j} hj := by
    rcases id with _ | id
    · obtain rfl := mem_singleton.mp hj
      exact ⟨htarget, fun l hl => by cases hlabel.symm.trans hl⟩
    · cases hj
  shaped id hid := by
    obtain rfl : id = 0 := Nat.lt_one_iff.mp hid
    exact hi

theorem mono (h : g.Laid T E ends known pending) {ends' : Shape → Prop}
    (hends : ∀ s, ends s → ends' s) (hknown : known' ⊆ known) (hpending : pending ⊆ pending') :
    g.Laid T E ends' known' pending' where
  toChained := h.toChained
  first := h.first
  bound := h.bound
  known x hx := by
    obtain ⟨hshape, huse⟩ := h.known x (hknown hx)
    exact ⟨hshape, huse.1, fun hnone => hpending (huse.2 hnone)⟩
  uses hi := by
    obtain ⟨htarget, huse⟩ := h.uses hi
    exact ⟨htarget, fun l hl => ⟨(huse l hl).1, fun hnone => hpending ((huse l hl).2 hnone)⟩⟩
  shaped id hid := by
    refine (h.shaped id hid).mono fun s hs => ?_
    split_ifs at hs ⊢
    · exact hends s hs
    · exact hs

theorem append (h : g.Laid T E (· = c) known pending) :
    g.appendBlock.Laid T (fun id => if id = g.blocks.size then c else E id) (· = c) known
      pending where
  toChained := h.toChained.appendBlock
  first := by
    have hsize := h.size
    rw [block_appendBlock g h.size, if_neg (by omega)]
    split_ifs <;> exact h.first
  bound {l id} hl := by
    obtain ⟨hid, hlabel, hshape⟩ := @Laid.bound _ _ _ _ _ _ h l id hl
    rw [block_appendBlock g h.size, size_appendBlock, if_neg (Nat.ne_of_lt hid)]
    refine ⟨Nat.lt_succ_of_lt hid, ?_, (if_neg (Nat.ne_of_lt hid)).trans hshape⟩
    split_ifs <;> exact hlabel
  known := h.known
  uses {id i} hi := by
    rw [block_appendBlock g h.size] at hi
    apply @Laid.uses _ _ _ _ _ _ h id
    split_ifs at hi
    · cases hi
    · exact hi
    · exact hi
  shaped id hid := by
    have hsize := h.size
    have hcurrent : g.appendBlock.current = g.blocks.size := rfl
    rw [size_appendBlock] at hid
    rw [block_appendBlock g h.size, hcurrent]
    by_cases hnew : id = g.blocks.size
    · simp only [if_pos hnew]
      rfl
    · have hold := h.shaped id (by omega)
      simp only [if_neg hnew]
      have hinstrs : (if id = g.current then { g.block id with next := some g.blocks.size }
          else g.block id).instrs = (g.block id).instrs := by split_ifs <;> rfl
      rw [hinstrs]
      refine hold.mono fun s hs => ?_
      by_cases hid' : id = g.current
      · rw [if_pos hid'] at hs
        rwa [if_pos (hsize ▸ congrArg Nat.succ hid')]
      · rw [if_neg hid'] at hs
        rwa [if_neg fun h => hid' (Nat.succ.inj (h.trans hsize))]

section

variable (h : g.Laid T E (· = c) known pending) (htarget : i.target = none)
  (huses : ∀ l, i.label? = some l → g.CanUse pending l)
  (hi : Shaped Instr.label? (fun l => some (T l)) ends [i] c)
include h htarget huses hi

theorem extend :
    (g.modify g.current fun b => { b with instrs := b.instrs ++ [i] }).Laid T E ends known
      pending where
  toChained := h.toChained.modify _ fun _ => rfl
  first := by
    rw [block_modify]
    split_ifs
    · exact ⟨append_ne_nil_of_right_ne_nil _ (cons_ne_nil _ _), h.first.2⟩
    · exact h.first
  bound {l id} hl := by
    obtain ⟨hid, hlabel, hshape⟩ := @Laid.bound _ _ _ _ _ _ h l id hl
    rw [block_modify, size_modify]
    refine ⟨hid, ?_, hshape⟩
    split_ifs <;> exact hlabel
  known := h.known
  uses {id j} hj := by
    rw [block_modify] at hj
    split_ifs at hj
    · rcases mem_append.mp hj with hj | hj
      · exact h.uses hj
      · obtain rfl := mem_singleton.mp hj
        exact ⟨htarget, huses⟩
    · exact h.uses hj
  shaped id hid := by
    rw [size_modify] at hid
    have hold := h.shaped id hid
    have hcurrent : (g.modify g.current fun b => { b with instrs := b.instrs ++ [i] }).current =
      g.current := rfl
    rw [block_modify, hcurrent]
    by_cases hid' : id = g.current
    · subst hid'
      simp only [if_true] at hold ⊢
      rw [if_pos ⟨trivial, hid⟩]
      apply Shaped.append
      refine hold.mono fun s hs => ?_
      rw [hs]
      exact hi
    · simp only [if_neg hid'] at hold ⊢
      rw [if_neg (fun hc => hid' hc.1.symm)]
      exact hold

theorem addInstr : ∃ E', E' 0 = E 0 ∧ (g.addInstr i).Laid T E' ends known pending := by
  unfold Graph.addInstr
  split_ifs
  · refine ⟨_, ?_, h.append.extend htarget huses hi⟩
    have hsize := h.size
    exact if_neg fun hzero => Nat.succ_ne_zero _ (hzero.trans hsize).symm
  · exact ⟨E, rfl, h.extend htarget huses hi⟩

end

/-- A label that stands for no block gets the last one, if the graph ends in the shape of the
label and the block holds nothing yet. -/
theorem nameCurrent (h : g.Laid T E (· = c) known pending) {l : Label} (hl : T l = c)
    (hlabel : g.labels[l]? = some none) (hempty : (g.block g.current).instrs = [])
    (hunnamed : (g.block g.current).label = none) (hpending : ∀ x ∈ pending, x = l ∨ x ∈ pending') :
    (g.nameCurrent l).Laid T E (· = c) known pending' := by
  have hlt := label_lt_of_getElem? hlabel
  have hcur := h.current_lt
  have hblock := block_nameCurrent h.size l
  have hlabels := labelBlock?_nameCurrent hlt
  have hsame : ∀ id : Nat, ((g.nameCurrent l).block id).instrs = (g.block id).instrs := by
    intro id
    rw [hblock]
    split_ifs <;> rfl
  have hcurrent : (g.nameCurrent l).current = g.current := rfl
  have hsize : (g.nameCurrent l).blocks.size = g.blocks.size := size_modify ..
  have hsizes : (g.nameCurrent l).labels.size = g.labels.size := Array.size_setIfInBounds ..
  have huses : ∀ m, g.CanUse pending m → (g.nameCurrent l).CanUse pending' m := by
    rintro m ⟨hm, huse⟩
    refine ⟨hsizes ▸ hm, fun hnone => ?_⟩
    rw [hlabels] at hnone
    split_ifs at hnone with hml
    exact (hpending m (huse hnone)).resolve_left hml
  -- The last block is empty, so that it is entered in the shape in which it ends.
  have hshape : E g.current = c := by
    have hlast := h.shaped g.current hcur
    rw [hempty] at hlast
    simpa only [Shaped, if_true] using hlast
  constructor
  case toChained => exact h.toChained.nameCurrent l
  case first =>
    rw [hblock, if_neg]
    · exact h.first
    · intro hzero
      exact h.first.1 (hzero ▸ hempty)
  case bound =>
    intro m id hm
    rw [hlabels] at hm
    rw [hblock, hsize]
    by_cases hml : m = l
    · rw [if_pos hml] at hm
      obtain rfl := Option.some.inj hm
      rw [if_pos rfl]
      exact ⟨hcur, by rw [hml], by rw [hml, hshape, hl]⟩
    · rw [if_neg hml] at hm
      obtain ⟨hid, hname, hshape'⟩ := h.bound hm
      rw [if_neg]
      · exact ⟨hid, hname, hshape'⟩
      · rintro rfl
        cases hname.symm.trans hunnamed
  case known =>
    intro x hx
    obtain ⟨hshape', huse⟩ := h.known x hx
    exact ⟨hshape', huses x.1 huse⟩
  case uses =>
    intro id i hi
    rw [hsame] at hi
    obtain ⟨htarget, huse⟩ := h.uses hi
    exact ⟨htarget, fun m hm => huses m (huse m hm)⟩
  case shaped =>
    intro id hid
    rw [hsame, hcurrent]
    exact h.shaped id (hsize ▸ hid)

/-- A label gets the next block, if the graph ends in the shape of the label. -/
theorem bindLabel (h : g.Laid T E (· = c) known pending) {l : Label} (hl : T l = c) {g' : Graph}
    (hg : g.bindLabel l = .ok g') (hpending : ∀ x ∈ pending, x = l ∨ x ∈ pending') :
    ∃ E', E' 0 = E 0 ∧ g'.Laid T E' (· = c) known pending' := by
  obtain ⟨rfl, id, hbound⟩ | ⟨hlabel, ⟨hempty, hunnamed, rfl⟩ | rfl⟩ := bindLabel_eq_ok hg
  · refine ⟨E, rfl, ?_⟩
    have huses : ∀ m, g'.CanUse pending m → g'.CanUse pending' m := by
      rintro m ⟨hm, huse⟩
      refine ⟨hm, fun hnone => (hpending m (huse hnone)).resolve_left ?_⟩
      rintro rfl
      cases hbound.symm.trans hnone
    exact {
      h with
      known := fun x hx => ⟨(h.known x hx).1, huses _ (h.known x hx).2⟩
      uses := fun hi => ⟨(h.uses hi).1, fun m hm => huses m ((h.uses hi).2 m hm)⟩ }
  · exact ⟨E, rfl, h.nameCurrent hl hlabel hempty hunnamed hpending⟩
  · have hsize := h.size
    have hnew := block_appendBlock g h.size g.blocks.size
    rw [if_pos rfl] at hnew
    refine ⟨_, ?_, h.append.nameCurrent hl hlabel ?_ ?_ hpending⟩
    · exact if_neg fun hzero => Nat.succ_ne_zero _ (hzero.trans hsize).symm
    · exact congrArg Block.instrs hnew
    · exact congrArg Block.label hnew

/-- A new label gets any shape. It waits for its block if it is to be known. -/
theorem addLabel (h : g.Laid T E ends known pending) (s : Shape)
    (hknown : ∀ x ∈ known', x ∈ known ∨ x = (g.labels.size, s) ∧ g.labels.size ∈ pending')
    (hpending : pending ⊆ pending') :
    g.addLabel.1.Laid (fun l => if l = g.labels.size then s else T l) E ends known' pending' := by
  have hlabels := g.labelBlock?_addLabel
  have hsizes : g.addLabel.1.labels.size = g.labels.size + 1 := Array.size_push ..
  have hold : ∀ {l id : Nat}, g.labelBlock? l = some id → l < g.labels.size := by
    intro l id hl
    by_contra hge
    unfold labelBlock? at hl
    rw [Array.getElem?_eq_none (Nat.le_of_not_lt hge)] at hl
    cases hl
  have huses : ∀ l, g.CanUse pending l → g.addLabel.1.CanUse pending' l := by
    rintro l ⟨hl, huse⟩
    refine ⟨hsizes ▸ Nat.lt_succ_of_lt hl, fun hnone => hpending (huse ?_)⟩
    rwa [hlabels] at hnone
  constructor
  case toChained => exact ⟨h.entry, h.size, h.next⟩
  case first => exact h.first
  case bound =>
    intro l id hl
    rw [hlabels] at hl
    obtain ⟨hid, hname, hshape⟩ := h.bound hl
    refine ⟨hid, hname, ?_⟩
    rw [if_neg (Nat.ne_of_lt (hold hl))]
    exact hshape
  case known =>
    intro x hx
    rcases hknown x hx with hx | ⟨rfl, hmem⟩
    · obtain ⟨hshape, huse⟩ := h.known x hx
      exact ⟨(if_neg (Nat.ne_of_lt huse.1)).trans hshape, huses _ huse⟩
    · exact ⟨if_pos rfl, hsizes ▸ Nat.lt_succ_self _, fun _ => hmem⟩
  case uses =>
    intro id i hi
    obtain ⟨htarget, huse⟩ := h.uses hi
    exact ⟨htarget, fun l hl => huses l (huse l hl)⟩
  case shaped =>
    intro id hid
    refine (h.shaped id hid).congr fun i hi l hl => ?_
    rw [if_neg (Nat.ne_of_lt ((h.uses hi).2 l hl).1)]

theorem prepend (h : g.Laid T E ends known pending) (htarget : i.target = none)
    (huses : ∀ l, i.label? = some l → g.CanUse pending l) {s : Shape}
    (hi : Shaped Instr.label? (fun l => some (T l)) (· = E 0) [i] s) :
    (g.modify g.entry fun b => { b with instrs := i :: b.instrs }).Laid T
      (fun id => if id = 0 then s else E id) ends known pending := by
  have hpos : 0 < g.blocks.size := by
    rw [h.size]
    exact Nat.succ_pos _
  have hblock : ∀ id : Nat, (g.modify g.entry fun b => { b with instrs := i :: b.instrs }).block id
      = if id = 0 then { g.block id with instrs := i :: (g.block id).instrs } else g.block id := by
    intro id
    rw [block_modify, h.entry]
    by_cases hid : id = 0
    · subst hid
      rw [if_pos ⟨rfl, hpos⟩, if_pos rfl]
    · rw [if_neg (fun hc => hid hc.1.symm), if_neg hid]
  constructor
  case toChained => exact h.toChained.modify _ fun _ => rfl
  case first =>
    rw [hblock, if_pos rfl]
    exact ⟨cons_ne_nil _ _, h.first.2⟩
  case bound =>
    intro l id hl
    obtain ⟨hid, hname, hshape⟩ := h.bound hl
    have hne : id ≠ 0 := by
      rintro rfl
      cases hname.symm.trans h.first.2
    rw [hblock, size_modify, if_neg hne, if_neg hne]
    exact ⟨hid, hname, hshape⟩
  case known => exact h.known
  case uses =>
    intro id j hj
    rw [hblock] at hj
    split_ifs at hj
    · rcases mem_cons.mp hj with rfl | hj
      · exact ⟨htarget, huses⟩
      · exact h.uses hj
    · exact h.uses hj
  case shaped =>
    intro id hid
    rw [size_modify] at hid
    have hold := h.shaped id hid
    rw [hblock]
    by_cases hzero : id = 0
    · subst hzero
      rw [if_pos rfl]
      apply @Shaped.append _ _ _ [i]
      refine hi.mono fun s hs => ?_
      rw [hs]
      exact hold
    · simp only [if_neg hzero]
      exact hold

end Laid

end Graph

end Bytecode
