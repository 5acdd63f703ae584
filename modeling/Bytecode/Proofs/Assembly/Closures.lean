import Bytecode.Proofs.Assembly.Arrangement
import Bytecode.Proofs.Composition.Transcripts
import Mathlib.Data.List.GetD
import Mathlib.Data.List.Nodup

/-!
# Variables that scopes share

The operand of an instruction on a cell counts the cells of the frame and then its free variables,
and every count has a slot under the name that is counted. A closure is put together and taken apart
in one order, so that a free variable is the cell of its name in the scope around.
-/

namespace Bytecode

open List Result

variable {code : CodeObject} {constants : List Constant}

/-- Where an item of the second list goes with one of the first only, its items differ as those of
the first do. -/
theorem nodup_of_forall₂ {α β : Type} {R : α → β → Prop} {as : List α} {bs : List β}
    (hR : ∀ a a' b, R a b → R a' b → a = a') (h : Forall₂ R as bs) (has : as.Nodup) :
    bs.Nodup := by
  induction h with
  | nil => exact .nil
  | cons hab hrest ih =>
    obtain ⟨hnot, has⟩ := nodup_cons.mp has
    refine nodup_cons.mpr ⟨fun hb => ?_, ih has⟩
    obtain ⟨a', ha', hab'⟩ := exists_of_mem_forall₂ hrest hb
    exact hnot (hR _ _ _ hab hab' ▸ ha')

namespace Frame

variable (f : Frame) {k : Nat}

def shared : List String :=
  f.cells ++ f.frees

def Seats (role : SlotKind → Bool) (name : String) (slot : Nat) : Prop :=
  f.slotNames[slot]? = some name ∧ ∃ kind, f.slotKinds[slot]? = some kind ∧ role kind

variable {f}

theorem length_slotNames : f.slotNames.length = f.locals.length + f.ownCells.length +
    f.frees.length := by
  simp [slotNames, Nat.add_assoc]

/-! ### Slots -/

theorem seats_local {c : String} {slot : Nat} (hslot : f.locals.idxOf? c = some slot)
    (hc : c ∈ f.cells) : f.Seats (·.isCell) c slot := by
  have hat : f.locals[slot]? = some c := by
    obtain ⟨hlt, hname, -⟩ := idxOf?_eq_some_iff.mp hslot
    rw [getElem?_eq_getElem hlt, hname]
  have hlt := (List.getElem?_eq_some_iff.mp hat).1
  refine ⟨?_, f.localKind slot c, ?_, by simp [localKind, hc]⟩
  · rw [slotNames, append_assoc, getElem?_append_left hlt, hat]
  · rw [slotKinds, append_assoc, getElem?_append_left (by simpa using hlt), getElem?_mapIdx, hat]
    rfl

theorem seats_ownCell {c : String} (hk : f.ownCells[k]? = some c) :
    f.Seats (·.isCell) c (f.locals.length + k) := by
  have hlt := (List.getElem?_eq_some_iff.mp hk).1
  refine ⟨?_, { isCell := true }, ?_, rfl⟩
  · rw [slotNames, append_assoc, getElem?_append_right (by simp), Nat.add_sub_cancel_left,
      getElem?_append_left hlt, hk]
  · rw [slotKinds, append_assoc, getElem?_append_right (by simp), length_mapIdx,
      Nat.add_sub_cancel_left, getElem?_append_left (by simpa using hlt), getElem?_map, hk]
    rfl

theorem slotKinds_free (hk : k < f.frees.length) :
    f.slotKinds[f.locals.length + f.ownCells.length + k]? = some { isFree := true } := by
  rw [slotKinds, getElem?_append_right (by simp), length_append, length_mapIdx,
    length_map, Nat.add_sub_cancel_left, getElem?_map, getElem?_eq_getElem hk]
  rfl

theorem seats_free {n : String} (hk : f.frees[k]? = some n) :
    f.Seats (·.isFree) n (f.locals.length + f.ownCells.length + k) := by
  refine ⟨?_, _, slotKinds_free (List.getElem?_eq_some_iff.mp hk).1, rfl⟩
  rw [slotNames, getElem?_append_right (by simp), length_append, Nat.add_sub_cancel_left, hk]

theorem seats_cellSlotsFrom (before : List String) {cs : List String} (h : f.cells = before ++ cs) :
    Forall₂ (f.Seats (·.isCell)) cs (f.cellSlotsFrom
      (f.locals.length + (before.filter fun c => !f.locals.contains c).length) cs) := by
  induction cs generalizing before with
  | nil => exact .nil
  | cons c cs ih =>
    have hc : c ∈ f.cells := h ▸ by simp
    have hrest := ih (before ++ [c]) (by simp [h])
    rw [filter_append, length_append, ← Nat.add_assoc] at hrest
    unfold cellSlotsFrom
    cases hslot : f.locals.idxOf? c with
    | some slot =>
      have hlocal : c ∈ f.locals := isSome_idxOf?.mp (by simp [hslot])
      exact .cons (seats_local hslot hc) (by simpa [hlocal] using hrest)
    | none =>
      have hlocal : c ∉ f.locals := idxOf?_eq_none_iff.mp hslot
      refine .cons (seats_ownCell ?_) (by simpa [hlocal] using hrest)
      rw [ownCells, h, filter_append, filter_cons_of_pos (by simpa using hlocal)]
      simp

theorem seats_cells : Forall₂ (f.Seats (·.isCell)) f.cells
    (f.cellSlotsFrom f.locals.length f.cells) := by
  simpa using seats_cellSlotsFrom (f := f) [] rfl

theorem length_cellSlotsFrom : (f.cellSlotsFrom f.locals.length f.cells).length = f.cells.length :=
  seats_cells.length_eq.symm

theorem getElem?_cellSlots_cell {i : Nat} (hi : i < f.cells.length) :
    f.cellSlots[i]? = (f.cellSlotsFrom f.locals.length f.cells)[i]? :=
  getElem?_append_left (length_cellSlotsFrom.symm ▸ hi)

theorem getElem?_cellSlots_free (hk : k < f.frees.length) :
    f.cellSlots[f.cells.length + k]? = some (f.locals.length + f.ownCells.length + k) := by
  rw [cellSlots, getElem?_append_right (by simp [length_cellSlotsFrom])]
  simp [length_cellSlotsFrom, hk]

/-- Every count has a slot, under its name and with its role. -/
theorem exists_cellSlots {i : Nat} {name : String} (hi : f.shared[i]? = some name) :
    ∃ slot, f.cellSlots[i]? = some slot ∧
      f.Seats (if i < f.cells.length then (·.isCell) else (·.isFree)) name slot := by
  by_cases hcell : i < f.cells.length
  · rw [shared, getElem?_append_left hcell] at hi
    obtain ⟨slot, hslot⟩ : ∃ slot, (f.cellSlotsFrom f.locals.length f.cells)[i]? = some slot :=
      ⟨_, getElem?_eq_getElem (length_cellSlotsFrom.symm ▸ hcell)⟩
    rw [getElem?_cellSlots_cell hcell, if_pos hcell]
    exact ⟨slot, hslot, rel_of_getElem? seats_cells hi hslot⟩
  · obtain ⟨k, rfl⟩ := Nat.exists_eq_add_of_le (Nat.not_lt.mp hcell)
    rw [shared, getElem?_append_right (by simp), Nat.add_sub_cancel_left] at hi
    rw [if_neg hcell]
    exact ⟨_, getElem?_cellSlots_free (List.getElem?_eq_some_iff.mp hi).1, seats_free hi⟩

theorem length_cellSlots : f.cellSlots.length = f.shared.length := by
  simp [cellSlots, shared, length_cellSlotsFrom]

theorem nodup_cellSlots (hcells : f.cells.Nodup) : f.cellSlots.Nodup := by
  rw [cellSlots, nodup_append]
  refine ⟨nodup_of_forall₂ ?_ seats_cells hcells, ?_, fun slot hslot other hother => ?_⟩
  · exact fun a b slot ha hb => Option.some.inj (ha.1.symm.trans hb.1)
  · exact List.Nodup.map (fun a b => Nat.add_left_cancel) nodup_range
  · rintro rfl
    obtain ⟨k, hk, rfl⟩ := mem_map.mp hother
    obtain ⟨c, -, -, kind, hkind, hcell⟩ := exists_of_mem_forall₂ seats_cells hslot
    rw [slotKinds_free (mem_range.mp hk)] at hkind
    obtain rfl := Option.some.inj hkind
    cases hcell

/-! ### Setting up -/

def madeCells (f : Frame) : List Nat :=
  (List.range f.cells.length).mergeSort fun a b => f.cellSlots.getD a 0 ≤ f.cellSlots.getD b 0

def cellMaker (c : Nat) : Instr :=
  { op := .real .makeCell, arg := c }

def closureCopy (f : Frame) : List Instr :=
  if f.frees = [] then [] else [{ op := .real .copyFreeVars, arg := f.frees.length }]

theorem setup_eq (f : Frame) : ∃ rest,
    f.setup = f.closureCopy ++ f.madeCells.map cellMaker ++ rest ∧
      ∀ i ∈ rest, i.op = .real .returnGenerator ∨ i.op = .real .popTop := by
  refine ⟨if f.flags.suspends then [{ op := .real .returnGenerator, loc := .ofLine f.firstLine },
    { op := .real .popTop }] else [], ?_, ?_⟩
  · unfold setup closureCopy
    cases f.frees <;> rfl
  · split <;> simp

theorem op_of_mem_closureCopy {i : Instr} (hi : i ∈ f.closureCopy) :
    i.op = .real .copyFreeVars := by
  unfold closureCopy at hi
  split at hi <;> simp_all

/-- Of the cells each is made once, and the closure is copied if there is one. -/
theorem filter_setup (f : Frame) :
    f.setup.filter (·.op = .real .makeCell) = f.madeCells.map cellMaker ∧
      f.setup.filter (·.op = .real .copyFreeVars) = f.closureCopy := by
  obtain ⟨rest, hsetup, hrest⟩ := f.setup_eq
  have hnone (op : Opcode) (hop : op ≠ .returnGenerator ∧ op ≠ .popTop) :
      rest.filter (·.op = .real op) = [] := by
    refine filter_eq_nil_iff.mpr fun i hi => ?_
    rcases hrest i hi with h | h <;> simp [h, hop.1.symm, hop.2.symm]
  rw [hsetup]
  simp only [filter_append, hnone _ (by decide : Opcode.makeCell ≠ _ ∧ _ ≠ _),
    hnone _ (by decide : Opcode.copyFreeVars ≠ _ ∧ _ ≠ _), append_nil]
  constructor
  · rw [filter_eq_nil_iff.mpr fun i hi => by simp [op_of_mem_closureCopy hi], nil_append]
    exact filter_eq_self.mpr (by simp [cellMaker])
  · rw [filter_eq_self.mpr fun i hi => by simp [op_of_mem_closureCopy hi],
      filter_eq_nil_iff.mpr (by simp [cellMaker]), append_nil]

theorem perm_madeCells (f : Frame) : f.madeCells.Perm (List.range f.cells.length) :=
  mergeSort_perm _ _

theorem lt_length_cellSlots {c : Nat} (hc : c ∈ f.madeCells) : c < f.cellSlots.length := by
  have := mem_range.mp (f.perm_madeCells.mem_iff.mp hc)
  simp only [length_cellSlots, shared, length_append]
  omega

theorem sorted_madeCells (hcells : f.cells.Nodup) :
    (f.madeCells.map fun c => f.cellSlots.getD c 0).Pairwise (· < ·) := by
  have hle : f.madeCells.Pairwise fun a b => f.cellSlots.getD a 0 ≤ f.cellSlots.getD b 0 := by
    refine (pairwise_mergeSort ?_ ?_ _).imp fun h => by simpa using h
    · simpa using fun a b c => Nat.le_trans
    · simpa using fun a b => Nat.le_total _ _
  have hne : f.madeCells.Nodup := (perm_madeCells f).nodup_iff.mpr nodup_range
  rw [pairwise_map]
  refine (hle.and hne).imp_of_mem fun ha hb h => Nat.lt_of_le_of_ne h.1 fun heq => h.2 ?_
  rw [getD_eq_getElem _ _ (lt_length_cellSlots ha),
    getD_eq_getElem _ _ (lt_length_cellSlots hb)] at heq
  exact (nodup_cellSlots hcells).getElem_inj_iff.mp heq

def reseat (f : Frame) (i : Instr) : Instr :=
  if i.op.hasCell then { i with arg := f.cellSlots.getD i.arg 0 } else i

theorem relocate_setup (f : Frame) :
    f.setup.mapM (relocateCell f.cellSlots.toArray) = .ok (f.setup.map f.reseat) := by
  refine Result.mapM_eq_map fun i hi => ?_
  obtain ⟨rest, hsetup, hrest⟩ := f.setup_eq
  rw [hsetup, mem_append, mem_append] at hi
  unfold relocateCell reseat
  rcases hi with (hi | hi) | hi
  · rw [op_of_mem_closureCopy hi]
    rfl
  · obtain ⟨c, hc, rfl⟩ := mem_map.mp hi
    have hlt := lt_length_cellSlots hc
    simp [cellMaker, Operation.hasCell, hlt]
  · rcases hrest i hi with h | h <;> rw [h] <;> rfl

theorem args_reseat_setup (f : Frame) :
    ((f.setup.map f.reseat).filter (·.op = .real .makeCell)).map (·.arg) =
      f.madeCells.map fun c => f.cellSlots.getD c 0 := by
  have hop (i : Instr) : (f.reseat i).op = i.op := by
    unfold reseat
    split <;> rfl
  rw [filter_map, map_map]
  simp only [Function.comp_def, hop, f.filter_setup.1, map_map]
  rfl

end Frame

/-! ### Closures -/

namespace Gen

variable {α β : Type} {m : Gen α} {f : α → Gen β} {c : GenContext} {loc : Location}

/-- A run adds instructions to the graph, and does nothing else to it. -/
def Adds (c : GenContext) (m : Gen α) (P : α → List Instr → Prop) : Prop :=
  ∀ s a s', m c s = .ok (a, s') →
    ∃ is, s'.unit.graph = is.foldl Graph.addInstr s.unit.graph ∧ P a is

theorem Adds.bind {P : α → List Instr → Prop} {Q : α → β → List Instr → Prop}
    {R : β → List Instr → Prop} (hm : Adds c m P) (hf : ∀ a, Adds c (f a) (Q a))
    (hR : ∀ a b is js, P a is → Q a b js → R b (is ++ js)) : Adds c (m >>= f) R := by
  intro s b s' h
  obtain ⟨a, t, hfirst, hrest⟩ := bind_eq_ok.mp h
  obtain ⟨is, ht, his⟩ := hm s a t hfirst
  obtain ⟨js, hs', hjs⟩ := hf a t b s' hrest
  exact ⟨is ++ js, by rw [hs', ht, foldl_append], hR a b is js his hjs⟩

theorem Adds.still {P : α → Prop} (h : ∀ s a s', m c s = .ok (a, s') →
    P a ∧ s'.unit.graph = s.unit.graph) : Adds c m fun a is => P a ∧ is = [] :=
  fun s a s' hrun => ⟨[], (h s a s' hrun).2, (h s a s' hrun).1, rfl⟩

theorem adds_addOp {op : Operation} {arg : Nat} : Adds c (editGraph (·.addOp op arg loc))
    fun _ is => is = [{ op := op, arg := arg, loc := loc }] := by
  intro s a s' h
  obtain rfl := addOp_eq_ok h
  exact ⟨_, rfl, rfl⟩

theorem adds_cellIndex {name : String} : Adds c (cellIndex name)
    fun i is => (c.unit.cells ++ c.unit.frees)[i]? = some name ∧ is = [] := by
  refine .still fun s i s' h => ?_
  obtain ⟨u, t, hinfo, h⟩ := bind_eq_ok.mp h
  cases hinfo
  cases hi : (c.unit.cells ++ c.unit.frees).idxOf? name with
  | none =>
    simp only [hi] at h
    cases h
  | some i =>
    simp only [hi] at h
    cases h
    obtain ⟨hlt, hname, -⟩ := idxOf?_eq_some_iff.mp hi
    exact ⟨List.getElem?_eq_some_iff.mpr ⟨hlt, by simpa using hname⟩, rfl⟩

def closureLoad (loc : Location) (i : Nat) : Instr :=
  { op := .pseudo .loadClosure, arg := i, loc := loc }

theorem adds_closureLoads (names : List String) :
    Adds c (names.forM fun name => do emitPseudo .loadClosure (← cellIndex name) loc)
      fun _ is => ∃ operands, is = operands.map (closureLoad loc) ∧
        Forall₂ (fun name i => (c.unit.cells ++ c.unit.frees)[i]? = some name) names operands := by
  induction names with
  | nil =>
    intro s a s' h
    cases h
    exact ⟨[], rfl, [], rfl, .nil⟩
  | cons name names ih =>
    have hone : Adds c (do emitPseudo .loadClosure (← cellIndex name) loc) fun _ is =>
        ∃ i, is = [closureLoad loc i] ∧ (c.unit.cells ++ c.unit.frees)[i]? = some name :=
      adds_cellIndex.bind (fun i => adds_addOp) fun i _ _ _ ⟨hi, his⟩ hjs =>
        ⟨i, by rw [his, hjs]; rfl, hi⟩
    refine hone.bind (fun _ => ih) ?_
    rintro _ _ _ _ ⟨i, rfl, hi⟩ ⟨operands, rfl, h⟩
    exact ⟨i :: operands, rfl, .cons hi h⟩

/-- None of the instructions puts a shared variable on the stack. -/
def Apart (is : List Instr) : Prop :=
  ∀ i ∈ is, i.op ≠ .pseudo .loadClosure

theorem Adds.seq (hm : Adds c m fun _ => Apart) (hf : ∀ a, Adds c (f a) fun _ => Apart) :
    Adds c (m >>= f) fun _ => Apart :=
  hm.bind hf fun _ _ _ _ his hjs => forall_mem_append.mpr ⟨his, hjs⟩

theorem Adds.apart (h : ∀ s a s', m c s = .ok (a, s') → s'.unit.graph = s.unit.graph) :
    Adds c m fun _ => Apart :=
  fun s a s' hrun => ⟨[], h s a s' hrun, by simp [Apart]⟩

theorem adds_emit {op : Opcode} {arg : Nat} : Adds c (emit op arg loc) fun _ => Apart := by
  intro s a s' h
  obtain ⟨is, hs', rfl⟩ := adds_addOp s a s' h
  exact ⟨_, hs', by simp [Apart]⟩

theorem adds_makeFunction {extras : FunctionExtras} :
    Adds c (makeFunction code extras loc) fun _ is => ∃ operands rest,
      is = operands.map (closureLoad loc) ++ rest ∧ Apart rest ∧
      Forall₂ (fun name i => (c.unit.cells ++ c.unit.frees)[i]? = some name) code.freeNames
        operands := by
  have hend (closure : Bool) : Adds c (do
      emitConst (← addCode code) loc
      emit .makeFunction { extras with closure := closure : FunctionExtras }.code loc)
      fun _ => Apart := by
    refine .seq (.apart ?_) fun k => .seq (.seq (.apart ?_) fun _ => adds_emit) fun _ => adds_emit
    all_goals
      intro s a s' h
      cases h
      rfl
  unfold makeFunction
  refine (adds_closureLoads code.freeNames).bind (Q := fun _ _ => Apart) (fun _ => ?_) ?_
  · cases code.freeNames with
    | nil => exact hend false
    | cons name names => exact adds_emit.seq fun _ => hend true
  · rintro _ _ _ rest ⟨operands, rfl, h⟩ hrest
    exact ⟨operands, rest, rfl, hrest, h⟩

end Gen

theorem freeNames_assemble {g : Graph} {f : Frame} (h : assemble g constants f = .ok code) :
    code.freeNames = f.frees := by
  have hnone {names : List String} {kinds : List SlotKind} (hk : ∀ k ∈ kinds, k.isFree = false) :
      (names.zip kinds).filter (·.2.isFree) = [] :=
    filter_eq_nil_iff.mpr fun x hx => by simp [hk _ (of_mem_zip hx).2]
  have hall (names : List String) :
      ((names.zip (names.map fun _ => { isFree := true : SlotKind })).filter
        (·.2.isFree)).map (·.1) = names := by
    induction names with
    | nil => rfl
    | cons name names ih => simpa using ih
  obtain ⟨a, -, h⟩ := exists_of_assemble h
  obtain ⟨-, -, -, -, hnames, hkinds⟩ := Arrangement.toCode_spec h
  rw [CodeObject.freeNames, CodeObject.slotsWith, hnames, hkinds, Frame.slotNames, Frame.slotKinds,
    zip_append (by simp), filter_append, hnone, nil_append, hall]
  intro k hk
  rcases mem_append.mp hk with hk | hk
  · obtain ⟨i, hi, rfl⟩ := mem_mapIdx.mp hk
    simp only [Frame.localKind, Frame.paramKind]
    split_ifs <;> rfl
  · obtain ⟨_, -, rfl⟩ := mem_map.mp hk
    rfl

/-- Operands, slots and closures agree. Every cell and every free variable has a slot of its own,
with its name and its role; each cell is made once, by increasing slot, and the closure is copied
if there is one. The code object has the free variables in their order, and a function is made of
as many operands in that order, each of which counts the variable of the same name around. -/
theorem Frame.closures_agree (f : Frame) (hcells : f.cells.Nodup) :
    (∀ i name, f.shared[i]? = some name → ∃ slot, f.cellSlots[i]? = some slot ∧
      f.Seats (if i < f.cells.length then (·.isCell) else (·.isFree)) name slot) ∧
    f.cellSlots.Nodup ∧
    ((f.setup.filter (·.op = .real .makeCell)).map (·.arg)).Perm (List.range f.cells.length) ∧
    f.setup.filter (·.op = .real .copyFreeVars) =
      (if f.frees = [] then [] else [{ op := .real .copyFreeVars, arg := f.frees.length }]) ∧
    (∃ is, f.setup.mapM (relocateCell f.cellSlots.toArray) = .ok is ∧
      ((is.filter (·.op = .real .makeCell)).map (·.arg)).Pairwise (· < ·)) ∧
    ∀ g constants code, assemble g constants f = .ok code → code.freeNames = f.frees ∧
      ∀ extras loc c s s', makeFunction code extras loc c s = .ok ((), s') →
        ∃ (operands : List Nat) (rest : List Instr), s'.unit.graph =
            (operands.map (Gen.closureLoad loc) ++ rest).foldl Graph.addInstr s.unit.graph ∧
          Gen.Apart rest ∧ operands.length = f.frees.length ∧
          ∀ around : Frame, around.cells = c.unit.cells → around.frees = c.unit.frees →
            ∀ k name, f.frees[k]? = some name → ∃ i outer inner, operands[k]? = some i ∧
              around.cellSlots[i]? = some outer ∧ around.slotNames[outer]? = some name ∧
              f.cellSlots[f.cells.length + k]? = some inner ∧ f.slotNames[inner]? = some name ∧
              inner + f.frees.length = f.slotNames.length + k := by
  refine ⟨fun i name => exists_cellSlots, nodup_cellSlots hcells, ?_, f.filter_setup.2,
    ⟨_, f.relocate_setup, f.args_reseat_setup ▸ sorted_madeCells hcells⟩,
    fun g constants code hcode => ⟨freeNames_assemble hcode, fun extras loc c s s' hrun => ?_⟩⟩
  · rw [f.filter_setup.1, map_map]
    exact (map_id f.madeCells).symm ▸ f.perm_madeCells
  · obtain ⟨_, hgraph, operands, rest, rfl, hrest, hnames⟩ := Gen.adds_makeFunction s () s' hrun
    rw [freeNames_assemble hcode] at hnames
    refine ⟨operands, rest, hgraph, hrest, hnames.length_eq.symm, fun around hc hf k name hk => ?_⟩
    have hlt := (List.getElem?_eq_some_iff.mp hk).1
    obtain ⟨i, hi⟩ : ∃ i, operands[k]? = some i :=
      ⟨_, getElem?_eq_getElem (hnames.length_eq ▸ hlt)⟩
    have hcount : around.shared[i]? = some name := by
      rw [shared, hc, hf]
      exact rel_of_getElem? hnames hk hi
    obtain ⟨outer, houter, hname, -⟩ := exists_cellSlots hcount
    refine ⟨i, outer, _, hi, houter, hname, getElem?_cellSlots_free hlt, (seats_free hk).1, ?_⟩
    rw [length_slotNames]
    omega

/-- A cell among the locals between two that are not, and two free variables. -/
def Frame.mixed : Frame :=
  { locals := ["a", "b", "c"], cells := ["d", "b", "e"], frees := ["x", "y"] }

theorem Frame.closures_agree_mixed : Frame.mixed.cells.Nodup ∧
    Frame.mixed.cellSlots = [3, 1, 4, 5, 6] ∧ Frame.mixed.cellSlots.Nodup :=
  ⟨by decide, by decide, (Frame.mixed.closures_agree (by decide)).2.1⟩

end Bytecode
