import Bytecode.Assembly
import Bytecode.Proofs.Assembly.Lowering

/-!
# From a graph to its code

The blocks of the layout stand in their order, each with its instructions lowered and its jumps
aimed. Read back, the code gives these instructions one by one, and every jump leads to where its
block starts.
-/

namespace Bytecode

open List Result Bytecode.Graph Layout Option

variable {i j : Instr} {ds : List DecodedInstr} {order : List BlockId} {f : Frame}
  {direction : Direction} {g : Graph}

/-- What holds of an instruction once jumps have directions: it is no unit that extends an operand,
and if it goes backward, it goes to a block of the layout. -/
structure Instr.Directed (order : List BlockId) (i : Instr) : Prop where
  notExtension : i.op ≠ .real .extendedArg
  backward : ∀ op target, i.op = .real op → op.direction? = some .backward →
    i.target = some target → target ∈ order

theorem Instr.Directed.lowersTo (hi : i.Directed order) (hij : i.LowersTo j) :
    j.Directed order := by
  cases hij with
  | same op target _ => exact ⟨op ▸ hi.notExtension, op ▸ target ▸ hi.backward⟩
  | idle _ op' target => exact ⟨by simp [op'], by simp [target]⟩
  | closure _ op' _ =>
    refine ⟨by simp [op'], fun op target hop hdir => ?_⟩
    obtain rfl : Opcode.loadFast = op := by simpa [op'] using hop
    simp [Opcode.direction?] at hdir

theorem Instr.Directed.of_mem_directInstr {seen : List BlockId} {js : List Instr}
    (hi : i.op ≠ .real .extendedArg) (h : directInstr seen i = .ok js) (hj : j ∈ js)
    (hseen : seen ⊆ order) : j.Directed order := by
  rcases mem_directInstr h hj with ⟨rfl, hnone⟩ | ⟨target, op, _, _, ht, hop, hdir, _⟩ | hop | hop
  · refine ⟨hi, fun op target hop hdir ht => ?_⟩
    simp [hnone (by simp [hop, Operation.isJump, hdir])] at ht
  · refine ⟨fun he => ?_, fun op' target' hop' hdir' ht' => ?_⟩
    · obtain rfl : op = .extendedArg := by simpa [hop] using he
      simp [Opcode.direction?] at hdir
    · obtain rfl : op = op' := by simpa [hop] using hop'
      obtain rfl : target = target' := by simpa [ht] using ht'
      have hback : target ∈ seen := by simpa [hdir] using hdir'
      exact hseen hback
  all_goals
    refine ⟨by simp [hop], fun op' target' hop' hdir' => ?_⟩
    obtain rfl : _ = op' := by simpa [hop] using hop'
    simp [Opcode.direction?] at hdir'

/-- Setting up the frame takes neither jumps nor units that extend an operand. -/
theorem Frame.mem_setup (hi : i ∈ f.setup) :
    i.target = none ∧ i.op ≠ .real .extendedArg ∧ i.op.isJump = false := by
  simp only [setup, mem_append, List.mem_map] at hi
  rcases hi with (hi | ⟨c, _, rfl⟩) | hi
  · split_ifs at hi
    · simp at hi
    · obtain rfl := mem_singleton.mp hi
      exact ⟨rfl, by simp, rfl⟩
  · exact ⟨rfl, by simp, rfl⟩
  · split_ifs at hi
    · simp only [mem_cons, not_mem_nil, or_false] at hi
      rcases hi with rfl | rfl <;> exact ⟨rfl, by simp, rfl⟩
    · simp at hi

namespace Arrangement

/-- The steps from a graph to its final form, with the graph in which jumps have directions. -/
structure Follows (a : Arrangement) (g : Graph) (f : Frame) (directed : Graph) : Prop where
  links : SameLinks g directed
  source : ∀ id ∈ g.order, ∀ j ∈ (directed.block id).instrs, ∃ i ∈ f.setup ++ (g.block id).instrs,
    ∃ seen js, directInstr seen i = .ok js ∧ j ∈ js ∧ seen ⊆ g.order
  stack : directed.stackDepths f.flags = .ok a.stack
  finalLinks : SameLinks g a.graph
  ids : a.layout.map (·.1) = g.order
  lowered : ∀ b ∈ a.layout, Lowered (directed.block b.1).instrs b.2
  aimed : ∀ k j op direction target, a.layout.instrs[k]? = some j → j.op = .real op →
    op.direction? = some direction → j.target = some target →
      distance op direction (unitsOf (a.layout.instrs.take (k + 1)))
        (offsetOf (a.layout.offsetsFrom 0) target) = .ok j.arg

end Arrangement

theorem arrange_spec {a : Arrangement} (hnodup : g.order.Nodup) (h : arrange g f = .ok a) :
    ∃ directed, a.Follows g f directed := by
  obtain ⟨g₁, hg₁, h⟩ := bind_eq_ok.mp h
  obtain ⟨stack, hstack, h⟩ := bind_eq_ok.mp h
  obtain ⟨g₂, hg₂, h⟩ := bind_eq_ok.mp h
  obtain ⟨g₃, hg₃, h⟩ := bind_eq_ok.mp h
  obtain ⟨layout, hlayout, h⟩ := bind_eq_ok.mp h
  obtain rfl := Except.ok.inj h
  set g₀ := g.modify g.entry fun b => { b with instrs := f.setup ++ b.instrs } with hg₀
  have hl₀ : SameLinks g g₀ := SameLinks.modify _ fun _ => rfl
  have ho₀ : g₀.order = g.order := hl₀.order
  obtain ⟨hl₁, hsource, -⟩ := directFrom_spec (ho₀ ▸ hnodup) hg₁
  have ho₁ : g₁.order = g.order := hl₁.order.trans ho₀
  obtain ⟨hl₂, hreloc, -⟩ := mapInstrsM_spec (ho₁ ▸ hnodup) hg₂
  have ho₂ : g₂.order = g.order := hl₂.order.trans ho₁
  obtain ⟨hl₃, hlow, -⟩ := lowerPseudos_spec (ho₂ ▸ hnodup) hg₃
  have ho₃ : g₃.order = g.order := hl₃.order.trans ho₂
  have hids : (g₃.order.map fun id => (id, (g₃.block id).instrs)).map (·.1) = g.order := by
    simp [Function.comp_def, ho₃]
  obtain ⟨hsame, haimed⟩ := resolve_spec (hids ▸ hnodup) hlayout
  refine ⟨g₁, hl₀.trans hl₁, ?_, hstack, ((hl₀.trans hl₁).trans hl₂).trans hl₃,
    hsame.map_fst.trans hids, ?_, haimed⟩
  · intro id hid j hj
    obtain ⟨pre, post, hsplit⟩ := append_of_mem (ho₀ ▸ hid)
    obtain ⟨i, hi, js, hjs, hj⟩ := hsource pre id post hsplit j hj
    refine ⟨i, ?_, _, js, hjs, hj, by simp [← ho₀, hsplit]⟩
    rw [hg₀, block_modify] at hi
    split_ifs at hi
    · exact hi
    · exact mem_append_right _ hi
  · intro b hb
    obtain ⟨c, hc, hbc, hfinal⟩ := exists_of_mem_forall₂ hsame hb
    obtain ⟨id, hid, rfl⟩ := mem_map.mp hc
    rw [ho₃] at hid
    have h₂ : Lowered (g₁.block id).instrs (g₂.block id).instrs :=
      .of_forall₂ ((mapM_eq_ok.mp (hreloc id (ho₁ ▸ hid))).imp fun _ _ => relocateCell_spec)
    have h₄ : Lowered (g₃.block id).instrs b.2 := .of_forall₂ (hfinal.imp fun _ _ h => h.lowersTo)
    rw [hbc]
    exact (h₂.trans (hlow id (ho₂ ▸ hid))).trans h₄

theorem SameFrames.arrange {a : Arrangement} (h : arrange g f = .ok a) : SameFrames g a.graph := by
  obtain ⟨g₁, hg₁, h⟩ := bind_eq_ok.mp h
  obtain ⟨stack, _, h⟩ := bind_eq_ok.mp h
  obtain ⟨g₂, hg₂, h⟩ := bind_eq_ok.mp h
  obtain ⟨g₃, hg₃, h⟩ := bind_eq_ok.mp h
  obtain ⟨layout, _, h⟩ := bind_eq_ok.mp h
  obtain rfl := Except.ok.inj h
  exact ((SameFrames.modify (f := (f.setup ++ ·)) g.entry).trans
    (.directFrom hg₁)).trans ((SameFrames.mapInstrsM hg₂).trans (.lowerPseudos hg₃))

namespace Arrangement.Follows

variable {a : Arrangement} {g : Graph} {f : Frame} {directed : Graph}

/-- Where an instruction of the final layout comes from. -/
theorem origin (h : a.Follows g f directed) (hj : j ∈ a.layout.instrs) :
    ∃ s ∈ f.setup ++ g.body.flatten, ∃ i seen js, directInstr seen s = .ok js ∧ i ∈ js ∧
      seen ⊆ g.order ∧ i.LowersTo j := by
  obtain ⟨b, hb, hj⟩ := mem_flatMap.mp hj
  obtain ⟨i, hi, hij⟩ := (h.lowered b hb).exists_of_mem hj
  have hid : b.1 ∈ g.order := h.ids ▸ mem_map_of_mem hb
  obtain ⟨s, hs, seen, js, hjs, hi, hsub⟩ := h.source b.1 hid i hi
  refine ⟨s, mem_append.mpr ((mem_append.mp hs).imp_right fun hs => ?_), i, seen, js, hjs, hi, hsub,
    hij⟩
  exact mem_flatten.mpr ⟨_, mem_map_of_mem hid, hs⟩

theorem directed_of_mem (h : a.Follows g f directed)
    (hext : ∀ i ∈ g.body.flatten, i.op ≠ .real .extendedArg) (hj : j ∈ a.layout.instrs) :
    j.Directed g.order := by
  obtain ⟨s, hs, i, seen, js, hjs, hi, hsub, hij⟩ := h.origin hj
  refine (Instr.Directed.of_mem_directInstr ?_ hjs hi hsub).lowersTo hij
  exact (mem_append.mp hs).elim (fun hs => (Frame.mem_setup hs).2.1) (hext s)

theorem target_mem (h : a.Follows g f directed)
    (hext : ∀ i ∈ g.body.flatten, i.op ≠ .real .extendedArg) {k : Nat} {op : Opcode}
    {target : BlockId} (hi : a.layout.instrs[k]? = some i) (hop : i.op = .real op)
    (hdir : op.direction? = some direction) (htarget : i.target = some target) :
    target ∈ a.layout.map (·.1) := by
  have haim := h.aimed k i op direction target hi hop hdir htarget
  cases direction with
  | forward =>
    refine mem_of_offsetOf_ne_zero fun hzero => ?_
    have hpos := unitsOf_take_succ_pos (List.getElem?_eq_some_iff.mp hi).1
    have hdistance := distance_eq_ok.mp haim
    simp only [hzero] at hdistance
    omega
  | backward =>
    rw [h.ids]
    exact (h.directed_of_mem hext (mem_of_getElem? hi)).backward op target hop hdir htarget

end Arrangement.Follows

/-! ### Reading the code back -/

namespace Layout

variable {l : Layout} {code : List UInt8}

theorem encodeInstr_eq_ok {bytes : List UInt8} (h : encodeInstr i = .ok bytes) :
    ∃ c : CodeInstr, bytes = c.bytes ∧ i.op = .real c.op ∧ i.arg = c.arg ∧ c.arg < 0x100000000 := by
  unfold encodeInstr at h
  split at h
  · simp at h
  · rename_i op hop
    split_ifs at h with harg
    · obtain rfl := Except.ok.inj h
      exact ⟨_, rfl, hop, rfl, harg⟩
    · simp at h

/-- An instruction of a layout and the same one in a code, where it has an opcode and a 32-bit
operand. -/
def Encodes (i : Instr) (c : CodeInstr) : Prop :=
  i.op = .real c.op ∧ i.arg = c.arg ∧ c.arg < 0x100000000

theorem mapM_encodeInstr_eq_ok {is : List Instr} {chunks : List (List UInt8)}
    (h : is.mapM encodeInstr = .ok chunks) :
    ∃ cs : List CodeInstr, chunks.flatten = cs.flatMap CodeInstr.bytes ∧ Forall₂ Encodes is cs := by
  induction mapM_eq_ok.mp h with
  | nil => exact ⟨[], rfl, .nil⟩
  | @cons i bytes is chunks hi hrest ih =>
    obtain ⟨c, rfl, hc⟩ := encodeInstr_eq_ok hi
    obtain ⟨cs, hcode, hcs⟩ := ih (mapM_eq_ok.mpr hrest)
    exact ⟨c :: cs, by simp [hcode], .cons hc hcs⟩

theorem encode_eq_ok (h : l.encode = .ok code) :
    ∃ cs : List CodeInstr, code = cs.flatMap CodeInstr.bytes ∧ Forall₂ Encodes l.instrs cs := by
  obtain ⟨chunks, hchunks, h⟩ := bind_eq_ok.mp h
  obtain rfl := Except.ok.inj h
  exact mapM_encodeInstr_eq_ok hchunks

theorem unitsOf_eq_codeInstr_unitsOf {is : List Instr} {cs : List CodeInstr}
    (h : Forall₂ Encodes is cs) : CodeInstr.unitsOf cs = unitsOf is := by
  induction h with
  | nil => rfl
  | cons hc _ ih => simp only [CodeInstr.unitsOf, unitsOf, hc.2.1, ih]

theorem exists_eq_append_of_mem {id : BlockId} (h : id ∈ l.map (·.1)) :
    ∃ (pre : Layout) (blk : List Instr) (post : Layout),
      l = pre ++ (id, blk) :: post ∧ pre.instrs = l.before id := by
  induction l with
  | nil => simp at h
  | cons b l ih =>
    by_cases hb : b.1 = id
    · exact ⟨[], b.2, l, by simp [← hb], by simp [before, hb]⟩
    · obtain ⟨pre, blk, post, rfl, hpre⟩ := ih (by simpa [Ne.symm hb] using h)
      refine ⟨b :: pre, blk, post, rfl, ?_⟩
      simp [before, hb, hpre]

/-- The instructions that were read are those of the layout, each in its place. -/
structure ReadsAs (l : Layout) (ds : List DecodedInstr) : Prop where
  length : ds.length = l.instrs.length
  op : ∀ {k : Nat} {i : Instr} {d : DecodedInstr}, l.instrs[k]? = some i → ds[k]? = some d →
    i.op = .real d.op
  arg : ∀ {k : Nat} {i : Instr} {d : DecodedInstr}, l.instrs[k]? = some i → ds[k]? = some d →
    d.arg = i.arg
  start : ∀ {k : Nat} {d : DecodedInstr}, ds[k]? = some d → d.start = unitsOf (l.instrs.take k)
  stop : ∀ {k : Nat} {d : DecodedInstr}, ds[k]? = some d →
    d.offset + 1 = unitsOf (l.instrs.take (k + 1))

theorem decode_encode (hext : ∀ i ∈ l.instrs, i.op ≠ .real .extendedArg) (h : l.encode = .ok code) :
    ∃ ds, decode code = .ok ds ∧ code.length = 2 * l.units ∧ l.ReadsAs ds := by
  obtain ⟨cs, rfl, hcs⟩ := encode_eq_ok h
  have hop : ∀ c ∈ cs, c.op ≠ .extendedArg := by
    intro c hc he
    obtain ⟨i, hi, hic⟩ := exists_of_mem_forall₂ hcs hc
    exact hext i hi (he ▸ hic.1)
  have harg : ∀ c ∈ cs, c.arg < 0x100000000 := by
    intro c hc
    obtain ⟨i, _, hic⟩ := exists_of_mem_forall₂ hcs hc
    exact hic.2.2
  have hstart : ∀ k, CodeInstr.unitsOf (cs.take k) = unitsOf (l.instrs.take k) := fun k =>
    unitsOf_eq_codeInstr_unitsOf (forall₂_take k hcs)
  have hget : ∀ {k : Nat} {d : DecodedInstr}, (placedFrom 0 cs)[k]? = some d →
      ∃ c, cs[k]? = some c ∧ d = ⟨CodeInstr.unitsOf (cs.take k),
        CodeInstr.unitsOf (cs.take k) + unitCount c.arg - 1, c.op, c.arg⟩ := by
    intro k d hd
    rw [placedFrom_getElem?, map_eq_some_iff] at hd
    obtain ⟨c, hc, rfl⟩ := hd
    exact ⟨c, hc, by simp⟩
  refine ⟨placedFrom 0 cs, decode_flatMap_bytes cs hop harg, ?_, ?_, ?_, ?_, ?_, ?_⟩
  · rw [CodeInstr.flatMap_bytes_length, unitsOf_eq_codeInstr_unitsOf hcs, units]
  · rw [placedFrom_length, hcs.length_eq]
  · intro k i d hi hd
    obtain ⟨c, hc, rfl⟩ := hget hd
    exact (rel_of_getElem? hcs hi hc).1
  · intro k i d hi hd
    obtain ⟨c, hc, rfl⟩ := hget hd
    exact (rel_of_getElem? hcs hi hc).2.1.symm
  · intro k d hd
    obtain ⟨c, hc, rfl⟩ := hget hd
    exact hstart k
  · intro k d hd
    obtain ⟨c, hc, rfl⟩ := hget hd
    have hk : k < l.instrs.length := by
      rw [hcs.length_eq]
      exact (List.getElem?_eq_some_iff.mp hc).1
    have hi := getElem?_eq_getElem hk
    have hpos := unitCount_pos c.arg
    rw [unitsOf_take_succ hi, (rel_of_getElem? hcs hi hc).2.1, ← hstart k]
    simp only
    omega

theorem ReadsAs.unitsOf_before (h : l.ReadsAs ds) (id : BlockId) :
    unitsOf (l.before id) = (ds[(l.before id).length]?.map (·.start)).getD l.units := by
  have htake := l.take_length_before id
  by_cases hlt : (l.before id).length < ds.length
  · have hd := getElem?_eq_getElem hlt
    rw [hd, map_some, getD_some, h.start hd, htake]
  · rw [getElem?_eq_none (by omega), map_none, getD_none, units]
    rw [take_of_length_le (by rw [← h.length]; omega)] at htake
    rw [← htake]

end Layout

namespace Arrangement

variable {a : Arrangement} {g : Graph} {f : Frame} {constants : List Constant} {c : CodeObject}

def sites (a : Arrangement) : HandlerSites :=
  ⟨a.graph, a.layout.offsetsFrom 0, a.stack.depths⟩

theorem toCode_spec (h : a.toCode constants f = .ok c) : a.layout.encode = .ok c.code ∧
    (∃ ranges, a.sites.rangesFrom none 0 a.layout.instrs = .ok ranges ∧
      HandlerTable.write ranges = .ok c.handlerTable) ∧
    c.flags = f.flags ∧ c.stackSize = a.stack.deepest.toNat ∧ c.slotNames = f.slotNames ∧
      c.slotKinds = f.slotKinds := by
  obtain ⟨code, hcode, h⟩ := bind_eq_ok.mp h
  obtain ⟨_, -, h⟩ := bind_eq_ok.mp h
  obtain ⟨ranges, hranges, h⟩ := bind_eq_ok.mp h
  obtain ⟨table, htable, h⟩ := bind_eq_ok.mp h
  obtain rfl := Except.ok.inj h
  exact ⟨hcode, ⟨ranges, hranges, htable⟩, rfl, rfl, rfl, rfl⟩

/-- A jump that was read back leads to where its block starts. -/
theorem Follows.jumpTarget? {directed : Graph} (h : a.Follows g f directed)
    (hext : ∀ i ∈ g.body.flatten, i.op ≠ .real .extendedArg) (hds : a.layout.ReadsAs ds) {k : Nat}
    {d : DecodedInstr} {target : BlockId} (hi : a.layout.instrs[k]? = some i) (hd : ds[k]? = some d)
    (hdir : d.op.direction? = some direction) (htarget : i.target = some target) :
    d.jumpTarget? = some (unitsOf (a.layout.before target)) := by
  have haim := h.aimed k i d.op direction target hi (hds.op hi hd) hdir htarget
  rw [offsetOf_offsetsFrom (h.target_mem hext hi (hds.op hi hd) hdir htarget),
    ← hds.stop hd, ← hds.arg hi hd] at haim
  have hdistance := distance_eq_ok.mp haim
  cases direction with
  | forward => simp [DecodedInstr.jumpTarget?, hdir, ← hdistance]
  | backward =>
    simp only at hdistance
    simp only [DecodedInstr.jumpTarget?, hdir, ← hdistance]
    rw [if_pos (Nat.le_add_left ..), Nat.add_sub_cancel]

/-- The code of an arrangement reads back as its layout: one instruction for each of the layout's,
with its opcode and its operand, at the sum of the sizes before it. A jump leads to the first
instruction at or after its block, and past the last unit if there is none. -/
theorem decode_code (hlinear : g.order.Nodup)
    (hext : ∀ i ∈ g.body.flatten, i.op ≠ .real .extendedArg) (ha : arrange g f = .ok a)
    (hc : a.toCode constants f = .ok c) :
    ∃ ds, decode c.code = .ok ds ∧ ds.length = a.layout.instrs.length ∧
      c.units = a.layout.units ∧
      ∀ k i d, a.layout.instrs[k]? = some i → ds[k]? = some d →
        i.op = .real d.op ∧ d.arg = i.arg ∧ d.start = unitsOf (a.layout.instrs.take k) ∧
        ∀ target, i.op.isJump → i.target = some target →
          ∃ (pre : Layout) (blk : List Instr) (post : Layout),
            a.layout = pre ++ (target, blk) :: post ∧
            d.jumpTarget? = some ((ds[pre.instrs.length]?.map (·.start)).getD a.layout.units) := by
  obtain ⟨directed, hfollows⟩ := arrange_spec hlinear ha
  obtain ⟨ds, hds, hlength, hreads⟩ := decode_encode
    (fun i hi => (hfollows.directed_of_mem hext hi).notExtension) (toCode_spec hc).1
  refine ⟨ds, hds, hreads.length, by rw [CodeObject.units, hlength]; omega, ?_⟩
  intro k i d hi hd
  have hop := hreads.op hi hd
  refine ⟨hop, hreads.arg hi hd, hreads.start hd, ?_⟩
  intro target hjump htarget
  obtain ⟨direction, hdir⟩ : ∃ direction, d.op.direction? = some direction :=
    isSome_iff_exists.mp (by simpa [hop, Operation.isJump] using hjump)
  obtain ⟨pre, blk, post, hsplit, hpre⟩ := exists_eq_append_of_mem
    (hfollows.target_mem hext hi hop hdir htarget)
  refine ⟨pre, blk, post, hsplit, ?_⟩
  rw [hfollows.jumpTarget? hext hreads hi hd hdir htarget, hpre, hreads.unitsOf_before target]

end Arrangement

/-- A loop whose body is protected: the second block steps the iterator, the third is the body with
an operand of two bytes, and the fourth handles what it raises. -/
def Graph.guardedLoop : Graph where
  blocks := #[
    { instrs := [{ op := .real .loadName }, { op := .real .getIter }], next := some 1 },
    { instrs := [{ op := .real .forIter, target := some 4 }], next := some 2 },
    { instrs := [{ op := .real .storeName, arg := 300 },
        { op := .pseudo .setupFinally, target := some 3 },
        { op := .real .loadName, arg := 1, handler := some 3 },
        { op := .real .popTop, handler := some 3 },
        { op := .pseudo .popBlock, handler := some 3 },
        { op := .pseudo .jump, target := some 1 }], next := some 3 },
    { instrs := [{ op := .real .reraise }], next := some 4, isHandler := true },
    { instrs := [{ op := .real .returnConst }] }]

theorem Graph.exists_assemble_guardedLoop : ∃ c, assemble guardedLoop [.none] {} = .ok c :=
  Result.exists_of_isOk (by decide +kernel)

theorem exists_of_assemble {constants : List Constant} {c : CodeObject}
    (h : assemble g constants f = .ok c) :
    ∃ a, arrange g f = .ok a ∧ a.toCode constants f = .ok c := by
  unfold assemble at h
  split_ifs at h
  · simp at h
  · simp at h
  · exact bind_eq_ok.mp h

theorem Arrangement.decode_code_guardedLoop :
    guardedLoop.order.Nodup ∧
      (∀ i ∈ guardedLoop.body.flatten, i.op ≠ .real .extendedArg) ∧
      ∃ a c ds, arrange guardedLoop {} = .ok a ∧ a.toCode [.none] {} = .ok c ∧
        decode c.code = .ok ds ∧ ds.length = a.layout.instrs.length := by
  have hlinear : guardedLoop.order.Nodup := by decide
  have hext : ∀ i ∈ guardedLoop.body.flatten, i.op ≠ .real .extendedArg := by decide
  obtain ⟨c, hc⟩ := exists_assemble_guardedLoop
  obtain ⟨a, ha, hc⟩ := exists_of_assemble hc
  obtain ⟨ds, hds, hlength, -⟩ := Arrangement.decode_code hlinear hext ha hc
  exact ⟨hlinear, hext, a, c, ds, ha, hc, hds, hlength⟩

end Bytecode
