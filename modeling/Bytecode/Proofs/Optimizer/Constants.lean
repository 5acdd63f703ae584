import Bytecode.Graph.Constants
import Bytecode.Proofs.Optimizer.Preservation

/-!
# Constants

An instruction reads at most one constant, the one that its operand names. So constants can be added
behind those that are there, numbered anew together with the operands, and dropped if no instruction
names them.
-/

namespace Bytecode

open List Instr Option

variable {V W E : Type} {M : Machine V W E} {cs : List Constant} {used : Array Bool}
variable {i : Instr}

namespace Machine

variable {cs cs' : List Constant}

/-- An instruction that names a constant reads that one. -/
theorem exec_of_constantIndex? {k k' : Nat} (hi : i.constantIndex? = some k)
    (hk : cs'[k']? = cs[k]?) (s : State V W E) :
    M.exec cs' { i with arg := k' } s = M.exec cs i s := by
  obtain ⟨op, arg, target, loc, handler⟩ := i
  rcases op with op | op
  · simp only [constantIndex?, ite_none_right_eq_some, some.injEq] at hi
    obtain ⟨hop, rfl⟩ := hi
    cases op <;> first | cases hop; done | simp only [exec, Operation.meaning, hk]
  · cases hi

theorem exec_of_constantIndex?_none (hi : i.constantIndex? = none) (s : State V W E) :
    M.exec cs' i s = M.exec cs i s := by
  obtain ⟨op, arg, target, loc, handler⟩ := i
  have hmeaning : op.meaning ≠ .constant ∧ op.meaning ≠ .answerConstant ∧
      op.meaning ≠ .keywords := by
    rcases op with op | op <;> cases op <;> first | cases hi; done | exact ⟨nofun, nofun, nofun⟩
  unfold exec
  dsimp only
  generalize op.meaning = m at hmeaning
  cases m <;> first | rfl | simp at hmeaning

/-- With more constants behind them, the constants are read as before. -/
theorem exec_extend (h : cs <+: cs') {s : State V W E} (hs : M.exec cs i s ≠ .wrong) :
    M.exec cs' i s = M.exec cs i s := by
  cases hi : i.constantIndex? with
  | none => exact exec_of_constantIndex?_none hi s
  | some k =>
    have harg : i.arg = k := by
      unfold constantIndex? at hi
      split at hi
      · simpa using (ite_none_right_eq_some.mp hi).2
      · cases hi
    cases hk : cs[k]? with
    | some c =>
      have hk' : cs'[i.arg]? = cs[k]? := by
        obtain ⟨more, rfl⟩ := h
        rw [harg, getElem?_append_left (List.getElem?_eq_some_iff.mp hk).1]
      exact exec_of_constantIndex? hi hk' s
    | none =>
      -- There was nothing to read.
      refine absurd ?_ hs
      obtain ⟨op, arg, target, loc, handler⟩ := i
      subst harg
      rcases op with op | op
      · simp only [constantIndex?, ite_none_right_eq_some] at hi
        cases op <;> first | (cases hi.1; done) | simp only [exec, Operation.meaning, hk]
      · cases hi

theorem run_map {f : Instr → Instr} {is : List Instr}
    (h : ∀ i ∈ is, ∀ s : State V W E, M.exec cs' (f i) s = M.exec cs i s) (s : State V W E) :
    M.run cs' (is.map f) s = M.run cs is s := by
  induction is generalizing s with
  | nil => rfl
  | cons i is ih =>
    rw [map_cons, run_cons, run_cons, h i (by simp)]
    congr 1
    exact funext (ih fun j hj => h j (mem_cons_of_mem i hj))

theorem refines_extend (h : cs <+: cs') (is : List Instr) : M.Refines cs is cs' is := by
  induction is with
  | nil => exact fun _ _ => rfl
  | cons i is ih => exact .cons (fun s hs => exec_extend h hs) ih

end Machine

/-! ### Unused constants -/

namespace Instr

/-- The instruction is one of those that read a constant, and reads the one at the given index. -/
def RefersTo (i : Instr) (k : Nat) : Prop :=
  (i.op = .real .loadConst ∨ i.op = .real .returnConst ∨ i.op = .real .kwNames) ∧ i.arg = k

theorem constantIndex?_eq_some {k : Nat} : i.constantIndex? = some k ↔ i.RefersTo k := by
  have hop : ∀ op : Opcode, op.hasConstant ↔
      op = .loadConst ∨ op = .returnConst ∨ op = .kwNames := by
    intro op
    unfold Opcode.hasConstant
    split <;> simp_all
  obtain ⟨op | op, arg, target, loc, handler⟩ := i <;> simp [constantIndex?, RefersTo, hop]

def marked (marks : Array Bool) (i : Instr) : Array Bool :=
  i.constantIndex?.elim marks (marks.setIfInBounds · true)

theorem foldlM_markConstant {count : Nat} {is : List Instr} {marks : Array Bool} :
    is.foldlM (markConstant count) marks = .ok used ↔
      (∀ i ∈ is, ∀ k, i.RefersTo k → k < count) ∧ is.foldl marked marks = used := by
  simp only [← constantIndex?_eq_some]
  induction is generalizing marks with
  | nil => simp
  | cons i is ih =>
    rw [foldlM_cons, Result.bind_eq_ok, foldl_cons, forall_mem_cons]
    cases hi : i.constantIndex? with
    | none => simp [markConstant, marked, hi, ih]
    | some k => by_cases hk : k < count <;> simp [markConstant, marked, hi, hk, ih]

theorem getD_foldl_marked (is : List Instr) (marks : Array Bool) (k : Nat) :
    (is.foldl marked marks).getD k false ↔
      marks.getD k false ∨ k < marks.size ∧ ∃ i ∈ is, i.RefersTo k := by
  simp only [← constantIndex?_eq_some]
  induction is generalizing marks with
  | nil => simp
  | cons i is ih =>
    rw [foldl_cons, ih]
    cases hi : i.constantIndex? with
    | none => simp [marked, hi]
    | some j =>
      by_cases hk : k < marks.size
      · by_cases hj : j = k <;> simp [marked, hi, Array.getD, hk, hj]
      · simp [marked, hi, Array.getD, hk]

end Instr

namespace Graph

variable {g h : Graph}

/-- An instruction of the layout reads the constant at the given index. -/
def RefersTo (g : Graph) (k : Nat) : Prop :=
  ∃ id ∈ g.order, ∃ i ∈ (g.block id).instrs, i.RefersTo k

theorem usedConstants_eq_ok {count : Nat} : g.usedConstants count = .ok used ↔
    (∀ k, g.RefersTo k → k < count) ∧ g.body.flatten.foldl marked
      ((Array.replicate count false).setIfInBounds 0 true) = used := by
  have hbody : (∀ i ∈ g.body.flatten, ∀ k, i.RefersTo k → k < count) ↔
      ∀ k, g.RefersTo k → k < count := by
    simp only [body, mem_flatten, List.mem_map, RefersTo]
    grind
  rw [usedConstants, foldlM_markConstant, hbody]

theorem usedConstants_spec {count : Nat} (h : g.usedConstants count = .ok used) (k : Nat) :
    used.getD k false ↔ k < count ∧ (k = 0 ∨ g.RefersTo k) := by
  obtain ⟨_, rfl⟩ := usedConstants_eq_ok.mp h
  have hfirst : ((Array.replicate count false).setIfInBounds 0 true).getD k false ↔
      k < count ∧ k = 0 := by
    by_cases hk : k < count
    · by_cases hzero : 0 = k <;> simp [Array.getD, hk, hzero, eq_comm (b := 0)]
    · simp [Array.getD, hk]
  have hbody : (∃ i ∈ g.body.flatten, i.RefersTo k) ↔ g.RefersTo k := by
    simp only [body, mem_flatten, List.mem_map, RefersTo]
    grind
  rw [getD_foldl_marked, hfirst, hbody, Array.size_setIfInBounds, Array.size_replicate, and_or_left]

theorem sameLinks_mapInstrs (g : Graph) (f : List Instr → List Instr) :
    g.SameLinks (g.mapInstrs f) := by
  refine .foldl (fun h id => ?_) g.order g
  exact .modify id fun _ => rfl

theorem block_mapInstrs (hnodup : g.order.Nodup) (f : List Instr → List Instr) (id : BlockId) :
    (g.mapInstrs f).block id =
      if id ∈ g.order ∧ id < g.blocks.size then { g.block id with instrs := f (g.block id).instrs }
      else g.block id := by
  have hfold : ∀ (ids : List BlockId) (h : Graph), ids.Nodup →
      (ids.foldl (fun h id => h.modify id fun b => { b with instrs := f b.instrs }) h).block id =
        if id ∈ ids ∧ id < h.blocks.size then { h.block id with instrs := f (h.block id).instrs }
        else h.block id := by
    intro ids
    induction ids with
    | nil => intro h _; simp
    | cons j ids ih =>
      intro h hnodup
      obtain ⟨hj, hnodup⟩ := nodup_cons.mp hnodup
      rw [foldl_cons, ih _ hnodup, block_modify, size_modify]
      by_cases hid : j = id
      · subst hid
        by_cases hlt : j < h.blocks.size <;> simp [hj, hlt]
      · simp [hid, Ne.symm hid]
  exact hfold g.order g hnodup

end Graph

/-- The constants that are kept, read at a new number. -/
theorem getElem?_filterMap {ks : List Nat} (hks : ∀ k ∈ ks, k < cs.length) (j : Nat) :
    (ks.filterMap fun k => cs[k]?)[j]? = ks[j]?.bind fun k => cs[k]? := by
  induction ks generalizing j with
  | nil => rfl
  | cons k ks ih =>
    obtain ⟨c, hk⟩ : ∃ c, cs[k]? = some c := ⟨_, getElem?_eq_getElem (hks k (by simp))⟩
    rw [filterMap_cons_some hk]
    cases j with
    | zero => simp [hk]
    | succ j => simpa using ih (fun k hk => hks k (mem_cons_of_mem _ hk)) j

theorem Instr.renumber_spec {kept : List Nat} (hi : ∀ k, i.RefersTo k → k ∈ kept) :
    ∃ arg, i.renumber kept = { i with arg := arg } ∧ (∀ k, i.RefersTo k → kept[arg]? = some k) ∧
      ((∀ k, ¬i.RefersTo k) → arg = i.arg) := by
  simp only [← constantIndex?_eq_some] at hi ⊢
  unfold renumber
  split
  · rename_i k hk
    obtain ⟨j, hj⟩ := isSome_iff_exists.mp (isSome_idxOf?.mpr (hi k hk))
    obtain ⟨hlt, hkj, _⟩ := idxOf?_eq_some_iff.mp hj
    refine ⟨j, by rw [hj, getD_some], fun l hl => ?_, fun h => absurd hk (h k)⟩
    rw [getElem?_eq_getElem hlt, hkj, ← hk.symm.trans hl]
  · rename_i hk
    exact ⟨i.arg, rfl, fun k h => absurd (hk.symm.trans h) nofun, fun _ => rfl⟩

theorem exec_renumber {kept : List Nat} (hkept : ∀ k ∈ kept, k < cs.length)
    (hi : ∀ k, i.RefersTo k → k ∈ kept) (s : State V W E) :
    M.exec (kept.filterMap fun k => cs[k]?) (i.renumber kept) s = M.exec cs i s := by
  obtain ⟨arg, heq, hread, hsame⟩ := renumber_spec hi
  rw [heq]
  cases hk : i.constantIndex? with
  | some k =>
    refine M.exec_of_constantIndex? hk ?_ s
    rw [getElem?_filterMap hkept, hread k (constantIndex?_eq_some.mp hk), bind_some]
  | none =>
    rw [hsame fun k h => by rw [constantIndex?_eq_some.mpr h] at hk; cases hk]
    exact M.exec_of_constantIndex?_none hk s

namespace Graph

variable {g h : Graph} {cs' : List Constant}

/-- The constants that are kept, by increasing index, and what is made of the graph. -/
theorem dropUnusedConstants_eq_ok (hcs : cs ≠ [])
    (hdrop : g.dropUnusedConstants cs = .ok (h, cs')) :
    (∀ k, g.RefersTo k → k < cs.length) ∧ ∃ kept : List Nat, kept.Pairwise (· < ·) ∧
      (∀ k, k ∈ kept ↔ k < cs.length ∧ (k = 0 ∨ g.RefersTo k)) ∧
      h = g.mapInstrs (·.map (·.renumber kept)) ∧ cs' = kept.filterMap fun k => cs[k]? := by
  unfold dropUnusedConstants at hdrop
  rw [if_neg (by simpa using hcs)] at hdrop
  obtain ⟨used, hused, hdrop⟩ := Result.bind_eq_ok.mp hdrop
  cases hdrop
  refine ⟨(usedConstants_eq_ok.mp hused).1, _, pairwise_lt_range.filter _, fun k => ?_, rfl, rfl⟩
  rw [mem_filter, mem_range, usedConstants_spec hused]
  tauto

theorem preserves_dropUnusedConstants (hg : g.Closed)
    (hdrop : g.dropUnusedConstants cs = .ok (h, cs')) : M.Preserves ⟨g, cs⟩ ⟨h, cs'⟩ := by
  by_cases hcs : cs = []
  · subst hcs
    cases hdrop
    exact .refl M _
  obtain ⟨hbound, kept, -, hkept, rfl, rfl⟩ := dropUnusedConstants_eq_ok hcs hdrop
  have hblock := block_mapInstrs hg.layout.nodup
  have hlinks := g.sameLinks_mapInstrs
  refine Machine.preserves_of_refines hg.stays (hlinks _).entry (fun id _ => (hlinks _).next id)
    fun id hid => ?_
  simp only [Program.instrs]
  rw [hblock, if_pos ⟨hid, hg.layout.bound id hid⟩]
  refine .of_run_eq (M.run_map fun i hi s => ?_)
  refine exec_renumber (fun k hk => ((hkept k).mp hk).1) (fun k hk => ?_) s
  have href : g.RefersTo k := ⟨id, hid, i, hi, hk⟩
  exact (hkept k).mpr ⟨hbound k href, .inr href⟩

theorem mapInstrs_eq_self {f : List Instr → List Instr}
    (hf : ∀ id ∈ g.order, f (g.block id).instrs = (g.block id).instrs) : g.mapInstrs f = g := by
  unfold mapInstrs
  generalize g.order = ids at hf
  induction ids with
  | nil => rfl
  | cons id ids ih =>
    have hid : (g.modify id fun b => { b with instrs := f b.instrs }) = g := by
      refine .trans ?_ (g.setInstrs_self id)
      rw [← hf id (by simp), setInstrs, modify, modify, mk.injEq]
      refine ⟨Array.ext_getElem? fun j => ?_, rfl, rfl, rfl⟩
      rw [Array.getElem?_modify, Array.getElem?_modify]
      split_ifs with hj
      · subst hj
        cases hb : g.blocks[id]? with
        | none => rfl
        | some b => simp [block, hb]
      · rfl
    rw [foldl_cons, hid]
    exact ih fun j hj => hf j (by simp [hj])

theorem instrs_mapInstrs (hg : g.order.Nodup) (f : Instr → Instr) {id : BlockId}
    (hid : id ∈ g.order) :
    ((g.mapInstrs (·.map f)).block id).instrs = (g.block id).instrs.map f := by
  rw [block_mapInstrs hg]
  split_ifs with hlt
  · rfl
  · rw [g.block_eq_of_size_le (Nat.le_of_not_lt fun h => hlt ⟨hid, h⟩)]
    rfl

theorem refersTo_renumber (hg : g.order.Nodup) {kept : List Nat} (hnodup : kept.Nodup)
    (hkept : ∀ k, g.RefersTo k → k ∈ kept) {j : Nat} :
    (g.mapInstrs (·.map (·.renumber kept))).RefersTo j ↔ ∃ k, g.RefersTo k ∧ kept[j]? = some k := by
  have hread : ∀ id ∈ g.order, ∀ i ∈ (g.block id).instrs, ∃ arg, i.renumber kept =
      { i with arg := arg } ∧ ∀ k, i.RefersTo k → kept[arg]? = some k := fun id hid i hi => by
    obtain ⟨arg, heq, hread, -⟩ := renumber_spec fun k hk => hkept k ⟨id, hid, i, hi, hk⟩
    exact ⟨arg, heq, hread⟩
  unfold RefersTo
  rw [(g.sameLinks_mapInstrs _).order]
  constructor
  · rintro ⟨id, hid, i', hi', hop, rfl⟩
    rw [instrs_mapInstrs hg _ hid] at hi'
    obtain ⟨i, hi, rfl⟩ := mem_map.mp hi'
    obtain ⟨arg, heq, hread⟩ := hread id hid i hi
    rw [heq] at hop ⊢
    exact ⟨i.arg, ⟨id, hid, i, hi, hop, rfl⟩, hread _ ⟨hop, rfl⟩⟩
  · rintro ⟨k, ⟨id, hid, i, hi, hik⟩, hj⟩
    obtain ⟨arg, heq, hread⟩ := hread id hid i hi
    refine ⟨id, hid, i.renumber kept, ?_, ?_⟩
    · rw [instrs_mapInstrs hg _ hid]
      exact mem_map_of_mem hi
    · have hlt := (List.getElem?_eq_some_iff.mp (hread k hik)).1
      rw [heq]
      exact ⟨hik.1, (getElem?_inj hlt hnodup).mp ((hread k hik).trans hj.symm)⟩

/-- There is nothing to drop if every constant but the first is referred to. -/
theorem dropUnusedConstants_eq_self (hbound : ∀ k, g.RefersTo k → k < cs.length)
    (hall : ∀ k < cs.length, k = 0 ∨ g.RefersTo k) : g.dropUnusedConstants cs = .ok (g, cs) := by
  unfold dropUnusedConstants
  split_ifs
  · rfl
  obtain ⟨used, hused⟩ : ∃ used, g.usedConstants cs.length = .ok used :=
    ⟨_, usedConstants_eq_ok.mpr ⟨hbound, rfl⟩⟩
  have hkept : ((range cs.length).filter fun k => used.getD k false) = range cs.length := by
    refine filter_eq_self.mpr fun k hk => ?_
    exact (usedConstants_spec hused k).mpr ⟨mem_range.mp hk, hall k (mem_range.mp hk)⟩
  have hgraph : g.mapInstrs (·.map (·.renumber (range cs.length))) = g := by
    refine mapInstrs_eq_self fun id hid => (map_congr_left fun i hi => ?_).trans (map_id _)
    obtain ⟨arg, heq, hread, hsame⟩ := @renumber_spec i (range cs.length)
      fun k hk => mem_range.mpr (hbound k ⟨id, hid, i, hi, hk⟩)
    have harg : arg = i.arg := by
      by_contra hne
      refine hne (hsame fun k hk => hne ?_)
      rw [hk.2]
      simpa using (List.getElem?_eq_some_iff.mp (hread k hk)).2
    rw [heq, harg, id_eq]
  have hconstants : ((range cs.length).filterMap fun k => cs[k]?) = cs := by
    refine ext_getElem? fun j => ?_
    rw [getElem?_filterMap (fun k hk => mem_range.mp hk)]
    by_cases hj : j < cs.length <;> simp [hj]
  rw [hused, Result.ok_bind]
  dsimp only
  rw [hkept, hgraph, hconstants]
  rfl

/-- Constants are dropped without loss, from a table that has some. It fails exactly if the layout
refers to a constant that is not there; the result then holds no graph and no table, so that the old
ones stay as they are. Else the first constant and those that the layout refers to are left in their
order, every instruction of the layout reads the constant that it read before, and nothing else in
the graph changes; and there is nothing left to drop. -/
theorem dropUnusedConstants_exact (hg : g.order.Nodup) (hcs : cs ≠ []) :
    ((∃ e, g.dropUnusedConstants cs = .error e) ↔ ∃ k, g.RefersTo k ∧ cs.length ≤ k) ∧
      ∀ h cs', g.dropUnusedConstants cs = .ok (h, cs') →
        (∃ kept : List Nat, kept.Pairwise (· < ·) ∧ (∀ k, k ∈ kept ↔ k = 0 ∨ g.RefersTo k) ∧
          cs'.map some = kept.map fun k => cs[k]?) ∧
        cs'.head? = cs.head? ∧
        { h with blocks := g.blocks } = g ∧ h.blocks.size = g.blocks.size ∧
        (∀ id, { h.block id with instrs := (g.block id).instrs } = g.block id ∧
          Forall₂ (fun i j : Instr => j = { i with arg := j.arg } ∧
              (∀ k, id ∈ g.order → i.RefersTo k → j.RefersTo j.arg ∧ cs'[j.arg]? = cs[k]?) ∧
              (id ∉ g.order ∨ (∀ k, ¬i.RefersTo k) → j = i))
            (g.block id).instrs (h.block id).instrs) ∧
        h.dropUnusedConstants cs' = .ok (h, cs') := by
  refine ⟨⟨fun ⟨e, he⟩ => ?_, fun ⟨k, hk, hle⟩ => ?_⟩, fun h cs' hdrop => ?_⟩
  · by_contra hno
    have hbound : ∀ k, g.RefersTo k → k < cs.length := fun k hk =>
      Nat.lt_of_not_le fun hle => hno ⟨k, hk, hle⟩
    have hused := usedConstants_eq_ok.mpr ⟨hbound, rfl⟩
    unfold dropUnusedConstants at he
    rw [if_neg (by simpa using hcs), hused] at he
    cases he
  · cases hdrop : g.dropUnusedConstants cs with
    | error e => exact ⟨e, rfl⟩
    | ok r => exact absurd ((dropUnusedConstants_eq_ok hcs hdrop).1 k hk) (Nat.not_lt.mpr hle)
  obtain ⟨hbound, kept, hsorted, hkept, rfl, rfl⟩ := dropUnusedConstants_eq_ok hcs hdrop
  have hpos : 0 < cs.length := length_pos_iff.mpr hcs
  have hlt : ∀ k ∈ kept, k < cs.length := fun k hk => ((hkept k).mp hk).1
  have hmem : ∀ k, g.RefersTo k → k ∈ kept := fun k hk => (hkept k).mpr ⟨hbound k hk, .inr hk⟩
  have hread := getElem?_filterMap hlt
  have hmap : (kept.filterMap fun k => cs[k]?).map some = kept.map fun k => cs[k]? := by
    refine ext_getElem? fun j => ?_
    rw [getElem?_map, getElem?_map, hread]
    cases hj : kept[j]? with
    | none => rfl
    | some k => simp [hlt k (mem_of_getElem? hj)]
  have hlength : (kept.filterMap fun k => cs[k]?).length = kept.length := by
    simpa using congrArg length hmap
  have hfirst : kept[0]? = some 0 := by
    have hzero : 0 ∈ kept := (hkept 0).mpr ⟨hpos, .inl rfl⟩
    cases kept with
    | nil => cases hzero
    | cons k kept =>
      rcases mem_cons.mp hzero with rfl | hzero
      · rfl
      · exact absurd ((pairwise_cons.mp hsorted).1 0 hzero) (Nat.not_lt_zero k)
  have hnodup : kept.Nodup := hsorted.imp Nat.ne_of_lt
  refine ⟨⟨kept, hsorted, fun k => ?_, ?_⟩, ?_, ?_, (g.sameLinks_mapInstrs _).size,
    fun id => ⟨?_, ?_⟩, ?_⟩
  · rw [hkept]
    exact ⟨fun h => h.2, fun h => ⟨h.elim (fun h => h ▸ hpos) (hbound k), h⟩⟩
  · exact hmap
  · rw [head?_eq_getElem?, head?_eq_getElem?, hread, hfirst, bind_some]
  · unfold mapInstrs
    exact foldlRecOn (motive := fun h : Graph => { h with blocks := g.blocks } = g) _ _ rfl
      fun _ h _ _ => h
  · rw [block_mapInstrs hg]
    split_ifs <;> rfl
  · rw [block_mapInstrs hg]
    split_ifs with hid
    · refine forall₂_map_right_iff.mpr (forall₂_same.mpr fun i hi => ?_)
      obtain ⟨arg, heq, hkeep, hsame⟩ :=
        renumber_spec fun k hk => hmem k ⟨id, hid.1, i, hi, hk⟩
      rw [heq]
      refine ⟨rfl, fun k _ hk => ⟨⟨hk.1, rfl⟩, ?_⟩, fun hnot => ?_⟩
      · rw [hread, hkeep k hk, bind_some]
      · rw [hsame (hnot.resolve_left (absurd hid.1))]
    · refine forall₂_same.mpr fun i hi => ⟨rfl, fun k hin _ => absurd hi ?_, fun _ => rfl⟩
      rw [g.block_eq_of_size_le (Nat.le_of_not_lt fun hlt => hid ⟨hin, hlt⟩)]
      exact not_mem_nil
  · have hrefers := @refersTo_renumber g hg kept hnodup hmem
    refine dropUnusedConstants_eq_self (fun j hj => ?_) fun j hj => ?_
    · obtain ⟨k, -, hk⟩ := hrefers.mp hj
      exact hlength ▸ (List.getElem?_eq_some_iff.mp hk).1
    · obtain ⟨k, hk⟩ : ∃ k, kept[j]? = some k := ⟨_, getElem?_eq_getElem (hlength ▸ hj)⟩
      rcases ((hkept k).mp (mem_of_getElem? hk)).2 with rfl | href
      · exact .inl ((getElem?_inj (hlength ▸ hj) hnodup).mp (hk.trans hfirst.symm))
      · exact .inr (hrefers.mpr ⟨k, href, hk⟩)

/-- A graph that refers to the third of its constants only. -/
def constantGap : Graph :=
  ⟨#[{ instrs := [{ op := .real .loadConst, arg := 2 }, { op := .real .returnValue }] }], 0, 0, #[]⟩

theorem dropUnusedConstants_exact_constantGap : constantGap.order.Nodup ∧
    ∃ h, constantGap.dropUnusedConstants [.none, .bool true, .int 5] = .ok (h, [.none, .int 5]) ∧
      h.dropUnusedConstants [.none, .int 5] = .ok (h, [.none, .int 5]) := by
  have hg : constantGap.order.Nodup := by decide
  have hdrop : constantGap.dropUnusedConstants [.none, .bool true, .int 5] =
      .ok (constantGap.setInstrs 0 [{ op := .real .loadConst, arg := 1 },
        { op := .real .returnValue }], [.none, .int 5]) := rfl
  exact ⟨hg, _, hdrop, ((dropUnusedConstants_exact hg (by simp)).2 _ _ hdrop).2.2.2.2.2⟩

end Graph

end Bytecode
