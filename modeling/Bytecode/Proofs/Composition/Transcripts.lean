import Bytecode.Proofs.Composition.Generators
import Bytecode.Proofs.Graph.Chain

/-!
# Transcripts

The transcript of a graph under construction: its instructions one after the other, with a label
where its block begins. What is put together from primitives only adds to the end of the transcript,
and gives a place only to labels that it has made.
-/

namespace Bytecode

open List

inductive Entry where
  | label (l : Label)
  | instr (i : Instr)
deriving DecidableEq

def Entry.label? : Entry → Option Label
  | label l => some l
  | instr _ => none

def placed (code : List Entry) : List Label :=
  code.filterMap Entry.label?

@[simp] theorem placed_nil : placed [] = [] := rfl

@[simp] theorem placed_append (code more : List Entry) :
    placed (code ++ more) = placed code ++ placed more :=
  filterMap_append ..

@[simp] theorem placed_label (l : Label) : placed [.label l] = [l] := rfl

@[simp] theorem placed_instr (i : Instr) : placed [.instr i] = [] := rfl

namespace Graph

variable {g h : Graph} {l : Label}

def entriesOf (b : Block) : List Entry :=
  b.label.toList.map .label ++ b.instrs.map .instr

def entriesBefore (g : Graph) (id : BlockId) : List Entry :=
  (range id).flatMap fun id => entriesOf (g.block id)

def entries (g : Graph) : List Entry :=
  g.entriesBefore g.blocks.size

theorem entriesBefore_succ (g : Graph) (id : Nat) :
    g.entriesBefore (id + 1) = g.entriesBefore id ++ entriesOf (g.block id) := by
  unfold entriesBefore
  rw [range_succ, flatMap_append, flatMap_singleton]

theorem entriesBefore_congr {id : Nat}
    (hblocks : ∀ b < id, entriesOf (h.block b) = entriesOf (g.block b)) :
    h.entriesBefore id = g.entriesBefore id := by
  unfold entriesBefore
  rw [flatMap_def, flatMap_def]
  exact congrArg flatten (map_congr_left fun b hb => hblocks b (mem_range.mp hb))

section

variable (hg : g.Chained)
include hg

theorem entries_modify {f : Block → Block} {code : List Entry}
    (hf : entriesOf (f (g.block g.current)) = entriesOf (g.block g.current) ++ code) :
    (g.modify g.current f).entries = g.entries ++ code := by
  have hlast : entriesOf ((g.modify g.current f).block g.current) =
      entriesOf (g.block g.current) ++ code := by
    rw [block_modify, if_pos ⟨rfl, hg.current_lt⟩, hf]
  unfold entries
  rw [size_modify, hg.size, entriesBefore_succ, entriesBefore_succ, hlast, ← append_assoc]
  congr 2
  refine entriesBefore_congr fun b hb => ?_
  rw [block_modify, if_neg fun hc => Nat.lt_irrefl _ (hc.1 ▸ hb)]

theorem entries_appendBlock : g.appendBlock.entries = g.entries := by
  unfold entries
  rw [size_appendBlock, entriesBefore_succ, block_appendBlock g hg.size, if_pos rfl]
  refine (append_nil _).trans (entriesBefore_congr fun b hb => ?_)
  rw [block_appendBlock g hg.size, if_neg (Nat.ne_of_lt hb)]
  split <;> rfl

theorem entries_addInstr (i : Instr) : (g.addInstr i).entries = g.entries ++ [.instr i] := by
  have hextend : ∀ {h : Graph}, h.Chained →
      (h.modify h.current fun b => { b with instrs := b.instrs ++ [i] }).entries =
        h.entries ++ [.instr i] := by
    intro h hh
    refine entries_modify hh ?_
    simp [entriesOf]
  unfold addInstr
  split
  · rw [← entries_appendBlock hg]
    exact hextend hg.appendBlock
  · exact hextend hg

theorem entries_nameCurrent (hempty : (g.block g.current).instrs = [])
    (hunnamed : (g.block g.current).label = none) :
    (g.nameCurrent l).entries = g.entries ++ [.label l] := by
  have hnamed : (g.nameCurrent l).entries =
      (g.modify g.current fun b => { b with label := some l }).entries := rfl
  rw [hnamed]
  refine entries_modify hg ?_
  simp [entriesOf, hempty, hunnamed]

/-- A label that has no place yet gets it at the end of the transcript. -/
theorem entries_bindLabel (hl : g.labels[l]? = some none) (h' : g.bindLabel l = .ok h) :
    h.entries = g.entries ++ [.label l] := by
  obtain ⟨-, id, hbound⟩ | ⟨-, ⟨hempty, hunnamed, rfl⟩ | rfl⟩ := bindLabel_eq_ok h'
  · rw [labelBlock?, hl] at hbound
    cases hbound
  · exact entries_nameCurrent hg hempty hunnamed
  · have hnew := block_appendBlock g hg.size g.blocks.size
    rw [if_pos rfl] at hnew
    rw [entries_nameCurrent hg.appendBlock (congrArg Block.instrs hnew)
      (congrArg Block.label hnew), entries_appendBlock hg]

theorem Chained.addInstr (i : Instr) : (g.addInstr i).Chained := by
  unfold Graph.addInstr
  split
  · exact hg.appendBlock.modify _ fun _ => rfl
  · exact hg.modify _ fun _ => rfl

theorem Chained.bindLabel (h' : g.bindLabel l = .ok h) : h.Chained := by
  obtain ⟨rfl, -⟩ | ⟨-, ⟨-, -, rfl⟩ | rfl⟩ := bindLabel_eq_ok h'
  · exact hg
  · exact hg.nameCurrent l
  · exact hg.appendBlock.nameCurrent l

end

/-! ### Places of labels -/

/-- The label is known, and has no place yet. -/
def Waits (g : Graph) (l : Label) : Prop :=
  g.labels[l]? = some none

def HasPlace (g : Graph) (l : Label) : Prop :=
  ∃ id, g.labels[l]? = some (some id)

theorem Waits.not_hasPlace (hl : g.Waits l) : ¬g.HasPlace l := by
  rintro ⟨id, hid⟩
  cases hl.symm.trans hid

theorem waits_or_hasPlace (hl : l < g.labels.size) : g.Waits l ∨ g.HasPlace l := by
  unfold Waits HasPlace
  rw [Array.getElem?_eq_getElem hl]
  cases g.labels[l] with
  | none => exact .inl rfl
  | some id => exact .inr ⟨id, rfl⟩

theorem Waits.lt (hl : g.Waits l) : l < g.labels.size :=
  label_lt_of_getElem? hl

theorem waits_addInstr {i : Instr} (l : Label) : (g.addInstr i).Waits l ↔ g.Waits l := by
  unfold Waits
  rw [labels_addInstr]

theorem getElem?_labels_addLabel (g : Graph) (m : Label) :
    g.addLabel.1.labels[m]? = if m = g.labels.size then some none else g.labels[m]? :=
  Array.getElem?_push

/-- Once a label is bound it has a place, and no other label gets or loses one. -/
theorem labels_bindLabel (h' : g.bindLabel l = .ok h) :
    h.labels.size = g.labels.size ∧ h.HasPlace l ∧ ∀ m, m ≠ l → h.labels[m]? = g.labels[m]? := by
  have hname : ∀ k : Graph, k.labels = g.labels → g.labels[l]? = some none →
      (k.nameCurrent l).labels.size = g.labels.size ∧ (k.nameCurrent l).HasPlace l ∧
        ∀ m, m ≠ l → (k.nameCurrent l).labels[m]? = g.labels[m]? := by
    intro k hk hl
    have hlt := label_lt_of_getElem? hl
    have hlabels : (k.nameCurrent l).labels = g.labels.setIfInBounds l (some k.current) :=
      congrArg (·.setIfInBounds l (some k.current)) hk
    unfold HasPlace
    rw [hlabels]
    refine ⟨Array.size_setIfInBounds, ⟨k.current, ?_⟩, fun m hm => ?_⟩
    · rw [Array.getElem?_setIfInBounds, if_pos rfl, if_pos hlt]
    · rw [Array.getElem?_setIfInBounds, if_neg (Ne.symm hm)]
  obtain ⟨rfl, id, hbound⟩ | ⟨hl, ⟨-, -, rfl⟩ | rfl⟩ := bindLabel_eq_ok h'
  · refine ⟨rfl, ⟨id, ?_⟩, fun _ _ => rfl⟩
    simpa [labelBlock?, Option.join_eq_some_iff] using hbound
  · exact hname g rfl hl
  · exact hname g.appendBlock rfl hl

end Graph

/-! ### Units that grow -/

/-- The unit has grown by the given entries. Its labels stay, and those in the entries have got
their places. -/
structure UnitState.Extends (t t' : UnitState) (code : List Entry) : Prop where
  entries : t'.graph.entries = t.graph.entries ++ code
  chained : t'.graph.Chained
  constants : t.constants <+: t'.constants
  size : t.graph.labels.size ≤ t'.graph.labels.size
  placed : ∀ l ∈ placed code, t'.graph.HasPlace l
  fresh : ∀ l ∈ Bytecode.placed code, ¬t.graph.HasPlace l
  stays : ∀ l, t.graph.HasPlace l → t'.graph.HasPlace l

namespace UnitState.Extends

variable {t t' t'' : UnitState} {code more : List Entry} {g : Graph} {l : Label}

theorem trans (h : t.Extends t' code) (h' : t'.Extends t'' more) :
    t.Extends t'' (code ++ more) where
  entries := by rw [h'.entries, h.entries, append_assoc]
  chained := h'.chained
  constants := h.constants.trans h'.constants
  size := Nat.le_trans h.size h'.size
  placed l hl := by
    rw [placed_append] at hl
    rcases mem_append.mp hl with hl | hl
    · exact h'.stays l (h.placed l hl)
    · exact h'.placed l hl
  fresh l hl := by
    rw [placed_append] at hl
    rcases mem_append.mp hl with hl | hl
    · exact h.fresh l hl
    · exact fun hplace => h'.fresh l hl (h.stays l hplace)
  stays l hl := h'.stays l (h.stays l hl)

theorem widen (ht : t.graph.Chained) (hgraph : t'.graph = t.graph)
    (hconstants : t.constants <+: t'.constants) : t.Extends t' [] where
  entries := by rw [hgraph, append_nil]
  chained := hgraph ▸ ht
  constants := hconstants
  size := hgraph ▸ Nat.le_refl _
  placed l hl := by cases hl
  fresh l hl := by cases hl
  stays l hl := hgraph ▸ hl

theorem refl (ht : t.graph.Chained) : t.Extends t [] :=
  widen ht rfl (prefix_refl _)

theorem addInstr (ht : t.graph.Chained) (i : Instr) :
    t.Extends { t with graph := t.graph.addInstr i } [.instr i] where
  entries := Graph.entries_addInstr ht i
  chained := ht.addInstr i
  constants := prefix_refl _
  size := Nat.le_of_eq (congrArg Array.size (Graph.labels_addInstr t.graph i).symm)
  placed l hl := by cases hl
  fresh l hl := by cases hl
  stays l hl := by
    show (t.graph.addInstr i).HasPlace l
    unfold Graph.HasPlace
    rwa [Graph.labels_addInstr]

theorem addLabel (ht : t.graph.Chained) :
    t.Extends { t with graph := t.graph.addLabel.1 } [] where
  entries := (append_nil _).symm
  chained := ⟨ht.entry, ht.size, ht.next⟩
  constants := prefix_refl _
  size := by
    show _ ≤ (t.graph.labels.push none).size
    rw [Array.size_push]
    exact Nat.le_succ _
  placed l hl := by cases hl
  fresh l hl := by cases hl
  stays l := by
    rintro ⟨id, hid⟩
    refine ⟨id, ?_⟩
    show t.graph.addLabel.1.labels[l]? = _
    rw [Graph.getElem?_labels_addLabel, if_neg (Nat.ne_of_lt (Graph.label_lt_of_getElem? hid)), hid]

theorem bindLabel (ht : t.graph.Chained) (hg : t.graph.bindLabel l = .ok g) :
    ∃ code, t.Extends { t with graph := g } code ∧ (t.graph.Waits l → code = [.label l]) := by
  obtain ⟨hsize, hplace, hsame⟩ := Graph.labels_bindLabel hg
  have hstays : ∀ m, t.graph.HasPlace m → g.HasPlace m := by
    intro m hm
    by_cases hml : m = l
    · exact hml ▸ hplace
    · unfold Graph.HasPlace
      rwa [hsame m hml]
  by_cases hl : t.graph.Waits l
  · refine ⟨[.label l], ⟨Graph.entries_bindLabel ht hl hg, ht.bindLabel hg, prefix_refl _,
      Nat.le_of_eq hsize.symm, fun m hm => ?_, fun m hm => ?_, hstays⟩, fun _ => rfl⟩
    · rw [placed_label] at hm
      exact mem_singleton.mp hm ▸ hplace
    · rw [placed_label] at hm
      exact mem_singleton.mp hm ▸ hl.not_hasPlace
  · refine ⟨[], ?_, fun hwaits => absurd hwaits hl⟩
    obtain ⟨rfl, -⟩ | ⟨hwaits, -⟩ := Graph.bindLabel_eq_ok hg
    · exact .refl ht
    · exact absurd hwaits hl

end UnitState.Extends

def GenState.addInstr (s : GenState) (i : Instr) : GenState :=
  { s with unit := { s.unit with graph := s.unit.graph.addInstr i } }

namespace Gen

variable {α β : Type} {c : GenContext} {n : Nat} {m : Gen α} {f : α → Gen β} {post : α → Prop}
  {post' : β → Prop} {name : String} {loc : Location} {op : Opcode} {l : Label}

theorem addOp_eq_ok {op : Operation} {arg : Nat} {s s' : GenState} {a : Unit}
    (h : editGraph (·.addOp op arg loc) c s = .ok (a, s')) :
    s' = s.addInstr { op := op, arg := arg, loc := loc } := by
  rw [editGraph_apply] at h
  obtain ⟨g, hg, hret⟩ := Result.bind_eq_ok.mp h
  cases hret
  unfold Graph.addOp at hg
  split at hg <;> cases hg
  rfl

theorem emitJump_eq_ok {op : Operation} {s s' : GenState} {a : Unit}
    (h : emitJump op l loc c s = .ok (a, s')) :
    s' = s.addInstr { op := op, arg := l, loc := loc } := by
  rw [emitJump, editGraph_apply] at h
  obtain ⟨g, hg, hret⟩ := Result.bind_eq_ok.mp h
  cases hret
  unfold Graph.addJump at hg
  split at hg
  · cases hg
  · split at hg <;> cases hg
    rfl

/-- Every run adds to the end of the transcript. Of the first `n` labels, none gets a place that has
none. -/
def Grows (c : GenContext) (n : Nat) (m : Gen α) (post : α → Prop) : Prop :=
  ∀ s a s', s.unit.graph.Chained → n ≤ s.unit.graph.labels.size → m c s = .ok (a, s') →
    post a ∧ ∃ code, s.unit.Extends s'.unit code ∧
      ∀ l < n, s.unit.graph.Waits l → s'.unit.graph.Waits l

namespace Grows

theorem still (h : ∀ s a s', m c s = .ok (a, s') →
    post a ∧ s'.unit.graph = s.unit.graph ∧ s.unit.constants <+: s'.unit.constants := by
      intro s a s' hrun
      cases hrun
      exact ⟨trivial, rfl, prefix_refl _⟩) :
    Grows c n m post := by
  intro s a s' hs _ hrun
  obtain ⟨ha, hgraph, hconstants⟩ := h s a s' hrun
  exact ⟨ha, [], .widen hs hgraph hconstants, fun l _ hl => hgraph ▸ hl⟩

theorem pure {a : α} (h : post a) : Grows c n (Pure.pure a) post :=
  .still fun s b s' hrun => by
    cases hrun
    exact ⟨h, rfl, prefix_refl _⟩

theorem bind {mid : α → Prop} (hm : Grows c n m mid)
    (hf : ∀ a, mid a → Grows c n (f a) post') : Grows c n (m >>= f) post' := by
  intro s b s' hs hn hrun
  obtain ⟨a, t, hrun₁, hrun₂⟩ := bind_eq_ok.mp hrun
  obtain ⟨ha, code, hext, hwaits⟩ := hm s a t hs hn hrun₁
  obtain ⟨hb, more, hext', hwaits'⟩ :=
    hf a ha t b s' hext.chained (Nat.le_trans hn hext.size) hrun₂
  exact ⟨hb, code ++ more, hext.trans hext', fun l hl h => hwaits' l hl (hwaits l hl h)⟩

theorem weaken {post' : α → Prop} (hm : Grows c n m post) (h : ∀ a, post a → post' a) :
    Grows c n m post' := by
  intro s a s' hs hn hrun
  obtain ⟨ha, hext⟩ := hm s a s' hs hn hrun
  exact ⟨h a ha, hext⟩

theorem stop (h : ∀ s, ∃ e, m c s = .error e) : Grows c n m post := by
  intro s a s' _ _ hrun
  obtain ⟨e, he⟩ := h s
  cases he.symm.trans hrun

theorem ask {g : GenContext → α} : Grows c n (read >>= fun c => Pure.pure (g c)) fun a => a = g c :=
  .still fun s a s' hrun => by
    cases hrun
    exact ⟨rfl, rfl, prefix_refl _⟩

theorem info : Grows c n Gen.info fun u => u = c.unit :=
  ask

theorem kind : Grows c n Gen.kind fun k => k = c.unit.kind :=
  ask

theorem mangled : Grows c n (Gen.mangled name) fun full => full = mangle c.unit.className name :=
  ask

theorem constantIndex {k : Constant} : Grows c n (Gen.constantIndex k) fun _ => True :=
  .still fun s a s' hrun => by
    cases hrun
    exact ⟨trivial, rfl, (intern_spec _ _).1⟩

theorem nameIndex : Grows c n (Gen.nameIndex name) fun _ => True :=
  .still

theorem localIndex : Grows c n (Gen.localIndex name) fun _ => True :=
  .still

theorem cellIndex : Grows c n (Gen.cellIndex name) fun _ => True := by
  refine .bind .info fun u _ => ?_
  split
  · exact .pure trivial
  · exact .stop fun s => ⟨_, rfl⟩

theorem addOp {op : Operation} {arg : Nat} :
    Grows c n (editGraph (·.addOp op arg loc)) fun _ => True := by
  intro s a s' hs _ hrun
  obtain rfl := addOp_eq_ok hrun
  exact ⟨trivial, _, .addInstr hs _, fun l _ hl => (Graph.waits_addInstr l).mpr hl⟩

theorem emitJump {op : Operation} : Grows c n (Gen.emitJump op l loc) fun _ => True := by
  intro s a s' hs _ hrun
  obtain rfl := emitJump_eq_ok hrun
  exact ⟨trivial, _, .addInstr hs _, fun l _ hl => (Graph.waits_addInstr l).mpr hl⟩

theorem newLabel : Grows c n Gen.newLabel fun l => n ≤ l := by
  intro s l s' hs hn hrun
  cases hrun
  refine ⟨hn, _, .addLabel hs, fun m hm hwaits => ?_⟩
  exact (Graph.getElem?_labels_addLabel _ _).trans
    ((if_neg (Nat.ne_of_lt (Nat.lt_of_lt_of_le hm hn))).trans hwaits)

theorem bindLabel (h : n ≤ l) : Grows c n (Gen.bindLabel l) fun _ => True := by
  intro s a s' hs _ hrun
  rw [Gen.bindLabel, editGraph_apply] at hrun
  obtain ⟨g, hg, hret⟩ := Result.bind_eq_ok.mp hrun
  cases hret
  obtain ⟨code, hext, -⟩ := UnitState.Extends.bindLabel hs hg
  refine ⟨trivial, code, hext, fun m hm hwaits => ?_⟩
  exact ((Graph.labels_bindLabel hg).2.2 m (Nat.ne_of_lt (Nat.lt_of_lt_of_le hm h))).trans hwaits

theorem emitName : Grows c n (Gen.emitName op name loc) fun _ => True :=
  .bind .nameIndex fun _ _ => .addOp

theorem loadName : Grows c n (Gen.loadName name loc) fun _ => True := by
  unfold Gen.loadName
  split
  · exact .bind .ask fun _ _ => .bind .constantIndex fun _ _ => .addOp
  · refine .bind .mangled fun full _ => .bind .info fun u _ => ?_
    split
    · exact .bind .localIndex fun _ _ => .addOp
    · exact .bind .nameIndex fun _ _ => .addOp
    · refine .bind .kind fun k _ => ?_
      dsimp only
      split <;> exact .bind .cellIndex fun _ _ => .addOp
    · exact .emitName

theorem changeName {use : TargetUse} : Grows c n (Gen.changeName use name loc) fun _ => True := by
  unfold Gen.changeName
  split
  · exact .stop fun s => ⟨_, rfl⟩
  · refine .bind .mangled fun full _ => .bind .info fun u _ => ?_
    split
    · exact .bind .localIndex fun _ _ => .addOp
    · exact .emitName
    · exact .bind .cellIndex fun _ _ => .addOp
    · exact .emitName

theorem warn {caution : Caution} : Grows c n (Gen.warn caution loc) fun _ => True :=
  .still fun s a s' hrun => by
    obtain ⟨_, _, hread, hrun⟩ := bind_eq_ok.mp hrun
    cases hread
    split at hrun <;> cases hrun
    exact ⟨trivial, rfl, prefix_refl _⟩

theorem inUnit {u : UnitInfo} {body : Gen Unit} : Grows c n (Gen.inUnit u body) fun _ => True :=
  .still fun s a s' hrun => by
    rw [inUnit_apply] at hrun
    obtain ⟨⟨code, t⟩, -, hret⟩ := Result.bind_eq_ok.mp hrun
    cases hret
    exact ⟨trivial, rfl, prefix_refl _⟩

end Grows

/-- What is put together from the primitives adds to the end of the transcript, and binds only
labels of its own. -/
theorem Composed.grows {scopes : ScopeViews} {here : Spot} (h : m.Composed (.free scopes) here post)
    (howns : ∀ l, here.owns l ↔ n ≤ l) (hc : here.Met scopes c) : Grows c n m post := by
  induction h generalizing c n with
  | pure h => exact .pure h
  | bind _ _ ihm ihf => exact .bind (ihm howns hc) fun a ha => ihf a ha howns hc
  | weaken _ h ih => exact (ih howns hc).weaken h
  | fault | exceed | refuse => exact .stop fun s => ⟨_, rfl⟩
  | warn => exact .warn
  | ask => exact Grows.ask.weaken fun a ha => ⟨c, hc.unit, ha⟩
  | newLabel => exact Grows.newLabel.weaken fun l => (howns l).mpr
  | bindLabel h => exact .bindLabel ((howns _).mp h)
  | emit | emitPseudo | loadArgument => exact .addOp
  | emitJump => exact .emitJump
  | constantIndex => exact .constantIndex
  | nameIndex => exact .nameIndex
  | cellIndex => exact .cellIndex
  | loadName => exact .loadName
  | changeName => exact .changeName
  | childUnit hclass =>
    refine .still fun s u s' hrun => ?_
    obtain ⟨rfl, hu⟩ := childUnit_eq_ok hc hclass hrun
    exact ⟨hu, rfl, prefix_refl _⟩
  | inUnit => exact .inUnit
  | addCode => exact .still

end Gen

end Bytecode
