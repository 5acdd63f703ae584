import Bytecode.Proofs.Lowering.Resolution
import Bytecode.Proofs.Optimizer.Drafts

/-!
# Graphs that say what their listings say

A graph is built from a listing element by element, and a label is bound to the block that comes
next, which may have no instruction yet. What is kept all along: before the block of a number stand
as many instructions as are listed before the first marker of the number.
-/

namespace Bytecode

open List

/-- The instruction that an element of a listing writes. A reference has the number for its
operand. -/
def ListingItem.instr? : ListingItem → Option Instr
  | .label _ => none
  | .instr op arg loc => some { op := op, arg := arg, loc := loc }

def listed (items : List ListingItem) : List Instr :=
  items.filterMap ListingItem.instr?

@[simp] theorem listed_append (items more : List ListingItem) :
    listed (items ++ more) = listed items ++ listed more :=
  filterMap_append

/-- The second instruction is the first one as it is written, but for a label. -/
def Instr.Written (i j : Instr) : Prop :=
  j.op = i.op ∧ j.loc = i.loc ∧ (i.op.hasTarget = false → j.arg = i.arg)

namespace Graph

variable {g r : Graph} {i j k : Instr} {id n : Nat} {items done : List ListingItem}

/-! ### Up to a block -/

/-- The instructions of the blocks before the given one, by number. -/
def upTo (g : Graph) (id : BlockId) : List Instr :=
  (range' 0 id).flatMap fun j => (g.block j).instrs

theorem upTo_succ (g : Graph) (id : Nat) : g.upTo (id + 1) = g.upTo id ++ (g.block id).instrs := by
  simp [upTo, range'_1_concat]

theorem upTo_congr (h : ∀ j < id, (r.block j).instrs = (g.block j).instrs) :
    r.upTo id = g.upTo id :=
  flatMap_congr fun j hj => h j (by simpa using mem_range'_1.mp hj)

theorem upTo_split (hid : id < g.blocks.size) (horder : g.order = range' 0 g.blocks.size) :
    g.order = range' 0 id ++ id :: range' (id + 1) (g.blocks.size - (id + 1)) := by
  have hsize : g.blocks.size = id + (g.blocks.size - (id + 1) + 1) := by omega
  rw [horder]
  conv_lhs => rw [hsize, ← range'_append_1, Nat.zero_add, range'_succ]

theorem Draft.upTo_resolveLabels (hg : g.Draft) (h : g.resolveLabels = .ok r)
    (hid : id ≤ g.blocks.size) :
    Forall₂ (fun i j => g.resolveInstr i = .ok j) (g.upTo id) (r.upTo id) := by
  obtain ⟨_, hinstrs, _⟩ := mapInstrsM_spec (hg.laysOut.order ▸ hg.laysOut.nodup) h
  rw [upTo, upTo, flatMap_def, flatMap_def]
  refine rel_flatten ?_
  rw [forall₂_map_left_iff, forall₂_map_right_iff, forall₂_same]
  intro (j : Nat) hj
  have hlt : j < g.blocks.size := by
    have hbounds := mem_range'_1.mp hj
    omega
  exact Result.mapM_eq_ok.mp (hinstrs j (hg.mem_order_iff.mpr hlt))

/-- The block of a number, if it has one, stands where the first marker of the number does. -/
def MarkedAt (g : Graph) (done : List ListingItem) (n : Nat) : Option BlockId → Prop
  | none => .label n ∉ done
  | some id => id < g.blocks.size ∧ ∃ before rest, done = before ++ .label n :: rest ∧
      .label n ∉ before ∧ (g.upTo id).length = (listed before).length

theorem MarkedAt.append {place : Option BlockId} (h : g.MarkedAt done n place)
    (hsize : g.blocks.size ≤ r.blocks.size) (hup : ∀ id < g.blocks.size, r.upTo id = g.upTo id)
    {more : List ListingItem} (hmore : place = none → .label n ∉ more) :
    r.MarkedAt (done ++ more) n place := by
  cases place with
  | none => exact mem_append.not.mpr (not_or.mpr ⟨h, hmore rfl⟩)
  | some id =>
    obtain ⟨hid, before, rest, rfl, hfirst, hlength⟩ := h
    refine ⟨Nat.lt_of_lt_of_le hid hsize, before, rest ++ more, by simp, hfirst, ?_⟩
    rw [hup id hid, hlength]

/-! ### Element by element -/

namespace Numbered

variable {b : Numbered} {number : Nat}

def place? (b : Numbered) (number : Nat) : Option BlockId :=
  (b.labels.lookup number).bind fun l => b.graph.labelBlock? l

/-- The second instruction is the first one as it is written, with a label for the number. -/
def Names (labels : List (Nat × Label)) (i j : Instr) : Prop :=
  j.op = i.op ∧ j.loc = i.loc ∧ j.target = none ∧
    if i.op.hasTarget then labels.lookup i.arg = some j.arg else j.arg = i.arg

/-- The graph says what the elements so far say. -/
structure Tracks (b : Numbered) (done : List ListingItem) : Prop where
  draft : b.graph.Draft
  valid : ∀ n l, b.labels.lookup n = some l → l < b.graph.labels.size
  inj : ∀ m n l, b.labels.lookup m = some l → b.labels.lookup n = some l → m = n
  code : Forall₂ (Names b.labels) (listed done) (b.graph.upTo b.graph.blocks.size)
  marked : ∀ n, b.graph.MarkedAt done n (b.place? n)

theorem Tracks.empty : ({} : Numbered).Tracks [] where
  draft := .empty
  valid n l h := by cases h
  inj m n l h := by cases h
  code := .nil
  marked n := not_mem_nil

/-- The table with a new label for a number. -/
def withLabel (b : Numbered) (number : Nat) : Numbered :=
  ⟨b.graph.addLabel.1, (number, b.graph.labels.size) :: b.labels⟩

theorem lookup_withLabel (b : Numbered) (number n : Nat) :
    (b.withLabel number).labels.lookup n =
      if n = number then some b.graph.labels.size else b.labels.lookup n := by
  rw [withLabel, lookup_cons]
  split_ifs with hn
  · simp [hn]
  · rw [beq_false_of_ne hn]

theorem place?_withLabel (hnone : b.labels.lookup number = none) (n : Nat) :
    (b.withLabel number).place? n = b.place? n := by
  have hsame : (b.withLabel number).graph.labelBlock? = b.graph.labelBlock? :=
    funext b.graph.labelBlock?_addLabel
  rw [place?, place?, lookup_withLabel, hsame]
  split_ifs with hn
  · rw [hn, hnone]
    show b.graph.labels[b.graph.labels.size]?.join = none
    simp
  · rfl

theorem Names.withLabel (hnone : b.labels.lookup number = none) (h : Names b.labels i j) :
    Names (b.withLabel number).labels i j := by
  obtain ⟨hop, hloc, htarget, harg⟩ := h
  refine ⟨hop, hloc, htarget, ?_⟩
  split_ifs at harg ⊢
  · have hne : i.arg ≠ number := by
      intro heq
      rw [heq, hnone] at harg
      cases harg
    rw [lookup_withLabel, if_neg hne, harg]
  · exact harg

theorem Tracks.withLabel (hb : b.Tracks done) (hnone : b.labels.lookup number = none) :
    (b.withLabel number).Tracks done where
  draft := hb.draft.addLabel
  valid n l hl := by
    have hsize : (b.withLabel number).graph.labels.size = b.graph.labels.size + 1 :=
      Array.size_push ..
    rw [lookup_withLabel] at hl
    rw [hsize]
    split_ifs at hl
    · cases hl
      exact Nat.lt_succ_self _
    · exact Nat.lt_succ_of_lt (hb.valid n l hl)
  inj m n l hm hn := by
    rw [lookup_withLabel] at hm hn
    split_ifs at hm hn with hm' hn' hn'
    · rw [hm', hn']
    · cases hm
      exact absurd (hb.valid n _ hn) (Nat.lt_irrefl _)
    · cases hn
      exact absurd (hb.valid m _ hm) (Nat.lt_irrefl _)
    · exact hb.inj m n l hm hn
  code := hb.code.imp fun _ _ => .withLabel hnone
  marked n := place?_withLabel hnone n ▸ hb.marked n

theorem Tracks.label (hb : b.Tracks done) (number : Nat) : (b.label number).1.Tracks done ∧
    (b.label number).1.labels.lookup number = some (b.label number).2 := by
  unfold Numbered.label
  split
  · rename_i l hl
    exact ⟨hb, hl⟩
  · rename_i hnone
    exact ⟨hb.withLabel hnone, lookup_cons_self⟩

/-- Elements that give no number a block. -/
theorem Tracks.grow (hb : b.Tracks done) (is : List Instr) {h : Graph} (hh : h.Draft)
    (hlabels : h.labels = b.graph.labels) (hsize : b.graph.blocks.size ≤ h.blocks.size)
    (hup : ∀ id < b.graph.blocks.size, h.upTo id = b.graph.upTo id) {more : List ListingItem}
    (hmore : ∀ n, b.place? n = none → .label n ∉ more)
    (his : h.upTo h.blocks.size = b.graph.upTo b.graph.blocks.size ++ is)
    (hnames : Forall₂ (Names b.labels) (listed more) is) :
    Tracks ⟨h, b.labels⟩ (done ++ more) where
  draft := hh
  valid := hlabels ▸ hb.valid
  inj := hb.inj
  code := by
    rw [his, listed_append]
    exact rel_append hb.code hnames
  marked n := by
    have hplace : place? ⟨h, b.labels⟩ n = b.place? n := by
      simp only [place?, labelBlock?, hlabels]
    rw [hplace]
    exact (hb.marked n).append hsize hup (hmore n)

theorem Tracks.appendBlock (hb : b.Tracks done) : Tracks ⟨b.graph.appendBlock, b.labels⟩ done := by
  have hsame (id : Nat) : b.graph.appendBlock.upTo id = b.graph.upTo id :=
    upTo_congr fun j _ => hb.draft.instrs_appendBlock j
  have hnew : (b.graph.block b.graph.blocks.size).instrs = [] := by
    rw [block_eq_of_size_le _ (Nat.le_refl _)]
  refine append_nil done ▸ hb.grow [] hb.draft.appendBlock rfl (by simp)
    (fun id _ => hsame id) (fun _ _ => not_mem_nil) ?_ .nil
  rw [hsame, size_appendBlock, upTo_succ, hnew]

/-- An instruction at the end of the last block, or of a new one. -/
theorem Tracks.addInstr (hb : b.Tracks done) {op : Operation} {arg : Nat} {loc : Location}
    (hi : i.target = none ∧ i.handler = none)
    (hnames : Names b.labels { op := op, arg := arg, loc := loc } i) :
    Tracks ⟨b.graph.addInstr i, b.labels⟩ (done ++ [.instr op arg loc]) := by
  have hextend (h : Graph) (hh : Tracks ⟨h, b.labels⟩ done)
      (hopen : (h.block h.current).isTerminated = false) :
      Tracks ⟨h.modify h.current fun b => { b with instrs := b.instrs ++ [i] }, b.labels⟩
        (done ++ [.instr op arg loc]) := by
    have hsize := hh.draft.size
    have hup (id : Nat) (hid : id < h.current + 1) :
        (h.modify h.current fun b => { b with instrs := b.instrs ++ [i] }).upTo id = h.upTo id := by
      refine upTo_congr fun j hj => ?_
      have hne : h.current ≠ j := Nat.ne_of_gt (Nat.lt_of_lt_of_le hj (Nat.le_of_lt_succ hid))
      rw [block_modify_of_ne _ _ hne]
    refine hh.grow [i] (hh.draft.extend hopen hi) rfl (by simp)
      (fun id hid => hup id (hsize ▸ hid)) (by simp) ?_ (.cons hnames .nil)
    rw [size_modify, hsize, upTo_succ, upTo_succ, hup _ (Nat.lt_succ_self _),
      block_modify_self _ _ hh.draft.current_lt, append_assoc]
  unfold Graph.addInstr
  split_ifs with hopen
  · refine hextend _ hb.appendBlock ?_
    show (b.graph.appendBlock.block b.graph.blocks.size).isTerminated = false
    rw [block_appendBlock _ hb.draft.size, if_pos rfl]
    rfl
  · exact hextend _ hb (by simpa using hopen)

/-- The first marker of a number, where the last block has no instruction yet. -/
theorem Tracks.nameCurrent {l : Label} (hb : b.Tracks done)
    (hl : b.labels.lookup number = some l) (hunbound : b.graph.labelBlock? l = none)
    (hempty : (b.graph.block b.graph.current).instrs = []) :
    Tracks ⟨b.graph.nameCurrent l, b.labels⟩ (done ++ [.label number]) := by
  have hlt := hb.valid number l hl
  have hsize : (b.graph.nameCurrent l).blocks.size = b.graph.blocks.size := size_modify ..
  have hup (id : Nat) : (b.graph.nameCurrent l).upTo id = b.graph.upTo id := by
    refine upTo_congr fun j _ => ?_
    rw [block_nameCurrent hb.draft.size]
    split_ifs <;> rfl
  refine ⟨hb.draft.nameCurrent hlt, fun n m hm => ?_, hb.inj, ?_, fun n => ?_⟩
  · have hlabels : (b.graph.nameCurrent l).labels.size = b.graph.labels.size :=
      Array.size_setIfInBounds ..
    exact hlabels ▸ hb.valid n m hm
  · have hnone : listed [.label number] = [] := rfl
    rw [hsize, hup, listed_append, hnone, append_nil]
    exact hb.code
  by_cases hn : n = number
  · have hplace : place? ⟨b.graph.nameCurrent l, b.labels⟩ n = some b.graph.current := by
      rw [place?, hn, hl, Option.bind_some, labelBlock?_nameCurrent hlt, if_pos rfl]
    have hfirst := hb.marked n
    rw [place?, hn, hl, Option.bind_some, hunbound] at hfirst
    rw [hplace, hn]
    refine ⟨hsize ▸ hb.draft.current_lt, done, [], rfl, hfirst, ?_⟩
    rw [hup, hb.code.length_eq, hb.draft.size, upTo_succ, hempty, append_nil]
  · have hplace : place? ⟨b.graph.nameCurrent l, b.labels⟩ n = b.place? n := by
      rw [place?, place?]
      cases hm : b.labels.lookup n with
      | none => rfl
      | some m =>
        have hne : m ≠ l := fun heq => hn (hb.inj n number l (heq ▸ hm) hl)
        rw [Option.bind_some, Option.bind_some, labelBlock?_nameCurrent hlt, if_neg hne]
    rw [hplace]
    exact (hb.marked n).append (Nat.le_of_eq hsize.symm) (fun id _ => hup id) (by simp [hn])

/-- A marker, whether the first of its number or not. -/
theorem Tracks.bindLabel {l : Label} (hb : b.Tracks done)
    (hl : b.labels.lookup number = some l) : ∃ h, b.graph.bindLabel l = .ok h ∧
      Tracks ⟨h, b.labels⟩ (done ++ [.label number]) := by
  have hlt := hb.valid number l hl
  obtain ⟨h, hh⟩ : ∃ h, b.graph.bindLabel l = .ok h := by
    unfold Graph.bindLabel
    rw [Array.getElem?_eq_getElem hlt]
    cases b.graph.labels[l] <;> exact ⟨_, rfl⟩
  refine ⟨h, hh, ?_⟩
  obtain ⟨rfl, id, hid⟩ | ⟨hnone, hnamed⟩ := bindLabel_eq_ok hh
  · refine hb.grow [] hb.draft rfl (Nat.le_refl _) (fun _ _ => rfl) (fun n hn => ?_)
      (append_nil _).symm .nil
    rintro hmem
    obtain rfl : n = number := by simpa using hmem
    rw [place?, hl, Option.bind_some, hid] at hn
    cases hn
  have hunbound : b.graph.labelBlock? l = none := by
    rw [labelBlock?, hnone]
    rfl
  obtain ⟨hempty, _, rfl⟩ | rfl := hnamed
  · exact hb.nameCurrent hl hunbound hempty
  · refine hb.appendBlock.nameCurrent hl hunbound ?_
    show (b.graph.appendBlock.block b.graph.blocks.size).instrs = []
    rw [block_appendBlock _ hb.draft.size, if_pos rfl]

theorem Tracks.add (hb : b.Tracks done) (item : ListingItem) :
    ∃ c, b.add item = .ok c ∧ c.Tracks (done ++ [item]) := by
  cases item with
  | label number =>
    obtain ⟨hb', hl⟩ := hb.label number
    obtain ⟨h, hh, htracks⟩ := hb'.bindLabel hl
    exact ⟨_, by simp only [Numbered.add, hh, Result.ok_bind, Result.pure_eq_ok], htracks⟩
  | instr op arg loc =>
    by_cases hop : op.hasTarget
    · obtain ⟨hb', hl⟩ := hb.label arg
      have hlt := hb'.valid arg _ hl
      refine ⟨_, ?_, hb'.addInstr (i := { op := op, arg := (b.label arg).2, loc := loc })
        ⟨rfl, rfl⟩ ⟨rfl, rfl, rfl, by simpa [hop] using hl⟩⟩
      simp [Numbered.add, hop, addJump, Nat.not_le.mpr hlt]
    · refine ⟨_, ?_, hb.addInstr (i := { op := op, arg := arg, loc := loc }) ⟨rfl, rfl⟩
        ⟨rfl, rfl, rfl, by simp [hop]⟩⟩
      simp [Numbered.add, hop, addOp]

theorem Tracks.addAll (hb : b.Tracks done) (items : List ListingItem) :
    ∃ c, items.foldlM Numbered.add b = .ok c ∧ c.Tracks (done ++ items) := by
  induction items generalizing b done with
  | nil => exact ⟨b, rfl, by simpa using hb⟩
  | cons item items ih =>
    obtain ⟨c, hc, htracks⟩ := hb.add item
    obtain ⟨d, hd, htracks'⟩ := ih htracks
    refine ⟨d, ?_, by simpa using htracks'⟩
    rw [foldlM_cons, hc]
    exact hd

/-! ### References resolved -/

/-- The second instruction is what the first one, as it is written, is resolved to. -/
def Settles (b : Numbered) (i k : Instr) : Prop :=
  i.Written k ∧ (i.op.hasTarget → ∃ t, b.place? i.arg = some t ∧ k.target = some t)

theorem Names.settles (h : Names b.labels i j) (hk : b.graph.resolveInstr j = .ok k) :
    b.Settles i k := by
  obtain ⟨hop, hloc, htarget, harg⟩ := h
  unfold resolveInstr at hk
  rw [hop, htarget] at hk
  split_ifs at harg with hrefers
  · simp only [hrefers, Option.isNone_none, Bool.and_self, if_true] at hk
    split at hk
    · rename_i t ht
      obtain rfl := Except.ok.inj hk
      exact ⟨⟨rfl, hloc, by simp [hrefers]⟩, fun _ => ⟨t, by rw [place?, harg]; exact ht, rfl⟩⟩
    · cases hk
  · rw [if_neg (by simp [hrefers])] at hk
    obtain rfl := Except.ok.inj hk
    exact ⟨⟨hop, hloc, fun _ => harg⟩, fun h => absurd h hrefers⟩

theorem Tracks.settles (hb : b.Tracks items) (hr : b.graph.resolveLabels = .ok r) :
    Forall₂ b.Settles (listed items) (r.upTo b.graph.blocks.size) :=
  Result.forall₂_trans hb.code (hb.draft.upTo_resolveLabels hr (Nat.le_refl _))
    fun _ _ _ => Names.settles

/-- Labels are resolved exactly if every number that is referred to has a marker. -/
theorem Tracks.resolves_iff (hb : b.Tracks items) : (∃ r, b.graph.resolveLabels = .ok r) ↔
    ∀ i ∈ listed items, i.op.hasTarget → .label i.arg ∈ items := by
  constructor
  · rintro ⟨r, hr⟩ i hi hop
    obtain ⟨k, _, _, hsettled⟩ :=
      Result.exists_of_mem_forall₂ ((hb.settles hr).flip (R := flip _)) hi
    obtain ⟨t, ht, _⟩ := hsettled hop
    have hmarked := hb.marked i.arg
    rw [ht] at hmarked
    obtain ⟨_, before, rest, rfl, _⟩ := hmarked
    simp
  · intro hall
    have hlaid := hb.draft.laysOut
    refine exists_foldlM_setInstrs (F := .resolveBy fun l => (b.graph.labelBlock? l).getD 0)
      (hlaid.order ▸ hlaid.nodup) fun id hid j hj => ?_
    have hmem : j ∈ b.graph.upTo b.graph.blocks.size :=
      mem_flatMap.mpr ⟨id, hlaid.order ▸ hid, hj⟩
    obtain ⟨i, hi, hop, _, htarget, harg⟩ := Result.exists_of_mem_forall₂ hb.code hmem
    refine resolveInstr_eq_resolveBy htarget fun hrefers hunbound => ?_
    rw [hop] at hrefers
    rw [if_pos hrefers] at harg
    have hmarked := hb.marked i.arg
    rw [place?, harg, Option.bind_some, hunbound] at hmarked
    exact hmarked (hall i hi hrefers)

end Numbered

/-- The graph says what the listing says: its instructions are those of the listing in order, its
blocks end where they should, and every reference to a number goes to the block with which what is
listed behind the first marker of the number begins. -/
structure Renders (g : Graph) (items : List ListingItem) : Prop where
  instrs : Forall₂ Instr.Written (listed items) g.body.flatten
  ended : g.WellEnded
  targets : ∀ (k : Nat) (i j : Instr), (listed items)[k]? = some i → g.body.flatten[k]? = some j →
    i.op.hasTarget → ∃ t pre post before rest, j.target = some t ∧
      g.order = pre ++ t :: post ∧ items = before ++ .label i.arg :: rest ∧
        .label i.arg ∉ before ∧
          Forall₂ Instr.Written (listed before) (pre.flatMap fun id => (g.block id).instrs) ∧
          Forall₂ Instr.Written (listed rest) ((t :: post).flatMap fun id => (g.block id).instrs)

theorem Numbered.Tracks.renders {b : Numbered} (hb : b.Tracks items)
    (hr : b.graph.resolveLabels = .ok r) : r.Renders items := by
  have hdraft := hb.draft
  have hlinks : SameLinks b.graph r :=
    (mapInstrsM_spec (hdraft.laysOut.order ▸ hdraft.laysOut.nodup) hr).1
  have horder : r.order = range' 0 r.blocks.size := by
    rw [hlinks.order, hdraft.laysOut.order, hlinks.size]
  have hbody : r.body.flatten = r.order.flatMap fun id => (r.block id).instrs := by
    rw [body, flatMap_def]
  have hsettles : Forall₂ b.Settles (listed items) r.body.flatten := by
    rw [hbody, hlinks.order, hdraft.laysOut.order]
    exact hb.settles hr
  have hwritten : Forall₂ Instr.Written (listed items) r.body.flatten :=
    hsettles.imp fun _ _ h => h.1
  refine ⟨hwritten, (hdraft.resolved hr).ended, fun k i j hi hj hop => ?_⟩
  obtain ⟨t, hplace, htarget⟩ := (Result.rel_of_getElem? hsettles hi hj).2 hop
  have hmarked := hb.marked i.arg
  rw [hplace] at hmarked
  obtain ⟨hlt, before, rest, rfl, hfirst, hlength⟩ := hmarked
  have hsplit := upTo_split (hlinks.size.symm ▸ hlt) horder
  -- before the block stand as many instructions as are listed before the marker
  have hbefore : (r.upTo t).length = (listed before).length :=
    (hdraft.upTo_resolveLabels hr (Nat.le_of_lt hlt)).length_eq.symm.trans hlength
  rw [hbody, hsplit, flatMap_append, listed_append] at hwritten
  refine ⟨t, _, _, before, rest, htarget, hsplit, rfl, hfirst, ?_, ?_⟩
  · have htake := forall₂_take_append _ (r.upTo t) _ hwritten
    rwa [take_left' hbefore.symm] at htake
  · have hdrop := forall₂_drop_append _ (r.upTo t) _ hwritten
    rwa [drop_left' hbefore.symm] at hdrop

/-- A listing makes a graph unless some jump or push refers to a number that has no marker, and the
graph says what the listing says. -/
theorem renders_ofItems (items : List ListingItem) :
    ((∃ e, ofItems items = .error e) ↔
      ∃ op number loc, .instr op number loc ∈ items ∧ op.hasTarget ∧ .label number ∉ items) ∧
    ∀ g, ofItems items = .ok g → g.Renders items := by
  obtain ⟨b, hb, htracks⟩ := Numbered.Tracks.empty.addAll items
  rw [nil_append] at htracks
  have hitems : ofItems items = b.graph.resolveLabels := by
    rw [ofItems, hb]
    rfl
  have hresolves := htracks.resolves_iff
  rw [hitems]
  refine ⟨⟨fun ⟨e, he⟩ => ?_, fun ⟨op, number, loc, hmem, hop, hnot⟩ => ?_⟩,
    fun g hg => htracks.renders hg⟩
  · by_contra hall
    obtain ⟨r, hr⟩ := hresolves.mpr fun i hi hop => by
      obtain ⟨item, hitem, hi⟩ := mem_filterMap.mp hi
      cases item with
      | label n => cases hi
      | instr op number loc =>
        obtain rfl := Option.some.inj hi
        by_contra hnot
        exact hall ⟨op, number, loc, hitem, hop, hnot⟩
    cases he.symm.trans hr
  · cases hr : b.graph.resolveLabels with
    | error e => exact ⟨e, rfl⟩
    | ok r => exact absurd (hresolves.mp ⟨r, hr⟩ _ (mem_filterMap.mpr ⟨_, hmem, rfl⟩) hop) hnot

/-- A jump forward to a place with two markers, of which one is repeated, and a push to the end. -/
def sharedPlace : List ListingItem :=
  [.pseudo .setupFinally 3 1, .pseudo .popJumpIfTrue 1 1, .real .loadName 0 2, .label 1, .label 2,
   .label 1, .pseudo .jump 2 3, .label 1, .label 3]

theorem renders_ofItems_sharedPlace : ∃ g, ofItems sharedPlace = .ok g ∧ g.Renders sharedPlace := by
  obtain ⟨g, hg⟩ := Result.exists_of_isOk (x := ofItems sharedPlace) (by decide +kernel)
  exact ⟨g, hg, (renders_ofItems sharedPlace).2 g hg⟩

end Graph

end Bytecode
