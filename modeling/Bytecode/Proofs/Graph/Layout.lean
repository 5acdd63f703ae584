import Bytecode.Proofs.Graph.Blocks
import Mathlib.Data.List.Perm.Subperm

/-!
# Layouts

A list of blocks is the layout of a graph if it starts at the entry, follows the links to their end,
and has no block twice. A graph is closed if nothing leads out of its layout, and every block that
an instruction makes a handler is marked as one.
-/

namespace Bytecode.Graph

open List

variable {g h : Graph} {ids mid : List BlockId} {z : BlockId}
variable {post pre : List BlockId} {next a id : BlockId}

/-- The given blocks are linked in this order, the last one to none. -/
def Linked (g : Graph) : List BlockId → Prop
  | [] => True
  | [id] => (g.block id).next = none
  | id :: next :: rest => (g.block id).next = some next ∧ g.Linked (next :: rest)

theorem Linked.congr (hg : g.Linked ids)
    (hnext : ∀ id ∈ ids, (h.block id).next = (g.block id).next) : h.Linked ids := by
  induction ids with
  | nil => trivial
  | cons id ids ih =>
    cases ids with
    | nil => exact (hnext id (by simp)).trans hg
    | cons next rest =>
      exact ⟨(hnext id (by simp)).trans hg.1, ih hg.2 fun j hj => hnext j (by simp [hj])⟩

theorem Linked.split (hg : g.Linked ids) (hid : id ∈ ids) (hnext : (g.block id).next = some next) :
    ∃ pre post, ids = pre ++ id :: next :: post := by
  induction ids with
  | nil => simp at hid
  | cons a ids ih =>
    cases ids with
    | nil =>
      obtain rfl : id = a := by simpa using hid
      rw [show (g.block id).next = none from hg] at hnext
      cases hnext
    | cons b rest =>
      rcases mem_cons.mp hid with rfl | hid
      · obtain rfl : b = next := Option.some.inj (hg.1.symm.trans hnext)
        exact ⟨[], rest, rfl⟩
      · obtain ⟨pre, post, heq⟩ := ih hg.2 hid
        exact ⟨a :: pre, post, by rw [heq, cons_append]⟩

theorem Linked.next_mem (hg : g.Linked ids) (hid : id ∈ ids)
    (hnext : (g.block id).next = some next) : next ∈ ids := by
  obtain ⟨pre, post, rfl⟩ := hg.split hid hnext
  simp

theorem Linked.next_of_append {b : BlockId} (hg : g.Linked (pre ++ a :: b :: post)) :
    (g.block a).next = some b := by
  induction pre with
  | nil => exact hg.1
  | cons c pre ih =>
    cases pre with
    | nil => exact hg.2.1
    | cons d pre => exact ih hg.2

theorem Linked.next_inj (hg : g.Linked ids) (hnodup : ids.Nodup) {b : BlockId} (ha : a ∈ ids)
    (hb : b ∈ ids) (hna : (g.block a).next = some next) (hnb : (g.block b).next = some next) :
    a = b := by
  obtain ⟨pre, post, rfl⟩ := hg.split ha hna
  obtain ⟨pre', post', heq⟩ := hg.split hb hnb
  have heq' : (pre ++ [a]) ++ next :: post = (pre' ++ [b]) ++ next :: post' := by simpa using heq
  have hnext : next ∉ pre ++ [a] ∧ next ∉ post := by
    simp only [nodup_append, nodup_cons, mem_cons] at hnodup
    simp only [mem_append, mem_singleton, not_or]
    obtain ⟨_, ⟨ha, hpost, _⟩, hdisj⟩ := hnodup
    exact ⟨⟨fun h => hdisj next h next (by simp) rfl, fun h => ha (by simp [h])⟩, hpost⟩
  obtain ⟨hpre, _, _⟩ := (append_cons_inj_of_notMem hnext.1 hnext.2).mp heq'
  exact append_singleton_inj.mp hpre |>.2

theorem Linked.of_append (hg : g.Linked (pre ++ post)) : g.Linked post := by
  induction pre with
  | nil => exact hg
  | cons a pre ih =>
    apply ih
    cases hrest : pre ++ post with
    | nil => trivial
    | cons b rest =>
      rw [cons_append, hrest] at hg
      exact hg.2

/-- What comes after a block of the layout can be replaced. -/
theorem Linked.replace {post' : List BlockId} (hg : g.Linked (pre ++ a :: post))
    (hpre : ∀ j ∈ pre, (h.block j).next = (g.block j).next) (hh : h.Linked (a :: post')) :
    h.Linked (pre ++ a :: post') := by
  induction pre with
  | nil => exact hh
  | cons b pre ih =>
    have hb := hpre b (by simp)
    have hrest := fun hg => ih hg fun j hj => hpre j (mem_cons_of_mem b hj)
    cases pre with
    | nil => exact ⟨hb.trans hg.1, hh⟩
    | cons c pre => exact ⟨hb.trans hg.1, hrest hg.2⟩

/-- The links lead from one block through the given ones to another. -/
def Passes (g : Graph) : BlockId → List BlockId → BlockId → Prop
  | a, [], z => (g.block a).next = some z
  | a, b :: mid, z => (g.block a).next = some b ∧ g.Passes b mid z

theorem Linked.passes (hg : g.Linked (pre ++ a :: (mid ++ z :: post))) : g.Passes a mid z := by
  induction mid generalizing pre a with
  | nil => exact hg.next_of_append
  | cons b mid ih =>
    have hrest : g.Linked ((pre ++ [a]) ++ b :: (mid ++ z :: post)) := by simpa using hg
    exact ⟨hg.next_of_append, ih hrest⟩

theorem Passes.exists_next {c : BlockId} (hg : g.Passes a mid z) (hc : c ∈ a :: mid) :
    ∃ f ∈ mid ++ [z], (g.block c).next = some f := by
  induction mid generalizing a with
  | nil =>
    obtain rfl : c = a := by simpa using hc
    exact ⟨z, by simp, hg⟩
  | cons b mid ih =>
    rcases mem_cons.mp hc with rfl | hc
    · exact ⟨b, by simp, hg.1⟩
    · obtain ⟨f, hf, hn⟩ := ih hg.2 hc
      exact ⟨f, by simp only [cons_append, mem_cons, hf, or_true], hn⟩

theorem Passes.exists_prev {f : BlockId} (hg : g.Passes a mid z) (hf : f ∈ mid ++ [z]) :
    ∃ c ∈ a :: mid, (g.block c).next = some f := by
  induction mid generalizing a with
  | nil =>
    obtain rfl : f = z := by simpa using hf
    exact ⟨a, by simp, hg⟩
  | cons b mid ih =>
    rcases mem_cons.mp hf with rfl | hf
    · exact ⟨a, by simp, hg.1⟩
    · obtain ⟨c, hc, hn⟩ := ih hg.2 hf
      exact ⟨c, mem_cons_of_mem a hc, hn⟩

theorem Linked.orderFrom {rest : List BlockId} {fuel : Nat} (hg : g.Linked (id :: rest))
    (hfuel : rest.length < fuel) :
    g.orderFrom fuel id = id :: rest := by
  induction rest generalizing id fuel with
  | nil =>
    obtain ⟨fuel, rfl⟩ := Nat.exists_eq_succ_of_ne_zero (Nat.ne_of_gt hfuel)
    rw [Graph.orderFrom, show (g.block id).next = none from hg]
  | cons next rest ih =>
    obtain ⟨fuel, rfl⟩ := Nat.exists_eq_succ_of_ne_zero (Nat.ne_of_gt (Nat.zero_lt_of_lt hfuel))
    rw [Graph.orderFrom, hg.1]
    simp only [List.cons.injEq, true_and]
    exact ih hg.2 (by simpa using hfuel)

/-- The given blocks are the layout of the graph, and it has an end. -/
structure LaysOut (g : Graph) (ids : List BlockId) : Prop where
  head : ids.head? = some g.entry
  linked : g.Linked ids
  nodup : ids.Nodup
  bound : ∀ id ∈ ids, id < g.blocks.size

namespace LaysOut

variable {ids : List BlockId}

variable (hg : g.LaysOut ids)
include hg

theorem length_le : ids.length ≤ g.blocks.size := by
  have hsub : ids ⊆ List.range g.blocks.size := fun id hid => mem_range.mpr (hg.bound id hid)
  simpa using (hg.nodup.subperm hsub).length_le

theorem order : g.order = ids := by
  cases ids with
  | nil => simpa using hg.head
  | cons id rest =>
    obtain rfl : id = g.entry := by simpa using hg.head
    exact hg.linked.orderFrom hg.length_le

theorem entry_mem : g.entry ∈ ids :=
  mem_of_mem_head? hg.head

theorem ne_size (hid : id ∈ ids) : id ≠ g.blocks.size :=
  Nat.ne_of_lt (hg.bound id hid)

theorem next_ne_entry (hid : id ∈ ids) (hnext : (g.block id).next = some next) :
    next ≠ g.entry := by
  rintro rfl
  obtain ⟨pre, post, rfl⟩ := hg.linked.split hid hnext
  have hhead := hg.head
  have hnodup := hg.nodup
  cases pre with
  | nil =>
    obtain rfl : id = g.entry := by simpa using hhead
    simp at hnodup
  | cons a pre =>
    obtain rfl : a = g.entry := by simpa using hhead
    simp at hnodup

theorem congr (hentry : h.entry = g.entry)
    (hnext : ∀ id ∈ ids, (h.block id).next = (g.block id).next)
    (hsize : g.blocks.size ≤ h.blocks.size) : h.LaysOut ids where
  head := hentry ▸ hg.head
  linked := hg.linked.congr hnext
  nodup := hg.nodup
  bound id hid := Nat.lt_of_lt_of_le (hg.bound id hid) hsize

theorem insert (hid : id ∈ ids) (hentry : h.entry = g.entry)
    (hsize : h.blocks.size = g.blocks.size + 1) (hlink : (h.block id).next = some g.blocks.size)
    (hnext : (h.block g.blocks.size).next = (g.block id).next)
    (hkeep : ∀ j ∈ ids, j ≠ id → (h.block j).next = (g.block j).next) :
    ∃ pre post, ids = pre ++ id :: post ∧ h.LaysOut (pre ++ id :: g.blocks.size :: post) := by
  obtain ⟨pre, post, rfl⟩ := append_of_mem hid
  have hnew : g.blocks.size ∉ pre ++ id :: post := fun hmem => Nat.lt_irrefl _ (hg.bound _ hmem)
  obtain ⟨_, hpost, hpre⟩ := nodup_append.mp hg.nodup
  refine ⟨pre, post, rfl, ?_, ?_, ?_, fun j hj => ?_⟩
  · rw [hentry, ← hg.head]
    cases pre <;> rfl
  · refine hg.linked.replace (fun j hj => hkeep j (by simp [hj]) (hpre j hj id (by simp))) ?_
    refine ⟨hlink, ?_⟩
    have htail := hg.linked.of_append
    cases post with
    | nil => exact hnext.trans htail
    | cons p post =>
      refine ⟨hnext.trans htail.1, htail.2.congr fun j hj => hkeep j ?_ ?_⟩
      · exact mem_append_right _ (mem_cons_of_mem _ hj)
      · rintro rfl
        exact (nodup_cons.mp hpost).1 hj
  · have hmiddle : ((pre ++ [id]) ++ g.blocks.size :: post).Perm
        (g.blocks.size :: ((pre ++ [id]) ++ post)) := perm_middle
    rw [append_assoc, append_assoc] at hmiddle
    exact hmiddle.nodup_iff.mpr (nodup_cons.mpr ⟨hnew, hg.nodup⟩)
  · rw [hsize]
    by_cases hj' : j = g.blocks.size
    · exact hj' ▸ Nat.lt_succ_self _
    · refine Nat.lt_succ_of_lt (hg.bound j ?_)
      simp only [mem_append, mem_cons] at hj ⊢
      tauto

end LaysOut

theorem SameLinks.laysOut (hs : SameLinks g h) (hg : g.LaysOut ids) : h.LaysOut ids :=
  hg.congr hs.entry (fun id _ => hs.next id) (Nat.le_of_eq hs.size.symm)

/-! ### Setting the layout -/

@[simp] theorem size_link (g : Graph) (ids : List BlockId) :
    (g.link ids).blocks.size = g.blocks.size := by
  fun_induction link g ids with
  | case1 => rfl
  | case2 => simp
  | case3 g id next rest ih => simp [ih]

theorem block_link (g : Graph) (ids : List BlockId) (id : BlockId) :
    ∃ n, (g.link ids).block id = { g.block id with next := n } ∧
      (id ∉ ids → n = (g.block id).next) := by
  fun_induction link g ids with
  | case1 => exact ⟨_, rfl, fun _ => rfl⟩
  | case2 g a =>
    rw [block_modify]
    split_ifs with ha
    · exact ⟨none, rfl, fun hid => by simp [ha.1] at hid⟩
    · exact ⟨_, rfl, fun _ => rfl⟩
  | case3 g a next rest ih =>
    obtain ⟨n, hn, hkeep⟩ := ih
    rw [block_modify] at hn hkeep
    refine ⟨n, ?_, fun hid => ?_⟩
    · rw [hn]
      split_ifs <;> rfl
    · obtain ⟨hne, hid⟩ : id ≠ a ∧ id ∉ next :: rest := by simpa using hid
      rw [hkeep hid, if_neg fun h => hne h.1.symm]

theorem linked_link (hnodup : ids.Nodup) (hbound : ∀ id ∈ ids, id < g.blocks.size) :
    (g.link ids).Linked ids := by
  fun_induction link g ids with
  | case1 => trivial
  | case2 g a =>
    show ((g.modify a _).block a).next = none
    rw [block_modify_self _ _ (hbound a (by simp))]
  | case3 g a next rest ih =>
    obtain ⟨ha, hnodup⟩ := nodup_cons.mp hnodup
    refine ⟨?_, ih hnodup fun id hid => by simpa using hbound id (mem_cons_of_mem _ hid)⟩
    obtain ⟨n, hn, hkeep⟩ := block_link (g.modify a fun b => { b with next := some next })
      (next :: rest) a
    rw [hn, hkeep ha, block_modify_self _ _ (hbound a (by simp))]

@[simp] theorem size_setLayout (g : Graph) (ids : List BlockId) :
    (g.setLayout ids).blocks.size = g.blocks.size :=
  g.size_link ids

theorem block_setLayout (g : Graph) (ids : List BlockId) (id : BlockId) :
    ∃ n, (g.setLayout ids).block id = { g.block id with next := n } :=
  (g.block_link ids id).imp fun _ hn => hn.1

theorem laysOut_setLayout (hids : ids ≠ []) (hnodup : ids.Nodup)
    (hbound : ∀ id ∈ ids, id < g.blocks.size) : (g.setLayout ids).LaysOut ids where
  head := by
    cases ids with
    | nil => exact absurd rfl hids
    | cons id rest => rfl
  linked := (linked_link hnodup hbound).congr fun _ _ => rfl
  nodup := hnodup
  bound := by simpa using hbound

/-! ### Closed graphs -/

/-- The instruction refers to a block of the layout, and to a handler if it opens one. -/
def Admits (g : Graph) (i : Instr) : Prop :=
  ∀ t, i.target = some t → t ∈ g.order ∧ (i.op.isBlockPush → (g.block t).isHandler)

theorem Admits.of_none {i : Instr} (hi : i.target = none) : g.Admits i := by
  intro t ht
  rw [hi] at ht
  cases ht

theorem Admits.congr {i j : Instr} (hi : g.Admits i) (htarget : j.target = i.target)
    (hpush : j.op.isBlockPush → i.op.isBlockPush) : g.Admits j := by
  intro t ht
  obtain ⟨hmem, hhandler⟩ := hi t (htarget ▸ ht)
  exact ⟨hmem, fun h => hhandler (hpush h)⟩

/-- The layout has an end, and nothing leads out of it. -/
structure Closed (g : Graph) : Prop where
  layout : g.LaysOut g.order
  admits : ∀ id ∈ g.order, ∀ i ∈ (g.block id).instrs, g.Admits i

namespace Closed

theorem of_laysOut (hids : g.LaysOut ids)
    (hg : ∀ id ∈ ids, ∀ i ∈ (g.block id).instrs, ∀ t, i.target = some t →
      t ∈ ids ∧ (i.op.isBlockPush → (g.block t).isHandler)) : g.Closed := by
  obtain rfl := hids.order
  exact ⟨hids, hg⟩

theorem next_mem (hg : g.Closed) (hid : id ∈ g.order) (hnext : (g.block id).next = some next) :
    next ∈ g.order :=
  hg.layout.linked.next_mem hid hnext

/-- A change of instructions that refers to no other blocks keeps a graph closed. -/
theorem rewrite (hg : g.Closed) (hlinks : SameLinks g h)
    (hflags : ∀ id, (g.block id).isHandler → (h.block id).isHandler)
    (hadmits : ∀ id ∈ g.order, ∀ i ∈ (h.block id).instrs, g.Admits i) : h.Closed where
  layout := hlinks.order.symm ▸ hlinks.laysOut hg.layout
  admits id hid i hi t ht := by
    rw [hlinks.order] at hid ⊢
    obtain ⟨hmem, hhandler⟩ := hadmits id hid i hi t ht
    exact ⟨hmem, fun hpush => hflags t (hhandler hpush)⟩

end Closed

end Bytecode.Graph
