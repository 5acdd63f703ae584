import Bytecode.Proofs.Machine.Renaming
import Bytecode.Proofs.Optimizer.Exits

/-!
# Empty blocks

An empty block is left out of the layout, and what refers to it refers to its landing instead: the
first block with instructions at or after it. The open handlers of the two programs differ by
landings as well.
-/

namespace Bytecode

open List Result Machine

variable {V W E : Type} {M : Machine V W E} {t b : BlockId} {i : Instr}

namespace Graph

variable {g h k : Graph} {id l : BlockId} {pre post order : List BlockId}

/-! ### Landings -/

theorem dropWhile_ne_eq (hid : id ∉ pre) : (pre ++ id :: post).dropWhile (· ≠ id) = id :: post := by
  have hpre : ∀ a ∈ pre, decide (a ≠ id) = true :=
    fun a ha => decide_eq_true fun he => hid (he ▸ ha)
  rw [dropWhile_append_of_pos hpre]
  simp

theorem landing?_eq (hid : id ∉ pre) :
    g.landing? (pre ++ id :: post) id = (id :: post).find? fun b => !(g.block b).isEmpty := by
  rw [landing?, dropWhile_ne_eq hid]

theorem landing?_spec (h : g.landing? order id = some l) :
    l ∈ order.filter fun b => !(g.block b).isEmpty := by
  have hmem := mem_of_find?_eq_some h
  have hne := find?_some h
  exact mem_filter.mpr ⟨(dropWhile_sublist _).mem hmem, hne⟩

theorem landing?_self (hid : id ∈ order) (hne : (g.block id).isEmpty = false) :
    g.landing? order id = some id := by
  obtain ⟨pre, post, rfl, hpre⟩ := eq_append_cons_of_mem hid
  rw [landing?_eq hpre]
  simp [hne]

/-! ### What dropping empty blocks does -/

/-- The second graph differs in flags at most, and keeps every handler. -/
structure KeepsHandlers (g h : Graph) : Prop where
  size : h.blocks.size = g.blocks.size
  entry : h.entry = g.entry
  instrs : ∀ id, (h.block id).instrs = (g.block id).instrs
  handler : ∀ id, (g.block id).isHandler → (h.block id).isHandler

theorem KeepsHandlers.trans (hg : g.KeepsHandlers h) (hh : h.KeepsHandlers k) : g.KeepsHandlers k :=
  ⟨hh.size.trans hg.size, hh.entry.trans hg.entry, fun id => (hh.instrs id).trans (hg.instrs id),
    fun id hid => hh.handler id (hg.handler id hid)⟩

theorem KeepsHandlers.refl (g : Graph) : g.KeepsHandlers g :=
  ⟨rfl, rfl, fun _ => rfl, fun _ hid => hid⟩

/-- Makes the landing of an empty handler a handler, and keeps every other. -/
theorem inheritHandler_spec (g h : Graph) (order : List BlockId) (id : BlockId) :
    h.KeepsHandlers (g.inheritHandler order h id) ∧ ∀ l, (g.block id).isEmpty →
      (g.block id).isHandler → g.landing? order id = some l → l < h.blocks.size →
        ((g.inheritHandler order h id).block l).isHandler := by
  unfold inheritHandler
  dsimp only
  cases g.landing? order id with
  | none => exact ⟨.refl h, nofun⟩
  | some landing =>
    dsimp only
    split_ifs with hflag
    · refine ⟨⟨by simp, rfl, fun j => ?_, fun j hj => ?_⟩, fun l _ _ hl hlt => ?_⟩
      · rw [block_modify]
        split_ifs <;> rfl
      · rw [block_modify]
        split_ifs
        exacts [rfl, hj]
      · rw [Option.some.inj hl, block_modify_self _ _ hlt]
    · refine ⟨.refl h, fun l hempty hhandler => ?_⟩
      exact absurd (by simp [hempty, hhandler]) hflag

/-- The landings of empty handlers are handlers, and every handler stays one. -/
theorem foldl_inheritHandler_spec (g : Graph) (order ids : List BlockId) (h : Graph) :
    h.KeepsHandlers (ids.foldl (g.inheritHandler order) h) ∧ ∀ id ∈ ids, ∀ l,
      (g.block id).isEmpty → (g.block id).isHandler → g.landing? order id = some l →
        l < h.blocks.size → ((ids.foldl (g.inheritHandler order) h).block l).isHandler := by
  induction ids generalizing h with
  | nil => exact ⟨.refl h, by simp⟩
  | cons id ids ih =>
    obtain ⟨hfirst, hland⟩ := g.inheritHandler_spec h order id
    obtain ⟨hrest, hlands⟩ := ih (g.inheritHandler order h id)
    refine ⟨hfirst.trans hrest, fun j hj l hempty hhandler hl hlt => ?_⟩
    rcases mem_cons.mp hj with rfl | hj
    · exact hrest.handler l (hland l hempty hhandler hl hlt)
    · exact hlands j hj l hempty hhandler hl (by rw [hfirst.size]; exact hlt)

def LandsAs (g : Graph) (i j : Instr) : Prop :=
  j.op = i.op ∧ j.arg = i.arg ∧ (i.target = none → j.target = none) ∧
    ∀ t, i.target = some t → ∃ l, g.landing? g.order t = some l ∧ j.target = some l

theorem landsAs_of_landInstr {j : Instr} (h : g.landInstr g.order i = .ok j) : g.LandsAs i j := by
  unfold landInstr at h
  dsimp only at h
  obtain ⟨target, htarget, h⟩ := bind_eq_ok.mp h
  obtain ⟨handler, _, h⟩ := bind_eq_ok.mp h
  obtain rfl := Except.ok.inj h
  refine ⟨rfl, rfl, fun hnone => ?_, fun t ht => ?_⟩
  · rw [hnone] at htarget
    exact (Except.ok.inj htarget).symm
  · rw [ht] at htarget
    obtain ⟨l, hl, htarget⟩ := bind_eq_ok.mp htarget
    exact ⟨l, Result.require_eq_ok.mp hl, (Except.ok.inj htarget).symm⟩

/-- What is left when the empty blocks are gone. -/
structure DropsEmpty (g h : Graph) : Prop where
  layout : h.LaysOut g.live
  instrs : ∀ id ∈ g.live, Forall₂ g.LandsAs (g.block id).instrs (h.block id).instrs
  handler : ∀ id ∈ g.order, ∀ l, (g.block id).isHandler → g.landing? g.order id = some l →
    (h.block l).isHandler

/-- The cases of dropping the empty blocks: there is none, or nothing else, or the landings take
over. -/
theorem dropEmpty_cases (hg : g.Closed) (h : g.dropEmpty = .ok k) :
    k = g ∧ (g.live = [] ∨ g.live = g.order) ∨
      k.LaysOut g.live ∧
      (∀ id ∈ g.live, (g.block id).instrs.mapM (g.landInstr g.order) = .ok (k.block id).instrs) ∧
      ∀ id ∈ g.order, ∀ l, (g.block id).isHandler → g.landing? g.order id = some l →
        (k.block l).isHandler := by
  unfold dropEmpty at h
  split_ifs at h with htrivial
  · refine .inl ⟨(Except.ok.inj h).symm, htrivial.imp List.isEmpty_iff.mp fun hlength => ?_⟩
    exact filter_eq_self.mpr (length_filter_eq_length_iff.mp hlength)
  right
  rw [not_or] at htrivial
  have hlive : g.live ≠ [] := fun he => htrivial.1 (List.isEmpty_iff.mpr he)
  obtain ⟨hkeep, hland⟩ := g.foldl_inheritHandler_spec g.order g.order g
  change g.KeepsHandlers (g.inheritHandlers g.order) at hkeep
  have hlaysOut : ((g.inheritHandlers g.order).setLayout g.live).LaysOut g.live := by
    refine laysOut_setLayout hlive (hg.layout.nodup.filter _) fun id hid => ?_
    rw [hkeep.size]
    exact hg.layout.bound id (mem_of_mem_filter hid)
  have hframes := SameFrames.mapInstrsM h
  obtain ⟨hlinks, hinstrs, _⟩ := mapInstrsM_spec (by rw [hlaysOut.order]; exact hlaysOut.nodup) h
  rw [hlaysOut.order] at hinstrs
  refine ⟨hlinks.laysOut hlaysOut, fun id hid => ?_, fun id hid l hhandler hl => ?_⟩
  · obtain ⟨n, hblock⟩ := (g.inheritHandlers g.order).block_setLayout g.live id
    have hmap := hinstrs id hid
    rw [hblock] at hmap
    simpa only [hkeep.instrs] using hmap
  · have hlmem := landing?_spec hl
    have hlt := hg.layout.bound l (mem_of_mem_filter hlmem)
    obtain ⟨n, hblock⟩ := (g.inheritHandlers g.order).block_setLayout g.live l
    rw [hframes l, hblock]
    show ((g.inheritHandlers g.order).block l).isHandler
    cases hempty : (g.block id).isEmpty with
    | true => exact hland id hid l hempty hhandler hl hlt
    | false =>
      rw [landing?_self hid hempty] at hl
      exact Option.some.inj hl ▸ hkeep.handler id hhandler

theorem dropEmpty_spec (hg : g.Closed) (h : g.dropEmpty = .ok k) : k = g ∨ g.DropsEmpty k := by
  rcases dropEmpty_cases hg h with ⟨rfl, _⟩ | ⟨hlayout, hinstrs, hhandler⟩
  · exact .inl rfl
  · refine .inr ⟨hlayout, fun id hid => ?_, hhandler⟩
    exact (mapM_eq_ok.mp (hinstrs id hid)).imp fun _ _ => landsAs_of_landInstr

theorem mem_live : id ∈ g.live ↔ id ∈ g.order ∧ (g.block id).instrs ≠ [] := by
  simp [live, Block.isEmpty]

theorem mem_live_of_instrs (hid : id ∈ g.order) (hi : i ∈ (g.block id).instrs) : id ∈ g.live :=
  mem_live.mpr ⟨hid, ne_nil_of_mem hi⟩

namespace DropsEmpty

variable (hd : g.DropsEmpty h)
include hd

theorem landing_isSome (hid : id ∈ g.order) (hi : i ∈ (g.block id).instrs)
    (ht : i.target = some t) : ∃ l, g.landing? g.order t = some l := by
  obtain ⟨k, hk, rfl⟩ := getElem_of_mem hi
  have hall := hd.instrs id (mem_live_of_instrs hid hi)
  have hk' : k < (h.block id).instrs.length := hall.length_eq ▸ hk
  obtain ⟨l, hl, _⟩ := ((forall₂_iff_get.mp hall).2 k hk hk').2.2.2 t ht
  exact ⟨l, hl⟩

theorem closed (hg : g.Closed) : h.Closed := by
  refine .of_laysOut hd.layout fun id hid j hj t ht => ?_
  obtain ⟨i, hi, hop, _, hnone, hsome⟩ := exists_of_mem_forall₂ (hd.instrs id hid) hj
  have hmem := (mem_live.mp hid).1
  cases htarget : i.target with
  | none =>
    rw [hnone htarget] at ht
    cases ht
  | some t' =>
    obtain ⟨l, hl, hjl⟩ := hsome t' htarget
    obtain rfl : l = t := Option.some.inj (hjl.symm.trans ht)
    obtain ⟨ht', hpush⟩ := hg.admits id hmem i hi t' htarget
    exact ⟨landing?_spec hl, fun h => hd.handler t' ht' l (hpush (hop ▸ h)) hl⟩

theorem wellEnded (hg : g.WellEnded) : h.WellEnded := by
  intro id hid
  rw [hd.layout.order] at hid
  have hall := hd.instrs id hid
  intro j hj
  rw [dropLast_eq_take] at hj
  have htake := forall₂_take ((h.block id).instrs.length - 1) hall
  obtain ⟨i, hi, hop, _⟩ := exists_of_mem_forall₂ htake hj
  rw [← hall.length_eq, ← dropLast_eq_take] at hi
  rw [hop]
  exact hg id (mem_live.mp hid).1 i hi

theorem next (hg : g.Closed) {n : BlockId} (hb : b ∈ g.live) (hn : (g.block b).next = some n)
    (hl : g.landing? g.order n = some l) : (h.block b).next = some l := by
  obtain ⟨pre, post, horder⟩ := hg.layout.linked.split (mem_live.mp hb).1 hn
  have hnot : n ∉ pre ++ [b] := by
    have hnodup := hg.layout.nodup
    rw [horder, show pre ++ b :: n :: post = (pre ++ [b]) ++ n :: post by simp] at hnodup
    exact fun hmem => (nodup_append.mp hnodup).2.2 n hmem n (by simp) rfl
  rw [horder, show pre ++ b :: n :: post = (pre ++ [b]) ++ n :: post by simp, landing?_eq hnot,
    ← head?_filter] at hl
  obtain ⟨rest, hrest⟩ := head?_eq_some_iff.mp hl
  have hlive : g.live = pre.filter (fun id => !(g.block id).isEmpty) ++ b :: l :: rest := by
    have hbp : (!(g.block b).isEmpty) = true := (mem_filter.mp hb).2
    rw [live, horder, filter_append, filter_cons, if_pos hbp, hrest]
  exact (hlive ▸ hd.layout.linked).next_of_append

theorem landing_entry (hg : g.Closed) : g.landing? g.order g.entry = some h.entry := by
  obtain ⟨rest, horder⟩ := head?_eq_some_iff.mp hg.layout.head
  rw [horder, ← nil_append (g.entry :: rest), landing?_eq (by simp), ← horder, ← head?_filter]
  exact hd.layout.head

end DropsEmpty

end Graph

/-- A run goes through empty blocks to the first one with instructions, or off the end. -/
theorem Machine.walk_empty {p : Program} {a : BlockId} {rest : List BlockId}
    (hlinked : p.graph.Linked (a :: rest)) (s : State V W E) :
    match (a :: rest).find? fun b => !(p.graph.block b).isEmpty with
    | some b => ∃ k, (M.step p)^[k] (.running a s) = .running b s
    | none => ∃ k, (M.step p)^[k] (.running a s) = .wrong := by
  induction rest generalizing a with
  | nil =>
    cases hempty : (p.graph.block a).isEmpty with
    | false =>
      simp only [find?_cons, hempty, Bool.not_false]
      exact ⟨0, rfl⟩
    | true =>
      simp only [find?_cons, hempty, Bool.not_true, find?_nil]
      refine ⟨1, ?_⟩
      simp only [Function.iterate_one, step, hop, Program.instrs,
        List.isEmpty_iff.mp hempty, run_nil, Step.follow,
        show (p.graph.block a).next = none from hlinked]
  | cons b rest ih =>
    cases hempty : (p.graph.block a).isEmpty with
    | false =>
      simp only [find?_cons, hempty, Bool.not_false]
      exact ⟨0, rfl⟩
    | true =>
      have hhop : M.step p (.running a s) = .running b s := by
        simp only [step, hop, Program.instrs, List.isEmpty_iff.mp hempty,
          run_nil, Step.follow, hlinked.1]
      have hrest := ih hlinked.2
      rw [find?_cons, hempty, Bool.not_true]
      dsimp only
      split at hrest
      all_goals
        rename_i heq
        rw [heq]
        obtain ⟨k, hk⟩ := hrest
        exact ⟨k + 1, by rw [Function.iterate_succ_apply, hhop, hk]⟩

namespace Graph

variable {g h : Graph} {s : State V W E}

theorem Closed.walk_landing (hg : g.Closed) {a : BlockId} (ha : a ∈ g.order) (cs : List Constant)
    (s : State V W E) :
    match g.landing? g.order a with
    | some b => ∃ k, (M.step ⟨g, cs⟩)^[k] (.running a s) = .running b s
    | none => ∃ k, (M.step ⟨g, cs⟩)^[k] (.running a s) = .wrong := by
  obtain ⟨pre, post, horder, hpre⟩ := eq_append_cons_of_mem ha
  have hlinked := hg.layout.linked
  rw [horder] at hlinked ⊢
  rw [landing?_eq hpre]
  exact M.walk_empty (p := ⟨g, cs⟩) hlinked.of_append s

/-- Where a run that comes to a block lands; the block itself if it lands nowhere. -/
def land (g : Graph) (id : BlockId) : BlockId :=
  (g.landing? g.order id).getD id

theorem land_eq {l : BlockId} (hl : g.landing? g.order t = some l) : g.land t = l := by
  rw [land, hl, Option.getD_some]

theorem LandsAs.mimics {j : Instr} (hij : g.LandsAs i j) : M.Mimics (i.rename g.land) j := by
  obtain ⟨hop, harg, hnone, hsome⟩ := hij
  refine .of_eq hop harg ?_
  rw [Instr.target_rename]
  cases ht : i.target with
  | none => exact hnone ht
  | some t =>
    obtain ⟨l, hl, hj⟩ := hsome t ht
    rw [hj, Option.map_some, land_eq hl]

theorem DropsEmpty.run_eq (hd : g.DropsEmpty h) (hb : b ∈ g.live) (cs : List Constant)
    (s : State V W E) :
    M.run cs (h.block b).instrs (s.rename g.land) =
      (M.run cs (g.block b).instrs s).rename g.land := by
  have hmimics : Forall₂ M.Mimics ((g.block b).instrs.map (·.rename g.land)) (h.block b).instrs :=
    forall₂_map_left_iff.mpr ((hd.instrs b hb).imp fun _ _ => LandsAs.mimics)
  rw [M.run_of_mimics hmimics, M.run_rename]

/-- A run that comes to the block goes on from some block with instructions. -/
def Lands (g : Graph) (id : BlockId) : Prop :=
  id ∈ g.order ∧ ∃ l, g.landing? g.order id = some l

/-- Open handlers lead to blocks that land somewhere. -/
theorem DropsEmpty.stays (hd : g.DropsEmpty h) (hg : g.Closed) :
    g.Stays (· ∈ g.order) g.Lands where
  entry := hg.layout.entry_mem
  handler _ ht := ht.1
  push _ hid i hi _ t ht := ⟨(hg.admits _ hid i hi t ht).1, hd.landing_isSome hid hi ht⟩
  jump _ hid i hi _ t ht := (hg.admits _ hid i hi t ht).1
  fall _ hid _ _ hn := hg.next_mem hid hn

/-- The second place is where the first lands, and so are the handlers. -/
structure Landed (g : Graph) (a : BlockId) (s : State V W E) (b : BlockId) (t : State V W E) :
    Prop where
  mem : a ∈ g.order
  handlers : ∀ o ∈ s.handlers, g.Lands o.target
  landing : g.landing? g.order a = some b
  state : t = s.rename g.land

theorem Lands.landed (ht : g.Lands t) (hs : ∀ o ∈ s.handlers, g.Lands o.target) :
    g.Landed t s (g.land t) (s.rename g.land) := by
  obtain ⟨hmem, l, hl⟩ := ht
  exact ⟨hmem, hs, land_eq hl ▸ hl, rfl⟩

theorem DropsEmpty.landed_entry (hd : g.DropsEmpty h) (hg : g.Closed) (hs : s.handlers = []) :
    g.Landed g.entry s h.entry s := by
  refine ⟨hg.layout.entry_mem, by simp [hs], hd.landing_entry hg, ?_⟩
  rw [State.rename, hs]
  exact congrArg (fun hs => { s with handlers := hs }) hs

/-- Control leaves a block of the first program as it leaves that of the second, except that it may
go through empty blocks. -/
theorem DropsEmpty.meet (hd : g.DropsEmpty h) (hg : g.Closed) (cs : List Constant) (hb : b ∈ g.live)
    (hs : ∀ o ∈ s.handlers, g.Lands o.target) :
    ∃ n, Agree g.Landed ((M.step ⟨g, cs⟩)^[n] (M.hop ⟨g, cs⟩ b s))
      (M.hop ⟨h, cs⟩ b (s.rename g.land)) := by
  have hborder := (mem_live.mp hb).1
  have hleaves := M.run_leaves cs ((hd.stays hg).push b hborder) hs
  simp only [hop, Program.instrs]
  rw [hd.run_eq hb cs s]
  generalize M.run cs (g.block b).instrs s = out at hleaves
  cases hleaves with
  | leap hi _ ht hs' =>
    have hlands : g.Lands _ :=
      ⟨(hg.admits b hborder _ hi _ ht).1, hd.landing_isSome hborder hi ht⟩
    exact ⟨0, hlands.landed hs'⟩
  | raise ht hs' => exact ⟨0, ht.landed hs'⟩
  | done e => exact ⟨0, rfl⟩
  | wrong => exact ⟨0, trivial⟩
  | @next s' _ hs' =>
    cases hnext : (g.block b).next with
    | none => exact ⟨0, trivial⟩
    | some n =>
      have hn := hg.next_mem hborder hnext
      have hwalk := hg.walk_landing (M := M) hn cs s'
      cases hland : g.landing? g.order n with
      | some l =>
        rw [hd.next hg hb hnext hland]
        exact ⟨0, hn, hs', hland, rfl⟩
      | none =>
        -- Nothing but empty blocks is left, and the run falls off the end.
        rw [hland] at hwalk
        obtain ⟨k, hk⟩ := hwalk
        refine ⟨k, ?_⟩
        simp only [Step.follow]
        rw [hk]
        trivial

/-- The runs go through the same blocks with instructions. -/
theorem DropsEmpty.preserves (hd : g.DropsEmpty h) (hg : g.Closed) (cs : List Constant) :
    M.Preserves ⟨g, cs⟩ ⟨h, cs⟩ := by
  refine M.preserves_of_meet g.Landed (fun s hs => hd.landed_entry hg hs) ?_ ?_
  · rintro a s b _ ⟨_, _, _, rfl⟩
    rfl
  · rintro a s b _ ⟨ha, hs, hb, rfl⟩
    have hwalk := hg.walk_landing (M := M) ha cs s
    rw [hb] at hwalk
    obtain ⟨k, hk⟩ := hwalk
    obtain ⟨n, hmeet⟩ := hd.meet (M := M) hg cs (landing?_spec hb) hs
    refine ⟨n + k, 0, ?_⟩
    rw [Nat.add_right_comm, Nat.add_assoc, Nat.add_comm 1 k, Function.iterate_add_apply,
      Function.iterate_succ_apply', hk]
    exact hmeet

end Graph

theorem preserves_dropEmpty {g h : Graph} (hg : g.Closed) (hdrop : g.dropEmpty = .ok h)
    (cs : List Constant) : M.Preserves ⟨g, cs⟩ ⟨h, cs⟩ := by
  obtain rfl | hd := Graph.dropEmpty_spec hg hdrop
  · exact .refl M _
  · exact hd.preserves hg cs

theorem Graph.Closed.dropEmpty {g h : Graph} (hg : g.Closed) (hdrop : g.dropEmpty = .ok h) :
    h.Closed := by
  obtain rfl | hd := dropEmpty_spec hg hdrop
  · exact hg
  · exact hd.closed hg

theorem Graph.WellEnded.dropEmpty {g h : Graph} (hg : g.WellEnded) (hc : g.Closed)
    (hdrop : g.dropEmpty = .ok h) : h.WellEnded := by
  obtain rfl | hd := dropEmpty_spec hc hdrop
  · exact hg
  · exact hd.wellEnded hg

end Bytecode
