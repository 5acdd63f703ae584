import Bytecode.Proofs.Locals.Certificates
import Bytecode.Proofs.Optimizer.Drafts

/-!
# Handlers along paths

Where all paths to a block agree on the open handlers, the walk finds the handlers that are open on
every path, and so the labelled graph has a certificate.
-/

namespace Bytecode

open List Prod

namespace Graph

variable {g h k : Graph} {id t : BlockId} {S : HandlerStack} {i : Instr} {is : List Instr}
  {B : BlockId → Prop} {table : BlockId → HandlerStack} {walk : BlockWalk}

/-- A path from the entry comes to these instructions of a block, with these handlers open. The
handler that an instruction opens is entered with those around it. -/
inductive Opens (g : Graph) : BlockId → List Instr → HandlerStack → Prop where
  | entry : g.Opens g.entry (g.block g.entry).instrs []
  | next {id : BlockId} {i : Instr} {is : List Instr} {S : HandlerStack}
      (h : g.Opens id (i :: is) S) (hfall : i.op.fallsThrough) : g.Opens id is (i.handlersAfter S)
  | refer {id t : BlockId} {i : Instr} {is : List Instr} {S : HandlerStack}
      (h : g.Opens id (i :: is) S) (ht : i.target = some t) : g.Opens t (g.block t).instrs S
  | fall {id n : BlockId} {S : HandlerStack} (h : g.Opens id [] S)
      (hn : (g.block id).next = some n) : g.Opens n (g.block n).instrs S

def handlersAlong (S : HandlerStack) (is : List Instr) : HandlerStack :=
  is.foldl (fun S i => i.handlersAfter S) S

/-- All paths to a block agree on the handlers that are open there. -/
def Steady (g : Graph) : Prop :=
  ∀ id S S', g.Opens id (g.block id).instrs S → g.Opens id (g.block id).instrs S' → S = S'

/-- No path runs off the end of the last block. -/
def Ends (g : Graph) : Prop :=
  ∀ id S, g.Opens id [] S → (g.block id).next ≠ none

namespace Opens

/-- Where a path stands in a block, it has come from the start of the block, and fallen through
what is before. -/
theorem exists_entry (h : g.Opens id is S) : ∃ pre S₀, (g.block id).instrs = pre ++ is ∧
    (∀ i ∈ pre, i.op.fallsThrough) ∧ g.Opens id (g.block id).instrs S₀ ∧
      S = handlersAlong S₀ pre := by
  induction h with
  | entry => exact ⟨[], [], rfl, by simp, .entry, rfl⟩
  | @next id i is S _ hfall ih =>
    obtain ⟨pre, S₀, hpre, hfalls, hentry, rfl⟩ := ih
    exact ⟨pre ++ [i], S₀, by simp [hpre], forall_mem_append.mpr ⟨hfalls, by simpa using hfall⟩,
      hentry, by simp [handlersAlong]⟩
  | refer h ht => exact ⟨[], _, rfl, by simp, h.refer ht, rfl⟩
  | fall h hn => exact ⟨[], _, rfl, by simp, h.fall hn, rfl⟩

theorem mem_instrs (h : g.Opens id (i :: is) S) : i ∈ (g.block id).instrs := by
  obtain ⟨pre, -, hpre, -⟩ := h.exists_entry
  simp [hpre]

theorem fallsThrough (h : g.Opens id [] S) : (g.block id).fallsThrough := by
  obtain ⟨pre, -, hpre, hfalls, -⟩ := h.exists_entry
  rw [Block.fallsThrough, Block.last?, hpre, append_nil, Option.all_eq_true]
  exact fun i hi => hfalls i (mem_of_getLast? hi)

theorem reaches (h : g.Opens id is S) : Reaches g.successors [g.entry] id := by
  induction h with
  | entry => exact .root (mem_singleton.mpr rfl)
  | next _ _ ih => exact ih
  | refer h ht ih => exact ih.step (mem_successors.mpr (.inl ⟨_, h.mem_instrs, ht⟩))
  | fall h hn ih => exact ih.step (mem_successors.mpr (.inr ⟨h.fallsThrough, hn⟩))

theorem mem_order (h : g.Opens id is S) (hg : g.Resolved) : id ∈ g.order :=
  hg.wired.within.inside h.reaches

/-- A handler that is open has been entered into the stack by a path that may enter it too. -/
theorem of_mem (h : g.Opens id is S) (ht : t ∈ S) : ∃ S', g.Opens t (g.block t).instrs S' := by
  induction h generalizing t with
  | entry => cases ht
  | @next id i is S h _ ih =>
    exact Instr.forall_mem_handlersAfter (P := fun t => ∃ S', g.Opens t (g.block t).instrs S')
      (fun t ht => ih ht) (fun t ht => ⟨S, h.refer ht⟩) t ht
  | refer _ _ ih => exact ih ht
  | fall _ _ ih => exact ih ht

end Opens

/-- Every path stays in the graph. The blocks on it end where they should, and their instructions
have a target if their operation asks for one. -/
structure Walkable (g : Graph) : Prop where
  bound : ∀ id is S, g.Opens id is S → id < g.blocks.size
  ended : ∀ id is S, g.Opens id is S → TerminatorsLast (g.block id).instrs
  refers : ∀ id i is S, g.Opens id (i :: is) S → i.target.isSome = i.op.hasTarget

theorem Resolved.walkable (hg : g.Resolved) : g.Walkable where
  bound _ _ _ h := hg.layout.bound _ (h.mem_order hg)
  ended _ _ _ h := hg.ended _ (h.mem_order hg)
  refers _ _ _ _ h := (hg.sites _ (h.mem_order hg) _ h.mem_instrs).refers

theorem Opens.congr (hlinks : g.SameLinks h)
    (hinstrs : ∀ id, (h.block id).instrs = (g.block id).instrs) (hg : h.Opens id is S) :
    g.Opens id is S := by
  induction hg with
  | entry =>
    rw [hinstrs, hlinks.entry]
    exact .entry
  | next _ hfall ih => exact ih.next hfall
  | refer _ ht ih =>
    rw [hinstrs]
    exact ih.refer ht
  | fall _ hn ih =>
    rw [hinstrs]
    exact ih.fall (hlinks.next _ ▸ hn)

theorem Steady.congr (hg : g.Steady) (hlinks : g.SameLinks h)
    (hinstrs : ∀ id, (h.block id).instrs = (g.block id).instrs) : h.Steady := by
  intro id S S' hS hS'
  have hS := hS.congr hlinks hinstrs
  have hS' := hS'.congr hlinks hinstrs
  rw [hinstrs] at hS hS'
  exact hg id S S' hS hS'

theorem Ends.congr (hg : g.Ends) (hlinks : g.SameLinks h)
    (hinstrs : ∀ id, (h.block id).instrs = (g.block id).instrs) : h.Ends := by
  intro id S hS
  rw [hlinks.next]
  exact hg id S (hS.congr hlinks hinstrs)

/-! ### Checks of the two conditions -/

/-- Whether the handlers that are open at the end of these instructions and at the blocks that they
refer to are those that a table has for them. -/
def agree (g : Graph) (table : BlockId → HandlerStack) (id : BlockId) :
    HandlerStack → List Instr → Bool
  | S, [] => (g.block id).next.all fun n => table n = S
  | S, i :: is => i.target.all (fun t => table t = S) &&
      (!i.op.fallsThrough || g.agree table id (i.handlersAfter S) is)

def handlersAgree (g : Graph) (table : BlockId → HandlerStack) : Bool :=
  table g.entry = [] &&
    (range g.blocks.size).all fun id => g.agree table id (table id) (g.block id).instrs

theorem Opens.agree (h : g.Opens id is S) (hg : g.Within B) (htable : g.handlersAgree table) :
    g.agree table id S is ∧ (is = (g.block id).instrs → S = table id) := by
  obtain ⟨hentry, hall⟩ : table g.entry = [] ∧
      ∀ id < g.blocks.size, g.agree table id (table id) (g.block id).instrs := by
    simpa [handlersAgree] using htable
  have hstart : ∀ {t S}, g.Opens t (g.block t).instrs S → table t = S →
      g.agree table t S (g.block t).instrs ∧
        ((g.block t).instrs = (g.block t).instrs → S = table t) := by
    rintro t _ ht rfl
    exact ⟨hall t (hg.reaching.bound t ht.reaches), fun _ => rfl⟩
  induction h with
  | entry => exact hstart .entry hentry
  | @next id i is S h hfall ih =>
    have hagree := ih.1
    rw [Graph.agree, Bool.and_eq_true, hfall, Bool.not_true, Bool.false_or] at hagree
    refine ⟨hagree.2, fun heq => ?_⟩
    obtain ⟨pre, -, hpre, -⟩ := h.exists_entry
    have hlength := congrArg List.length (heq.trans hpre)
    rw [length_append, length_cons] at hlength
    omega
  | refer h ht ih =>
    have hagree := ih.1
    rw [Graph.agree, Bool.and_eq_true, ht] at hagree
    exact hstart (h.refer ht) (by simpa using hagree.1)
  | fall h hn ih =>
    have hagree := ih.1
    rw [Graph.agree, hn] at hagree
    exact hstart (h.fall hn) (by simpa using hagree)

theorem Within.steady_of_agree (hg : g.Within B) (htable : g.handlersAgree table) : g.Steady := by
  intro id S S' hS hS'
  exact ((hS.agree hg htable).2 rfl).trans ((hS'.agree hg htable).2 rfl).symm

/-- Whether control falls through no block that has none after it. -/
def stops (g : Graph) : Bool :=
  (range g.blocks.size).all fun id => (g.block id).next.isSome || !(g.block id).fallsThrough

theorem Within.ends_of_stops (hg : g.Within B) (h : g.stops) : g.Ends := by
  intro id S hS hnone
  have hid := all_eq_true.mp h id (mem_range.mpr (hg.reaching.bound id hS.reaches))
  rw [hnone, hS.fallsThrough] at hid
  cases hid

/-! ### The walk -/

theorem Opens.found (h : g.Opens id is S) (hends : TerminatorsLast is)
    (hwalk : walkInstrs S is = .ok walk) :
    (∀ x ∈ walk.found, g.Opens x.1 (g.block x.1).instrs x.2) ∧
      ((∀ i ∈ is, i.op.fallsThrough) → g.Opens id [] walk.stack) := by
  induction is generalizing S walk with
  | nil =>
    cases hwalk
    exact ⟨by simp, fun _ => h⟩
  | cons i is ih =>
    obtain ⟨rest, j, hrest, _, _, _, hstack, hfound⟩ := walkInstrs_cons hwalk
    obtain ⟨hnot, hends⟩ := terminatorsLast_cons.mp hends
    have hnext : i.op.fallsThrough → (∀ x ∈ rest.found, g.Opens x.1 (g.block x.1).instrs x.2) ∧
        ((∀ i ∈ is, i.op.fallsThrough) → g.Opens id [] rest.stack) :=
      fun hfall => ih (h.next hfall) hends hrest
    have hlater : ∀ x ∈ rest.found, g.Opens x.1 (g.block x.1).instrs x.2 := by
      cases is with
      | nil =>
        cases hrest
        simp
      | cons => exact (hnext (Operation.fallsThrough_of_isTerminator (hnot (by simp)))).1
    constructor
    · rcases hfound with ⟨_, hfound⟩ | ⟨t, _, ht, hfound⟩ <;> rw [hfound]
      · exact hlater
      · exact forall_mem_cons.mpr ⟨h.refer ht, hlater⟩
    · intro hfalls
      obtain ⟨hi, hfalls⟩ := forall_mem_cons.mp hfalls
      exact hstack ▸ (hnext hi).2 hfalls

theorem exists_mem_found (hwalk : walkInstrs S is = .ok walk) (hi : i ∈ is) (hop : i.op.hasTarget)
    (ht : i.target = some t) : ∃ S', (t, S') ∈ walk.found := by
  induction is generalizing S walk with
  | nil => cases hi
  | cons j is ih =>
    obtain ⟨rest, _, hrest, _, _, _, _, hfound⟩ := walkInstrs_cons hwalk
    rcases mem_cons.mp hi with rfl | hi
    · rcases hfound with ⟨hnone, _⟩ | ⟨u, _, hu, hfound⟩
      · rw [hop] at hnone
        cases hnone
      · obtain rfl : t = u := Option.some.inj (ht.symm.trans hu)
        exact ⟨S, by simp [hfound]⟩
    · obtain ⟨S', hmem⟩ := ih hrest hi
      rcases hfound with ⟨_, hfound⟩ | ⟨_, _, _, hfound⟩
      · exact ⟨S', hfound ▸ hmem⟩
      · exact ⟨S', by simp [hfound, hmem]⟩

/-- The state of the walk: the blocks that it is done with have been walked with the handlers of a
path there, and all that they lead to has been seen. -/
structure Walking (g h : Graph) (work : List (BlockId × HandlerStack)) (seen done : List BlockId) :
    Prop where
  labels : Relates Instr.Labels g h
  nodup : (done ++ work.map fst).Nodup
  known : ∀ id, id ∈ seen ↔ id ∈ done ∨ id ∈ work.map fst
  opens : ∀ x ∈ work, g.Opens x.1 (g.block x.1).instrs x.2
  fresh : ∀ id, id ∉ done → (h.block id).instrs = (g.block id).instrs
  walked : ∀ id ∈ done, ∃ S walk, g.Opens id (g.block id).instrs S ∧
    walkInstrs S (g.block id).instrs = .ok walk ∧ (h.block id).instrs = walk.instrs ∧
    (∀ x ∈ walk.found, x.1 ∈ seen) ∧ ∀ n, g.fallthrough? id = some n → n ∈ seen

theorem enqueue_spec {found work : List (BlockId × HandlerStack)} {seen done : List BlockId}
    (hnodup : (done ++ work.map fst).Nodup)
    (hseen : ∀ id, id ∈ seen ↔ id ∈ done ∨ id ∈ work.map fst) :
    (done ++ (enqueue found work seen).1.map fst).Nodup ∧
      (∀ id, id ∈ (enqueue found work seen).2 ↔
        id ∈ done ∨ id ∈ (enqueue found work seen).1.map fst) ∧
      seen ⊆ (enqueue found work seen).2 ∧ ∀ x ∈ found, x.1 ∈ (enqueue found work seen).2 := by
  induction found generalizing work seen with
  | nil => exact ⟨hnodup, hseen, List.Subset.refl _, by simp⟩
  | cons x found ih =>
    obtain ⟨id, S⟩ := x
    rw [enqueue]
    split_ifs with hmem
    · obtain ⟨hnodup', hseen', hsub, hfound⟩ := ih hnodup hseen
      exact ⟨hnodup', hseen', hsub, forall_mem_cons.mpr ⟨hsub (contains_iff_mem.mp hmem), hfound⟩⟩
    · have hnot : id ∉ seen := fun h => hmem (contains_iff_mem.mpr h)
      have hnodup : (done ++ ((id, S) :: work).map fst).Nodup := by
        rw [map_cons, nodup_middle, nodup_cons]
        exact ⟨fun h => hnot ((hseen id).mpr (mem_append.mp h)), hnodup⟩
      have hseen : ∀ a, a ∈ id :: seen ↔ a ∈ done ∨ a ∈ ((id, S) :: work).map fst := by
        intro a
        simp only [mem_cons, map_cons, hseen]
        tauto
      obtain ⟨hnodup', hseen', hsub, hfound⟩ := ih hnodup hseen
      exact ⟨hnodup', hseen', fun a ha => hsub (mem_cons_of_mem _ ha),
        forall_mem_cons.mpr ⟨hsub mem_cons_self, hfound⟩⟩

namespace Walking

variable {work : List (BlockId × HandlerStack)} {seen done : List BlockId}

theorem start (hk : Relates Eq g k) : g.Walking k [(g.entry, [])] [g.entry] [] := by
  refine ⟨hk.mono ?_, by simp, by simp, fun x hx => ?_, fun id _ => hk.instrs_eq id, by simp⟩
  · rintro i _ rfl
    exact Std.Refl.refl i
  · obtain rfl := mem_singleton.mp hx
    exact .entry

theorem length_le (hw : g.Walking h work seen done) (hg : g.Walkable) :
    done.length + work.length ≤ g.blocks.size := by
  have hsub : done ++ work.map fst ⊆ List.range g.blocks.size := by
    intro id hid
    rw [mem_range]
    rcases mem_append.mp hid with hid | hid
    · obtain ⟨S, _, hopens, _⟩ := hw.walked id hid
      exact hg.bound id _ S hopens
    · obtain ⟨x, hx, rfl⟩ := mem_map.mp hid
      exact hg.bound x.1 _ x.2 (hw.opens x hx)
  have hlength := (hw.nodup.subperm hsub).length_le
  simpa using hlength

theorem not_mem_done (hw : g.Walking h ((id, S) :: work) seen done) : id ∉ done := by
  have hnodup := hw.nodup
  rw [map_cons, nodup_middle, nodup_cons] at hnodup
  exact fun hmem => hnodup.1 (mem_append_left _ hmem)

theorem step (hg : g.Walkable) (hw : g.Walking h ((id, S) :: work) seen done) {walk : BlockWalk}
    (hwalk : walkInstrs S (h.block id).instrs = .ok walk)
    (hk : Relates Eq (h.setInstrs id walk.instrs) k) :
    let next := enqueue (walk.found ++ (k.fallthrough? id).toList.map (·, walk.stack)) work seen
    g.Walking k next.1 next.2 (id :: done) ∧ seen ⊆ next.2 := by
  intro next
  have hmove : (done ++ ((id, S) :: work).map fst).Perm (id :: done ++ work.map fst) :=
    perm_middle
  have hnodup := hmove.nodup_iff.mp hw.nodup
  have hknown : ∀ a, a ∈ seen ↔ a ∈ id :: done ∨ a ∈ work.map fst := by
    intro a
    rw [hw.known, ← mem_append, hmove.mem_iff, mem_append]
  have hnot := hw.not_mem_done
  have hopens := hw.opens (id, S) mem_cons_self
  have hends := hg.ended id _ S hopens
  have hlabels : Relates Instr.Labels g k := by
    refine hw.labels.trans (.trans (.setInstrs id (labels_walkInstrs hwalk)) (hk.mono ?_))
    rintro i _ rfl
    exact Std.Refl.refl i
  have hfallthrough : k.fallthrough? id = g.fallthrough? id :=
    fallthrough?_eq_of_alike ((hlabels.instrs id).imp fun _ _ => Instr.Labels.alike)
      (hlabels.links.next id)
  rw [hw.fresh id hnot] at hwalk
  obtain ⟨hfound, hend⟩ := hopens.found hends hwalk
  obtain ⟨hnodup', hknown', hsub, hall⟩ :=
    @enqueue_spec (walk.found ++ (k.fallthrough? id).toList.map (·, walk.stack)) _ _ _ hnodup hknown
  have hself : (k.block id).instrs = walk.instrs := by
    rw [hk.instrs_eq, block_setInstrs, if_pos ⟨rfl, hw.labels.links.size ▸ hg.bound id _ S hopens⟩]
  have hother : ∀ a, a ≠ id → (k.block a).instrs = (h.block a).instrs := by
    intro a ha
    rw [hk.instrs_eq, block_setInstrs_of_ne _ _ ha.symm]
  refine ⟨⟨hlabels, hnodup', hknown', fun x hx => ?_, fun a ha => ?_, fun a ha => ?_⟩, hsub⟩
  · rcases mem_enqueue hx with hx | hx
    · rcases mem_append.mp hx with hx | hx
      · exact hfound x hx
      · obtain ⟨n, hn, rfl⟩ := mem_map.mp hx
        rw [Option.mem_toList, hfallthrough, fallthrough?_eq_some] at hn
        exact (hend ((Block.fallsThrough_iff hends).mp hn.1)).fall hn.2
    · exact hw.opens x (mem_cons_of_mem _ hx)
  · rw [mem_cons, not_or] at ha
    rw [hother a ha.1]
    exact hw.fresh a ha.2
  · rcases mem_cons.mp ha with rfl | ha
    · refine ⟨S, walk, hopens, hwalk, hself, fun x hx => ?_, fun n hn => ?_⟩
      · exact hall x (mem_append_left _ hx)
      · refine hall (n, walk.stack) (mem_append_right _ (mem_map.mpr ⟨n, ?_, rfl⟩))
        rwa [hfallthrough, Option.mem_toList]
    · obtain ⟨S', walk', hopens', hwalk', hsame, hfound', hnext⟩ := hw.walked a ha
      have hne : a ≠ id := fun h => hnot (h ▸ ha)
      exact ⟨S', walk', hopens', hwalk', by rw [hother a hne, hsame],
        fun x hx => hsub (hfound' x hx), fun n hn => hsub (hnext n hn)⟩

/-- When no block waits any more, all blocks on the paths from the entry are done. -/
theorem run (hg : g.Walkable) {fuel : Nat} (hw : g.Walking h work seen done)
    (hfuel : g.blocks.size ≤ fuel + done.length) (hk : walkBlocks fuel work seen h = .ok k) :
    ∃ seen' done', g.Walking k [] seen' done' ∧ seen ⊆ seen' := by
  induction fuel generalizing h work seen done with
  | zero =>
    cases hk
    have hlength := hw.length_le hg
    obtain rfl : work = [] := length_eq_zero_iff.mp (by omega)
    exact ⟨seen, done, hw, List.Subset.refl _⟩
  | succ fuel ih =>
    cases work with
    | nil =>
      cases hk
      exact ⟨seen, done, hw, List.Subset.refl _⟩
    | cons x work =>
      obtain ⟨id, S⟩ := x
      obtain ⟨walk, hwalk, hk⟩ := Result.bind_eq_ok.mp hk
      obtain ⟨hw', hsub⟩ := hw.step hg hwalk (relates_keepers walk.keepers _)
      obtain ⟨seen', done', hdone, hsub'⟩ := ih hw' (by rw [length_cons]; omega) hk
      exact ⟨seen', done', hdone, fun a ha => hsub' (hsub ha)⟩

theorem mem_done (hw : g.Walking k [] seen done) (hg : g.Walkable) (hentry : g.entry ∈ seen)
    (h : g.Opens id is S) : id ∈ done := by
  have hseen : ∀ {a}, a ∈ seen → a ∈ done := fun ha => by simpa using (hw.known _).mp ha
  induction h with
  | entry => exact hseen hentry
  | next _ _ ih => exact ih
  | @refer id t i is S h ht ih =>
    obtain ⟨_, walk, _, hwalk, _, hfound, _⟩ := hw.walked id ih
    have hop : i.op.hasTarget := by
      rw [← hg.refers id i is S h, ht, Option.isSome_some]
    obtain ⟨S', hmem⟩ := exists_mem_found hwalk h.mem_instrs hop ht
    exact hseen (hfound _ hmem)
  | fall h hn ih =>
    obtain ⟨_, _, _, _, _, _, hnext⟩ := hw.walked _ ih
    exact hseen (hnext _ (fallthrough?_eq_some.mpr ⟨h.fallsThrough, hn⟩))

end Walking

/-! ### The certificate -/

/-- Where all paths agree, the handlers on a path to a block are a fact about it. -/
theorem Steady.exists_types (hsteady : g.Steady) : ∃ types : BlockId → Option Facts,
    (∀ id S, g.Opens id (g.block id).instrs S → types id = some ⟨S, ∅⟩) ∧
      ∀ id f, types id = some f → g.Opens id (g.block id).instrs f.handlers := by
  classical
  refine ⟨fun id => if h : ∃ S, g.Opens id (g.block id).instrs S then some ⟨h.choose, ∅⟩ else none,
    fun id S hS => ?_, fun id f hf => ?_⟩
  · have hex : ∃ S, g.Opens id (g.block id).instrs S := ⟨S, hS⟩
    dsimp only
    rw [dif_pos hex, hsteady id _ _ hex.choose_spec hS]
  · dsimp only at hf
    split_ifs at hf with hex
    cases hf
    exact hex.choose_spec

/-- A walk along a path writes the handlers that are open there on the instructions. -/
theorem Opens.tracks {types : BlockId → Option Facts} {next : HandlerStack → Set Nat → Prop}
    (htypes : ∀ id S, g.Opens id (g.block id).instrs S → types id = some ⟨S, ∅⟩)
    (hnext : ∀ S B, g.Opens id [] S → next S B) (h : g.Opens id is S)
    (hwalk : walkInstrs S is = .ok walk) (B : Set Nat) :
    Tracks False types next walk.instrs S B := by
  have henters : ∀ {t S B}, g.Opens t (g.block t).instrs S → Enters types S B t :=
    fun h => ⟨_, htypes _ _ h, rfl, Set.empty_subset _⟩
  induction is generalizing S B walk with
  | nil =>
    cases hwalk
    exact hnext S B h
  | cons i is ih =>
    obtain ⟨rest, j, hrest, hij, hhandler, hinstrs, _⟩ := walkInstrs_cons hwalk
    obtain ⟨_, _, rfl, harg⟩ := hij
    rw [hinstrs]
    refine ⟨⟨.inl hhandler, fun _ t ht => ?_, nofun, fun _ t ht => henters (h.refer ht),
      fun _ t ht => henters (h.refer ht)⟩, fun hfall => ih (h.next hfall) hrest _⟩
    obtain ⟨S', hopens⟩ := h.of_mem (Instr.forall_mem_handlersAt (fun _ h => h) t (mem_of_head? ht))
    exact ⟨_, htypes t S' hopens, Set.empty_subset _⟩

theorem Regular.certified_labelHandlers (hg : g.Regular) (hsteady : g.Steady) (hends : g.Ends)
    (h : g.labelHandlers = .ok k) (params : Nat) :
    ∃ types, k.Certified False params types := by
  obtain ⟨types, htypes, hopens⟩ := hsteady.exists_types
  obtain ⟨seen, done, hdone, hsub⟩ :=
    (Walking.start (relates_forgetPositions g)).run hg.resolved.walkable (by simp) h
  have hlinks := hdone.labels.links
  refine ⟨types, ?_, fun id hid f hf => ?_⟩
  · rw [hlinks.entry]
    exact ⟨_, htypes _ _ .entry, rfl, Set.empty_subset _⟩
  · have hf := hopens id f hf
    obtain ⟨S, walk, hS, hwalk, hinstrs, _⟩ :=
      hdone.walked id (hdone.mem_done hg.resolved.walkable (hsub mem_cons_self) hf)
    obtain rfl := hsteady id _ _ hf hS
    rw [hinstrs]
    refine hf.tracks htypes (fun S B hend => ?_) hwalk f.bound
    obtain ⟨n, hn⟩ := Option.ne_none_iff_exists'.mp (hends id S hend)
    exact ⟨n, (hlinks.next id).trans hn, _, htypes n S (hend.fall hn), rfl, Set.empty_subset _⟩

end Graph

end Bytecode
