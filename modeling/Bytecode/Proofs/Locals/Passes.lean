import Bytecode.Proofs.Locals.Certificates
import Bytecode.Proofs.Optimizer.Tidied

/-!
# Certificates through the other passes

The passes around the rounds of the optimizer leave a certificate too: cold blocks move to the end,
constants get other indices, and instructions get their lines.
-/

namespace Bytecode

open Instr Function

variable {types types' : BlockId → Option Facts} {late : Prop} {S : HandlerStack} {B : Set Nat}
  {i j : Instr} {is js : List Instr} {k : HandlerStack → Set Nat → Prop}

/-! ### More facts -/

section

variable (htypes : ∀ t f, types t = some f → types' t = some f)

include htypes

theorem Enters.extend {t : BlockId} (h : Enters types S B t) : Enters types' S B t := by
  obtain ⟨f, hf, hS, hB⟩ := h
  exact ⟨f, htypes t f hf, hS, hB⟩

theorem Instr.Tracked.extend (h : i.Tracked late types S B) : i.Tracked late types' S B where
  handled := h.handled
  guarded hneed t ht := by
    obtain ⟨f, hf, hB⟩ := h.guarded hneed t ht
    exact ⟨f, htypes t f hf, hB⟩
  bound := h.bound
  jump hop t ht := (h.jump hop t ht).extend htypes
  push hop t ht := (h.push hop t ht).extend htypes

theorem Tracks.extend (h : Tracks late types k is S B) : Tracks late types' k is S B := by
  induction is generalizing S B with
  | nil => exact h
  | cons i is ih => exact ⟨h.1.extend htypes, fun hfall => ih (h.2 hfall)⟩

end

/-! ### Instructions that differ in no local -/

/-- The two instructions differ at most in their places, or in an operand that is no local. -/
structure Instr.Echoes (i j : Instr) : Prop where
  op : j.op = i.op
  target : j.target = i.target
  handler : j.handler = i.handler
  arg : i.op.isQuiet ∨ j.arg = i.arg

theorem Instr.Places.echoes (h : i.Places j) : i.Echoes j := by
  obtain ⟨loc, rfl, _⟩ := h
  exact ⟨rfl, rfl, rfl, .inr rfl⟩

theorem Instr.Renumbers.echoes (h : i.Renumbers j) : i.Echoes j := by
  rcases h with rfl | ⟨hindex, arg, rfl⟩
  · exact ⟨rfl, rfl, rfl, .inr rfl⟩
  · refine ⟨rfl, rfl, rfl, .inl ?_⟩
    unfold constantIndex? at hindex
    split at hindex
    · rename_i op hop
      rw [hop]
      cases op <;> first | rfl | cases hindex
    · cases hindex

theorem Tracks.echoes (hij : List.Forall₂ Echoes is js) (h : Tracks late types k is S B) :
    Tracks late types k js S B := by
  induction hij generalizing S B with
  | nil => exact h
  | @cons i j is js hij _ ih =>
    obtain ⟨hop, htarget, hhandler, harg⟩ := hij
    have hat : j.handlersAt S = i.handlersAt S := by rw [handlersAt, hop]; rfl
    have hafter : j.handlersAfter S = i.handlersAfter S := by
      rw [handlersAfter, hop, htarget]; rfl
    have hbinds : j.binds B = i.binds B := by
      rcases harg with hquiet | harg
      · rw [binds_of_isQuiet hquiet, binds_of_isQuiet (hop ▸ hquiet)]
      · rw [binds, hop, harg]; rfl
    refine ⟨⟨hat ▸ hhandler ▸ h.1.handled, ?_, fun hlate hload => ?_, ?_, ?_⟩, fun hfall => ?_⟩
    · rw [hat, hhandler, hop]
      exact h.1.guarded
    · rw [hop] at hload
      have harg := harg.resolve_left fun hquiet => ne_loadFast_of_isQuiet hquiet hload
      exact harg ▸ h.1.bound hlate hload
    · rw [hop, htarget]
      exact h.1.jump
    · rw [hop, htarget]
      exact h.1.push
    · rw [hafter, hbinds]
      exact ih (h.2 (hop ▸ hfall))

namespace Graph

variable {g h k : Graph} {id next : BlockId} {params : Nat}

namespace Certified

theorem echoes {R : Instr → Instr → Prop} (hg : g.Certified late params types)
    (hk : Relates R g k) (hR : ∀ i j, R i j → i.Echoes j) : k.Certified late params types := by
  refine ⟨hk.links.entry ▸ hg.entry, fun a ha f hf => ?_⟩
  rw [hk.links.order] at ha
  refine ((hg.tracks a ha f hf).echoes ((hk.instrs a).imp hR)).weaken fun S B hcont => ?_
  rwa [Continues, hk.links.next]

theorem of_eq (hg : g.Certified late params types) (hk : Relates Eq g k) :
    k.Certified late params types := by
  refine hg.echoes hk ?_
  rintro i _ rfl
  exact ⟨rfl, rfl, rfl, .inr rfl⟩

/-! ### Cold blocks -/

/-- A new block gets the facts of the one that is entered through it or instead of it. -/
theorem extend_size (hc : g.Closed) (hconfined : g.Confined types) (t : BlockId) :
    ∀ a f, types a = some f → update types g.blocks.size (types t) a = some f := by
  intro a f hf
  have hmem := hc.within.inside (hconfined.reaches a f hf)
  rwa [update_of_ne (hc.layout.ne_size hmem)]

theorem bridges (hg : g.Certified True params types) (hr : g.Regular)
    (hb : g.Bridges h id next) : ∃ types', h.Certified True params types' := by
  obtain ⟨types, hg, hconfined⟩ := hg.exists_confined hr
  have hc := hr.closed
  have htypes := extend_size hc hconfined next
  have hsize : update types g.blocks.size (types next) g.blocks.size = types next :=
    update_self ..
  refine ⟨_, hb.entry ▸ hg.entry.extend htypes, fun a ha f hf => ?_⟩
  rcases (hb.mem_order_iff hc).mp ha with rfl | ha
  · rw [hsize] at hf
    rw [hb.jump]
    refine ⟨⟨.inr ⟨trivial, rfl⟩, nofun, nofun, fun _ t ht => ?_, nofun⟩, nofun⟩
    obtain rfl := Option.some.inj ht
    exact ⟨f, htypes next f hf, rfl, subset_rfl⟩
  · rw [update_of_ne (hc.layout.ne_size ha)] at hf
    have hold := (hg.tracks a ha f hf).extend htypes
    by_cases haid : a = id
    · subst haid
      rw [hb.self]
      refine hold.weaken fun S B ⟨n, hn, F, hF, hS, hB⟩ => ?_
      obtain rfl : next = n := Option.some.inj (hb.link.symm.trans hn)
      exact ⟨g.blocks.size, by rw [hb.self], F, hsize.trans hF, hS, hB⟩
    · have hblock := hb.other a (hc.layout.ne_size ha) haid
      rw [hblock]
      refine hold.weaken fun S B ⟨n, hn, henters⟩ => ?_
      exact ⟨n, hblock ▸ hn, henters.extend htypes⟩

theorem coldLast (hg : g.Certified late params types) (hr : g.Regular) (hb : g.Bridging []) :
    ∃ types', (g.setLayout g.coldLast).Certified late params types' := by
  obtain ⟨types, hg, hconfined⟩ := hg.exists_confined hr
  refine ⟨types, hb.entry_coldLast ▸ hg.entry, fun a ha f hf => ?_⟩
  rw [(laysOut_coldLast hb.closed hb.tempered).order, mem_coldLast] at ha
  obtain ⟨n, hblock⟩ := g.block_setLayout g.coldLast a
  rw [hblock]
  -- Control falls into the same block as before.
  refine (hg.tracks a ha f hf).weaken_block fun hfall S B ⟨n, hn, henters⟩ => ⟨n, ?_, henters⟩
  exact hb.next_coldLast ha (hb.reaches_coldLast hr (hconfined.reaches a f hf)).1
    (fallthrough?_eq_some.mpr ⟨hfall, hn⟩)

theorem moveColdToEnd (hg : g.Certified True params types) (ht : g.Tidied) :
    ∃ types', g.moveColdToEnd.Certified True params types' := by
  refine (moveColdToEnd_induction (I := fun g => g.Tidied ∧ ∃ types, g.Certified True params types)
    ht.regular.closed ⟨ht, types, hg⟩
    ⟨ht.of_eq (relates_markCold g), types, hg.of_eq (relates_markCold g)⟩ ?_ ?_ ?_).2
  · rintro g h id next ⟨ht, types, hg⟩ _ htempered hb
    exact ⟨ht.bridges htempered hb, hg.bridges ht.regular hb⟩
  · rintro g ⟨ht, types, hg⟩ hb
    exact ⟨hb.tidied_coldLast ht, hg.coldLast ht.regular hb⟩
  · rintro g ⟨ht, types, hg⟩ _
    exact ⟨ht.dropRedundantJumps, hg.steps ht.regular (becomes_dropRedundantJumps g []).steps⟩

/-! ### Lines and constants -/

variable (hg : g.Certified late params types) (hr : g.Regular)
include hg hr

theorem splits {exit : BlockId} (hs : g.Splits h id exit is i) :
    ∃ types', h.Certified late params types' := by
  obtain ⟨types, hg, hconfined⟩ := hg.exists_confined hr
  have hw := hr.closed.wired
  have hexit := hs.exit_mem hw
  have htypes := extend_size hr.closed hconfined exit
  have hsize : update types g.blocks.size (types exit) g.blocks.size = types exit :=
    update_self ..
  have hnever : ∀ {k k' : HandlerStack → Set Nat → Prop}, (g.block exit).fallsThrough →
      ∀ S B, k S B → k' S B := by
    intro k k' hfall
    rw [Block.fallsThrough_of_exitsScope hs.exits] at hfall
    cases hfall
  refine ⟨_, hs.entry ▸ hg.entry.extend htypes, fun a ha f hf => ?_⟩
  rcases (hs.mem_order_iff hw).mp ha with rfl | ha
  · rw [hsize] at hf
    exact (((hg.tracks exit hexit f hf).extend htypes).weaken_block hnever).echoes
      (hs.copied.imp fun _ _ => Places.echoes)
  · rw [update_of_ne (hw.layout.ne_size ha)] at hf
    have hold := (hg.tracks a ha f hf).extend htypes
    by_cases haid : a = id
    · subst haid
      rw [hs.self]
      rw [hs.instrs, Tracks.append_iff] at hold
      rw [Tracks.append_iff]
      refine hold.weaken fun S B ⟨hi, hfall⟩ => ?_
      obtain ⟨F, hF, hS, hB⟩ := hi.jump hs.jump exit hs.target
      have hquiet := Operation.isQuiet_of_isJump hs.jump
      have hquiet' : ({ i with target := some g.blocks.size } : Instr).op.isQuiet := hquiet
      refine ⟨hi.quiet hquiet hquiet' rfl fun _ t ht => ?_, fun hnext => ?_⟩
      · obtain rfl := Option.some.inj ht
        refine ⟨F, ?_, hS, hB⟩
        rw [hsize]
        rwa [update_of_ne (hw.layout.ne_size hexit)] at hF
      · have hrest := hfall hnext
        rw [handlersAfter_of_isQuiet hquiet, binds_of_isQuiet hquiet] at hrest
        rw [handlersAfter_of_isQuiet hquiet', binds_of_isQuiet hquiet']
        obtain ⟨n, hn, henters⟩ := hrest
        exact ⟨n, by rw [hs.self]; exact hn, henters.extend htypes⟩
    · by_cases hae : a = exit
      · subst hae
        rw [hs.left]
        exact hold.weaken_block hnever
      · have hblock := hs.other a (hw.layout.ne_size ha) haid hae
        rw [hblock]
        refine hold.weaken fun S B ⟨n, hn, henters⟩ => ?_
        exact ⟨n, hblock ▸ hn, henters.extend htypes⟩

theorem resolveLines (firstLine : Int) :
    ∃ types', (g.resolveLines firstLine).Certified late params types' := by
  have hcount := relates_countPredecessors g
  have hregular := hr.of_eq hcount
  obtain ⟨_, types', hsplit⟩ := hregular.layout.splitExits_induction
    (P := fun g => g.Regular ∧ ∃ types, g.Certified late params types) (List.Subset.refl _)
    ⟨hregular, types, hg.of_eq hcount⟩ fun _ ⟨hr, _, hg⟩ hs => ⟨hs.regular hr, hg.splits hr hs⟩
  exact ⟨types', hsplit.echoes (relates_fillLines _ firstLine) fun _ _ => Places.echoes⟩

end Certified

end Graph

end Bytecode
