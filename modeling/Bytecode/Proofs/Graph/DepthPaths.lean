import Bytecode.Proofs.Graph.Depth
import Mathlib.Order.Bounds.Defs
import Mathlib.Order.MinMax

/-!
# Depths along paths

A path starts at the entry and follows the instructions; at a target it may branch off, and at the
end of a block it goes on to the next one. The search for stack depths visits a block once only, and
still decides what all paths have in common: it succeeds exactly if the depths agree on all of them,
and then it has found the depth at the start of every block that a path enters, and the greatest
depth of any path.
-/

namespace Bytecode

open Result Except

variable {rest : List Instr} {atEnd : Option Int}

namespace Graph

section

variable (g : Graph) (flags : CodeFlags)

/-- A path from the entry stands before the given instructions, which are the rest of a block, with
the stack at the given depth. -/
inductive DepthAt : BlockId → List Instr → Int → Prop where
  | entry : DepthAt g.entry (g.block g.entry).instrs (startDepth flags)
  | next {id : BlockId} {i : Instr} {rest : List Instr} {d e : Int}
      (h : DepthAt id (i :: rest) d) (hfall : i.op.fallsThrough)
      (heffect : i.op.stackEffect i.arg false = .ok e) : DepthAt id rest (d + e)
  | branch {id target : BlockId} {i : Instr} {rest : List Instr} {d e : Int}
      (h : DepthAt id (i :: rest) d) (htarget : i.target = some target)
      (heffect : i.op.stackEffect i.arg true = .ok e) :
      DepthAt target (g.block target).instrs (d + e)
  | fall {id next : BlockId} {d : Int} (h : DepthAt id [] d)
      (hnext : (g.block id).next = some next) : DepthAt next (g.block next).instrs d

def EntryDepth (id : BlockId) (d : Int) : Prop :=
  g.DepthAt flags id (g.block id).instrs d

/-- The depth occurs on a path: at its start, after an instruction, or along a branch. -/
inductive PathDepth : Int → Prop where
  | start : PathDepth (startDepth flags)
  | after {id : BlockId} {i : Instr} {rest : List Instr} {d e : Int}
      (h : g.DepthAt flags id (i :: rest) d) (heffect : i.op.stackEffect i.arg false = .ok e) :
      PathDepth (d + e)
  | along {id target : BlockId} {i : Instr} {rest : List Instr} {d e : Int}
      (h : g.DepthAt flags id (i :: rest) d) (htarget : i.target = some target)
      (heffect : i.op.stackEffect i.arg true = .ok e) : PathDepth (d + e)

/-- All paths agree: whatever they meet has an effect, they stay within the bounds of a frame and
of the graph, and they enter a block at one depth only. -/
structure Level : Prop where
  defined : ∀ id i rest d, g.DepthAt flags id (i :: rest) d →
    (∃ e, i.op.stackEffect i.arg false = .ok e) ∧
      (i.target.isSome → ∃ e, i.op.stackEffect i.arg true = .ok e)
  bounded : ∀ d, g.PathDepth flags d → 0 ≤ d ∧ d ≤ maxStackDepth
  unique : ∀ id d d', g.EntryDepth flags id d → g.EntryDepth flags id d' → d = d'
  inGraph : ∀ id d, g.EntryDepth flags id d → id < g.blocks.size

end

variable {g : Graph} {flags : CodeFlags} {id : BlockId} {d : Int}

theorem DepthAt.pathDepth (h : g.DepthAt flags id rest d) : g.PathDepth flags d := by
  induction h with
  | entry => exact .start
  | next h _ heffect => exact .after h heffect
  | branch h htarget heffect => exact .along h htarget heffect
  | fall _ _ ih => exact ih

theorem DepthAt.isSuffix (h : g.DepthAt flags id rest d) : rest <:+ (g.block id).instrs := by
  induction h with
  | next _ _ _ ih => exact (List.suffix_cons _ _).trans ih
  | _ => exact List.suffix_rfl

end Graph

namespace DepthSearch

variable {g : Graph} {flags : CodeFlags} {s t : DepthSearch} {id : BlockId} {d : Int}

/-! ### What the search finds is on a path -/

/-- What the search has found so far is found on paths. -/
structure Traced (g : Graph) (flags : CodeFlags) (s : DepthSearch) : Prop where
  size : s.depths.size = g.blocks.size
  entered : ∀ id d, s.depth? id = some d → g.EntryDepth flags id d
  deepest : g.PathDepth flags s.deepest

theorem enter_cases (h : s.enter id d = .ok t) : t.deepest = s.deepest ∧
    t.depths.size = s.depths.size ∧
      ∀ j d', t.depth? j = some d' → s.depth? j = some d' ∨ j = id ∧ d' = d := by
  unfold enter at h
  split_ifs at h
  · simp at h
  split at h
  · simp at h
  · split_ifs at h
    · obtain rfl := ok.inj h
      exact ⟨rfl, rfl, fun j d' hj => .inl hj⟩
    · simp at h
  · obtain rfl := ok.inj h
    refine ⟨rfl, Array.size_setIfInBounds, fun j d' hj => ?_⟩
    simp only [depth?, Array.getElem?_setIfInBounds] at hj
    split_ifs at hj with heq
    · exact .inr ⟨heq.symm, by simpa using hj.symm⟩
    · simp at hj
    · exact .inl hj

section

variable (hs : s.Traced g flags)
include hs

theorem Traced.enter (hd : g.EntryDepth flags id d) (h : s.enter id d = .ok t) :
    t.Traced g flags := by
  obtain ⟨hdeepest, hsize, hdepth⟩ := enter_cases h
  refine ⟨hsize.trans hs.size, fun j d' hj => ?_, hdeepest ▸ hs.deepest⟩
  rcases hdepth j d' hj with hj | ⟨rfl, rfl⟩
  · exact hs.entered j d' hj
  · exact hd

theorem Traced.raise (hd : g.PathDepth flags d) :
    Traced g flags { s with deepest := max s.deepest d } := by
  refine ⟨hs.size, hs.entered, ?_⟩
  rcases max_choice s.deepest d with h | h
  · exact h.symm ▸ hs.deepest
  · exact h.symm ▸ hd

theorem Traced.branch {i : Instr} (hd : g.DepthAt flags id (i :: rest) d)
    (h : s.branch d i = .ok t) : t.Traced g flags := by
  unfold DepthSearch.branch at h
  cases htarget : i.target with
  | none =>
    simp only [htarget] at h
    obtain rfl := ok.inj h
    exact hs
  | some target =>
    simp only [htarget] at h
    obtain ⟨e, he, h⟩ := bind_eq_ok.mp h
    exact (hs.raise (.along hd htarget he)).enter (hd.branch htarget he) h

theorem Traced.follow {is : List Instr} (hlimit : s.deepest ≤ maxStackDepth)
    (hd : g.DepthAt flags id is d) (h : follow id s d is = .ok (t, atEnd)) :
    t.Traced g flags ∧ t.deepest ≤ maxStackDepth ∧
      ∀ d', atEnd = some d' → g.DepthAt flags id [] d' := by
  induction is generalizing s d with
  | nil =>
    obtain ⟨rfl, rfl⟩ : s = t ∧ some d = atEnd := by simpa [DepthSearch.follow] using h
    exact ⟨hs, hlimit, fun d' hd' => Option.some.inj hd' ▸ hd⟩
  | cons i is ih =>
    rw [DepthSearch.follow] at h
    obtain ⟨e, he, h⟩ := bind_eq_ok.mp h
    dsimp only at h
    split at h
    · simp at h
    obtain ⟨s', hbranch, h⟩ := bind_eq_ok.mp h
    have hs' := (hs.raise (.after hd he)).branch hd hbranch
    split at h
    · simp at h
    rename_i hlimit'
    split at h
    · rename_i hfall
      exact ih hs' (Int.not_lt.mp hlimit') (hd.next hfall he) h
    · obtain ⟨rfl, rfl⟩ : s' = t ∧ none = atEnd := by simpa using h
      exact ⟨hs', Int.not_lt.mp hlimit', by simp⟩

theorem Traced.leave (hd : ∀ d', atEnd = some d' → g.DepthAt flags id [] d')
    (h : s.leave atEnd (g.block id).next = .ok t) : t.Traced g flags ∧ t.deepest = s.deepest := by
  unfold DepthSearch.leave at h
  split at h
  · rename_i d' next hnext
    exact ⟨hs.enter ((hd d' rfl).fall hnext) h, (enter_cases h).1⟩
  · obtain rfl := ok.inj h
    exact ⟨hs, rfl⟩

end

/-! ### Where paths agree the search goes on -/

section

variable (hg : g.Level flags)

include hg

variable (hs : s.Traced g flags)
include hs

theorem Traced.exists_enter (hd : g.EntryDepth flags id d) : ∃ t, s.enter id d = .ok t := by
  have hlow := (hg.bounded d hd.pathDepth).1
  have hlt : id < s.depths.size := hs.size ▸ hg.inGraph id d hd
  unfold DepthSearch.enter
  rw [if_neg (Int.not_lt.mpr hlow), Array.getElem?_eq_getElem hlt]
  cases hknown : s.depths[id] with
  | none => exact ⟨_, rfl⟩
  | some known =>
    have hentered : g.EntryDepth flags id known := by
      refine hs.entered id known ?_
      rw [DepthSearch.depth?, Array.getElem?_eq_getElem hlt, hknown]
      rfl
    exact ⟨s, if_pos (hg.unique id known d hentered hd)⟩

theorem Traced.exists_branch {i : Instr} (hd : g.DepthAt flags id (i :: rest) d) :
    ∃ t, s.branch d i = .ok t := by
  unfold DepthSearch.branch
  cases htarget : i.target with
  | none => exact ⟨s, rfl⟩
  | some target =>
    obtain ⟨e, he⟩ := (hg.defined id i rest d hd).2 (htarget ▸ rfl)
    obtain ⟨t, ht⟩ := (hs.raise (.along hd htarget he)).exists_enter hg (hd.branch htarget he)
    exact ⟨t, bind_eq_ok.mpr ⟨e, he, ht⟩⟩

theorem Traced.exists_follow {is : List Instr} (hd : g.DepthAt flags id is d) :
    ∃ r, DepthSearch.follow id s d is = .ok r := by
  induction is generalizing s d with
  | nil => exact ⟨_, rfl⟩
  | cons i is ih =>
    obtain ⟨e, he⟩ := (hg.defined id i is d hd).1
    have hafter : g.PathDepth flags (d + e) := .after hd he
    obtain ⟨s', hbranch⟩ := (hs.raise hafter).exists_branch hg hd
    have hs' := (hs.raise hafter).branch hd hbranch
    rw [DepthSearch.follow, he, ok_bind, if_neg (Int.not_lt.mpr (hg.bounded _ hafter).1),
      hbranch, ok_bind, if_neg (Int.not_lt.mpr (hg.bounded _ hs'.deepest).2)]
    split
    · rename_i hfall
      exact ih hs' (hd.next hfall he)
    · exact ⟨_, rfl⟩

theorem Traced.exists_leave (hd : ∀ d', atEnd = some d' → g.DepthAt flags id [] d') :
    ∃ t, s.leave atEnd (g.block id).next = .ok t := by
  unfold DepthSearch.leave
  split
  · rename_i d' next hnext
    exact hs.exists_enter hg ((hd d' rfl).fall hnext)
  · exact ⟨s, rfl⟩

end

end DepthSearch

namespace Graph

variable {g : Graph} {flags : CodeFlags} {s t : DepthSearch} {id : BlockId} {waiting : List BlockId}
  {d : Int}

/-! ### The search as a whole -/

/-- The state of the search between two blocks. -/
structure Surveys (g : Graph) (flags : CodeFlags) (s : DepthSearch) : Prop where
  searching : g.Searching s
  traced : s.Traced g flags
  limited : s.deepest ≤ maxStackDepth

/-- The depth from which the search follows a block that waits. -/
theorem Surveys.waits (hs : g.Surveys flags s) (hwait : s.waiting = id :: waiting) :
    ∃ d, s.depth? id = some d ∧ ((s.depths[id]?).join).getD 0 = d ∧ g.EntryDepth flags id d := by
  obtain ⟨d, hd⟩ := hs.searching.known id (by simp [hwait])
  refine ⟨d, hd, ?_, hs.traced.entered id d hd⟩
  rw [DepthSearch.depth?] at hd
  rw [hd, Option.getD_some]

theorem Surveys.step (hs : g.Surveys flags s) {s₁ s₂ : DepthSearch}
    (hwait : s.waiting = id :: waiting)
    (hfollow : { s with waiting := waiting }.follow id (((s.depths[id]?).join).getD 0)
      (g.block id).instrs = .ok (s₁, atEnd)) (hleave : s₁.leave atEnd (g.block id).next = .ok s₂) :
    g.Surveys flags s₂ := by
  have hsearching := (hs.searching.step hwait hfollow hleave).1
  obtain ⟨d, hd, hdepth, hentry⟩ := hs.waits hwait
  rw [hdepth] at hfollow
  have htraced₀ : DepthSearch.Traced g flags { s with waiting := waiting } :=
    ⟨hs.traced.size, hs.traced.entered, hs.traced.deepest⟩
  obtain ⟨htraced₁, hlimit₁, hend⟩ := htraced₀.follow hs.limited hentry hfollow
  obtain ⟨htraced₂, hdeepest⟩ := htraced₁.leave hend hleave
  exact ⟨hsearching, htraced₂, hdeepest ▸ hlimit₁⟩

theorem Surveys.followBlocks {fuel : Nat} (hs : g.Surveys flags s)
    (h : g.followBlocks fuel s = .ok t) : g.Surveys flags t := by
  induction fuel generalizing s with
  | zero =>
    obtain rfl := ok.inj h
    exact hs
  | succ fuel ih =>
    rw [Graph.followBlocks] at h
    split at h
    · obtain rfl := ok.inj h
      exact hs
    · rename_i id waiting hwait
      obtain ⟨⟨s₁, atEnd⟩, hfollow, h⟩ := bind_eq_ok.mp h
      obtain ⟨s₂, hleave, h⟩ := bind_eq_ok.mp h
      exact ih (hs.step hwait hfollow hleave) h

theorem Surveys.exists_followBlocks (hg : g.Level flags) (fuel : Nat) (hs : g.Surveys flags s) :
    ∃ t, g.followBlocks fuel s = .ok t := by
  induction fuel generalizing s with
  | zero => exact ⟨s, rfl⟩
  | succ fuel ih =>
    rw [Graph.followBlocks]
    split
    · exact ⟨s, rfl⟩
    · rename_i id waiting hwait
      obtain ⟨d, hd, hdepth, hentry⟩ := hs.waits hwait
      have htraced₀ : DepthSearch.Traced g flags { s with waiting := waiting } :=
        ⟨hs.traced.size, hs.traced.entered, hs.traced.deepest⟩
      obtain ⟨⟨s₁, atEnd⟩, hfollow⟩ := htraced₀.exists_follow hg hentry
      obtain ⟨htraced₁, -, hend⟩ := htraced₀.follow hs.limited hentry hfollow
      obtain ⟨s₂, hleave⟩ := htraced₁.exists_leave hg hend
      rw [← hdepth] at hfollow
      obtain ⟨t, ht⟩ := ih (hs.step hwait hfollow hleave)
      exact ⟨t, bind_eq_ok.mpr ⟨_, hfollow, bind_eq_ok.mpr ⟨s₂, hleave, ht⟩⟩⟩

theorem traced_unsearched : (g.unsearched flags).Traced g flags :=
  ⟨Array.size_replicate, fun _ _ hd => by simp at hd, .start⟩

theorem surveys_start (h : (g.unsearched flags).enter g.entry (startDepth flags) = .ok s) :
    g.Surveys flags s := by
  refine ⟨(searching_start h).1, traced_unsearched.enter .entry h, ?_⟩
  rw [(DepthSearch.enter_cases h).1]
  show startDepth flags ≤ maxStackDepth
  rw [startDepth]
  split_ifs <;> decide

/-- What the search knows when it is over. -/
structure Surveyed (g : Graph) (flags : CodeFlags) (s : DepthSearch) : Prop
    extends g.Depths flags s, s.Traced g flags where
  limited : s.deepest ≤ maxStackDepth

theorem surveyed_of_stackDepths (h : g.stackDepths flags = .ok s) : g.Surveyed flags s := by
  have hdepths := stackDepths_spec h
  obtain ⟨s₁, hs₁, h⟩ := bind_eq_ok.mp h
  have hs := (surveys_start hs₁).followBlocks h
  exact ⟨hdepths, hs.traced, hs.limited⟩

theorem exists_stackDepths (hg : g.Level flags) : ∃ s, g.stackDepths flags = .ok s := by
  obtain ⟨s₁, hs₁⟩ := traced_unsearched.exists_enter hg .entry
  obtain ⟨s, hs⟩ := (surveys_start hs₁).exists_followBlocks hg g.blocks.size
  exact ⟨s, bind_eq_ok.mpr ⟨s₁, hs₁, hs⟩⟩

/-- From where a path stands, the search has seen what comes. -/
structure Seen (g : Graph) (s : DepthSearch) (id : BlockId) (rest : List Instr) (d : Int) :
    Prop where
  flow : Flow Operation.stackEffect s.depth? s.deepest
    (fun d' => ∀ next, (g.block id).next = some next → s.depth? next = some d') d rest
  known : rest = (g.block id).instrs → s.depth? id = some d

section

variable (h : g.Surveyed flags s)
include h

theorem Surveyed.seen_block (hd : s.depth? id = some d) : g.Seen s id (g.block id).instrs d :=
  ⟨h.flows id d hd, fun _ => hd⟩

theorem Surveyed.seen (hd : g.DepthAt flags id rest d) : g.Seen s id rest d := by
  induction hd with
  | entry => exact h.seen_block h.entry
  | @next id i rest d e hd hfall he ih =>
    obtain ⟨e', hstep, hflow⟩ := ih.flow
    cases he.symm.trans hstep.effect
    refine ⟨hflow hfall, fun heq => ?_⟩
    -- What comes after an instruction is not the whole block.
    have hlength := hd.isSuffix.length_le
    rw [← heq, List.length_cons] at hlength
    omega
  | branch hd htarget he ih =>
    obtain ⟨_, hstep, -⟩ := ih.flow
    obtain ⟨e', he', -, -, hdepth⟩ := hstep.branch _ htarget
    cases he.symm.trans he'
    exact h.seen_block hdepth
  | fall _ hnext ih => exact h.seen_block (ih.flow _ hnext)

theorem Surveyed.depth?_eq_some_iff : s.depth? id = some d ↔ g.EntryDepth flags id d :=
  ⟨h.entered id d, fun hd => (h.seen hd).known rfl⟩

theorem Surveyed.le_deepest (hd : g.PathDepth flags d) : 0 ≤ d ∧ d ≤ s.deepest := by
  cases hd with
  | start => exact h.bounded _ _ h.entry
  | after hd he =>
    obtain ⟨e', hstep, -⟩ := (h.seen hd).flow
    cases he.symm.trans hstep.effect
    exact ⟨hstep.low, hstep.high⟩
  | along hd htarget he =>
    obtain ⟨_, hstep, -⟩ := (h.seen hd).flow
    obtain ⟨e', he', hlow, hhigh, -⟩ := hstep.branch _ htarget
    cases he.symm.trans he'
    exact ⟨hlow, hhigh⟩

theorem Surveyed.level : g.Level flags := by
  refine ⟨fun id i rest d hd => ?_, fun d hd => ?_, fun id d d' hd hd' => ?_, fun id d hd => ?_⟩
  · obtain ⟨e, hstep, -⟩ := (h.seen hd).flow
    refine ⟨⟨e, hstep.effect⟩, fun hsome => ?_⟩
    obtain ⟨target, htarget⟩ := Option.isSome_iff_exists.mp hsome
    exact (hstep.branch target htarget).imp fun _ h => h.1
  · obtain ⟨hlow, hhigh⟩ := h.le_deepest hd
    exact ⟨hlow, hhigh.trans h.limited⟩
  · rw [← h.depth?_eq_some_iff] at hd hd'
    exact Option.some.inj (hd.symm.trans hd')
  · have hknown := h.depth?_eq_some_iff.mpr hd
    by_contra hlt
    rw [DepthSearch.depth?, Array.getElem?_eq_none (h.size ▸ Nat.not_lt.mp hlt)] at hknown
    cases hknown

end

/-- The search for stack depths succeeds exactly if all paths agree. Then it knows the depth at the
start of every block that a path enters and of no other, and the greatest depth of any path. -/
theorem stackDepths_exact (g : Graph) (flags : CodeFlags) :
    ((∃ s, g.stackDepths flags = .ok s) ↔ g.Level flags) ∧
      ∀ s, g.stackDepths flags = .ok s →
        IsGreatest { d | g.PathDepth flags d } s.deepest ∧
          ∀ id d, s.depth? id = some d ↔ g.EntryDepth flags id d := by
  refine ⟨⟨fun ⟨s, hs⟩ => (surveyed_of_stackDepths hs).level, exists_stackDepths⟩, fun s hs => ?_⟩
  have hsurvey := surveyed_of_stackDepths hs
  exact ⟨⟨hsurvey.deepest, fun d hd => (hsurvey.le_deepest hd).2⟩,
    fun id d => hsurvey.depth?_eq_some_iff⟩

end Graph

end Bytecode
