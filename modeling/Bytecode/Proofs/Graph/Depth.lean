import Bytecode.Graph.Depth
import Bytecode.Proofs.Graph.Blocks

/-!
# Depths that agree

What the search for stack depths finds agrees along every edge: the instructions of a block lead
from its depth to depths between zero and the greatest one, and to those of the blocks that control
goes on to.
-/

namespace Bytecode

open Result DepthSearch Except

variable {depth e : Int} {atEnd : Option Int} {id : BlockId}

def Operation.effect (op : Operation) (arg : Nat) (jump : Bool) : Result Int :=
  match op with
  | .real op => op.effectOf arg jump
  | .pseudo op => .ok (op.stackEffect jump)

theorem Opcode.effectOf_of_stackEffect {op : Opcode} {arg : Nat} {jump : Bool}
    (h : op.stackEffect arg jump = .ok e) : op.effectOf arg jump = .ok e := by
  unfold stackEffect at h
  split_ifs at h
  · exact h
  · simp at h

theorem Operation.effect_of_stackEffect {op : Operation} {arg : Nat} {jump : Bool}
    (h : op.stackEffect arg jump = .ok e) : op.effect arg jump = .ok e := by
  cases op with
  | real op => exact Opcode.effectOf_of_stackEffect h
  | pseudo op => exact h

abbrev EffectOf := Operation → Nat → Bool → Result Int

/-- What an instruction can do from a given depth, where the depths at the starts of blocks are
known: it never leads below zero or above `top`. -/
structure StepsFrom (F : EffectOf) (depths : BlockId → Option Int) (top depth : Int)
    (i : Instr) (e : Int) : Prop where
  effect : F i.op i.arg false = .ok e
  low : 0 ≤ depth + e
  high : depth + e ≤ top
  branch : ∀ target, i.target = some target → ∃ e', F i.op i.arg true = .ok e' ∧
    0 ≤ depth + e' ∧ depth + e' ≤ top ∧ depths target = some (depth + e')

/-- The depths along a run of instructions; `atEnd` holds of the depth at the end if control gets
there. -/
def Flow (F : EffectOf) (depths : BlockId → Option Int) (top : Int) (atEnd : Int → Prop) :
    Int → List Instr → Prop
  | depth, [] => atEnd depth
  | depth, i :: rest => ∃ e, StepsFrom F depths top depth i e ∧
      (i.op.fallsThrough → Flow F depths top atEnd (depth + e) rest)

section

variable {F : EffectOf} {depths depths' : BlockId → Option Int} {top top' : Int}

theorem StepsFrom.mono {i : Instr} (h : StepsFrom F depths top depth i e)
    (hdepths : ∀ id d, depths id = some d → depths' id = some d) (htop : top ≤ top') :
    StepsFrom F depths' top' depth i e := by
  refine ⟨h.effect, h.low, Int.le_trans h.high htop, fun target ht => ?_⟩
  obtain ⟨e', he', hlow', hhigh', hd⟩ := h.branch target ht
  exact ⟨e', he', hlow', Int.le_trans hhigh' htop, hdepths target _ hd⟩

theorem Flow.mono {atEnd atEnd' : Int → Prop} {is : List Instr}
    (h : Flow F depths top atEnd depth is)
    (hdepths : ∀ id d, depths id = some d → depths' id = some d) (htop : top ≤ top')
    (hend : ∀ d, atEnd d → atEnd' d) : Flow F depths' top' atEnd' depth is := by
  induction is generalizing depth with
  | nil => exact hend depth h
  | cons i is ih =>
    obtain ⟨e, hstep, hrest⟩ := h
    exact ⟨e, hstep.mono hdepths htop, fun hfall => ih (hrest hfall)⟩

end

namespace DepthSearch

variable {s t u : DepthSearch}

def depth? (s : DepthSearch) (id : BlockId) : Option Int :=
  (s.depths[id]?).join

/-- All depths found are between zero and the greatest one. -/
def Bounded (s : DepthSearch) : Prop :=
  ∀ id d, s.depth? id = some d → 0 ≤ d ∧ d ≤ s.deepest

/-- The steps that the search has left: a block without a depth may have to wait, and one that
waits has to be followed. -/
def budget (s : DepthSearch) : Nat :=
  s.depths.count none + s.waiting.length

/-- The second search knows what the first one knows, and what is new in it waits. -/
structure Grows (s t : DepthSearch) : Prop where
  known : ∀ id d, s.depth? id = some d → t.depth? id = some d
  deepest : s.deepest ≤ t.deepest
  fresh : ∀ id d, t.depth? id = some d → s.depth? id = some d ∨ id ∈ t.waiting
  waiting : s.waiting ⊆ t.waiting
  entered : ∀ id ∈ t.waiting, id ∈ s.waiting ∨ ∃ d, t.depth? id = some d
  budget : t.budget = s.budget
  bounded : s.Bounded → t.Bounded

theorem Grows.refl (s : DepthSearch) : Grows s s :=
  ⟨fun _ _ h => h, Int.le_refl _, fun _ _ h => Or.inl h, fun _ h => h, fun _ h => Or.inl h, rfl,
    fun h => h⟩

theorem Grows.trans (hs : Grows s t) (ht : Grows t u) : Grows s u := by
  refine ⟨fun id d h => ht.known id d (hs.known id d h), Int.le_trans hs.deepest ht.deepest, ?_,
    fun id h => ht.waiting (hs.waiting h), ?_, ht.budget.trans hs.budget,
    fun h => ht.bounded (hs.bounded h)⟩
  · intro id d h
    rcases ht.fresh id d h with h | h
    · exact (hs.fresh id d h).imp_right fun hw => ht.waiting hw
    · exact Or.inr h
  · intro id h
    rcases ht.entered id h with h | h
    · exact (hs.entered id h).imp_right fun ⟨d, hd⟩ => ⟨d, ht.known id d hd⟩
    · exact Or.inr h

theorem Grows.raise (s : DepthSearch) (d : Int) :
    Grows s { s with deepest := max s.deepest d } := by
  refine ⟨fun _ _ h => h, Int.le_max_left .., fun _ _ h => Or.inl h, fun _ h => h,
    fun _ h => Or.inl h, rfl, ?_⟩
  intro h id d' hd
  obtain ⟨hlow, hhigh⟩ := h id d' hd
  exact ⟨hlow, Int.le_trans hhigh (Int.le_max_left ..)⟩

theorem enter_spec (hdepth : depth ≤ s.deepest) (h : s.enter id depth = .ok t) :
    Grows s t ∧ t.depth? id = some depth ∧ 0 ≤ depth ∧ t.deepest = s.deepest := by
  unfold enter at h
  split_ifs at h with hneg
  · simp at h
  split at h
  · simp at h
  · rename_i known hknown
    split_ifs at h with heq
    · obtain rfl := ok.inj h
      exact ⟨.refl s, by simp [depth?, hknown, heq], by omega, rfl⟩
    · simp at h
  · rename_i hnone
    obtain rfl := ok.inj h
    obtain ⟨hlt, hget⟩ := Array.getElem?_eq_some_iff.mp hnone
    have hnew : ∀ j, depth? { s with
        depths := s.depths.setIfInBounds id (some depth), waiting := id :: s.waiting } j =
          if id = j then some depth else s.depth? j := by
      intro j
      simp only [depth?, Array.getElem?_setIfInBounds]
      split_ifs <;> simp_all
    refine ⟨⟨?_, Int.le_refl _, ?_, ?_, ?_, ?_, ?_⟩, by simp [hnew], by omega, rfl⟩
    · intro j d hj
      rw [hnew, if_neg]
      · exact hj
      · rintro rfl
        simp [depth?, hnone] at hj
    · intro j d hj
      rw [hnew] at hj
      split_ifs at hj with hid
      · exact Or.inr (by simp [hid])
      · exact Or.inl hj
    · intro j hj
      simp [hj]
    · intro j hj
      rcases List.mem_cons.mp hj with rfl | hj
      · exact Or.inr ⟨depth, by simp [hnew]⟩
      · exact Or.inl hj
    · simp only [budget, List.length_cons, Array.setIfInBounds, hlt, dif_pos, Array.count_set, hget]
      have hpos : 0 < s.depths.count none := Array.count_pos_iff.mpr (hget ▸ Array.getElem_mem hlt)
      simp
      omega
    · intro hb j d hj
      rw [hnew] at hj
      split_ifs at hj
      · obtain rfl : depth = d := by simpa using hj
        exact ⟨by omega, hdepth⟩
      · exact hb j d hj

theorem branch_spec {i : Instr} (h : s.branch depth i = .ok t) :
    Grows s t ∧ ∀ target, i.target = some target → ∃ e', i.op.stackEffect i.arg true = .ok e' ∧
      0 ≤ depth + e' ∧ depth + e' ≤ t.deepest ∧ t.depth? target = some (depth + e') := by
  unfold branch at h
  cases htarget : i.target with
  | none =>
    simp only [htarget] at h
    obtain rfl := ok.inj h
    exact ⟨.refl s, by simp⟩
  | some target =>
    simp only [htarget] at h
    obtain ⟨e', he', h⟩ := bind_eq_ok.mp h
    obtain ⟨hgrows, hdepth, hlow, hdeepest⟩ := enter_spec (Int.le_max_right ..) h
    refine ⟨(Grows.raise s _).trans hgrows, ?_⟩
    intro target' ht
    obtain rfl : target = target' := by simpa using ht
    refine ⟨e', he', hlow, ?_, hdepth⟩
    rw [hdeepest]
    exact Int.le_max_right ..

theorem follow_spec {is : List Instr} (hdepth : depth ≤ s.deepest)
    (h : follow id s depth is = .ok (t, atEnd)) :
    Grows s t ∧ Flow Operation.stackEffect t.depth? t.deepest (fun d => atEnd = some d) depth is ∧
      ∀ d, atEnd = some d → d ≤ t.deepest := by
  induction is generalizing s depth with
  | nil =>
    obtain ⟨rfl, rfl⟩ : s = t ∧ some depth = atEnd := by simpa [follow] using h
    refine ⟨.refl s, rfl, fun d hd => ?_⟩
    obtain rfl := Option.some.inj hd
    exact hdepth
  | cons i is ih =>
    rw [follow] at h
    obtain ⟨e, he, h⟩ := bind_eq_ok.mp h
    dsimp only at h
    split at h
    · simp at h
    rename_i hneg
    obtain ⟨s', hs', h⟩ := bind_eq_ok.mp h
    obtain ⟨hgrows, hbranch⟩ := branch_spec hs'
    have hs := (Grows.raise s (depth + e)).trans hgrows
    have hafter : depth + e ≤ s'.deepest := Int.le_trans (Int.le_max_right ..) hgrows.deepest
    have hstep : StepsFrom Operation.stackEffect s'.depth? s'.deepest depth i e :=
      ⟨he, by omega, hafter, hbranch⟩
    split at h
    · simp at h
    split at h
    · obtain ⟨ht, hflow, hend⟩ := ih hafter h
      exact ⟨hs.trans ht, ⟨e, hstep.mono ht.known ht.deepest, fun _ => hflow⟩, hend⟩
    · rename_i hfall
      obtain ⟨rfl, rfl⟩ : s' = t ∧ none = atEnd := by simpa using h
      exact ⟨hs, ⟨e, hstep, fun h => absurd h hfall⟩, by simp⟩

theorem leave_spec {next : Option BlockId} (hend : ∀ d, atEnd = some d → d ≤ s.deepest)
    (h : s.leave atEnd next = .ok t) :
    Grows s t ∧ ∀ d n, atEnd = some d → next = some n → t.depth? n = some d := by
  unfold leave at h
  split at h
  · rename_i depth n
    obtain ⟨hgrows, hdepth, -⟩ := enter_spec (hend depth rfl) h
    refine ⟨hgrows, ?_⟩
    rintro d n' hd hn
    obtain rfl := Option.some.inj hd
    obtain rfl := Option.some.inj hn
    exact hdepth
  · rename_i hnot
    obtain rfl := ok.inj h
    exact ⟨.refl s, fun d n hd hn => (hnot d n hd hn).elim⟩

end DepthSearch

namespace Graph

variable {g : Graph} {s t : DepthSearch} {flags : CodeFlags}

/-- The depths agree along a block: inside of it, along its branches, and at its end. -/
def FlowsAt (g : Graph) (s : DepthSearch) (id : BlockId) (d : Int) : Prop :=
  Flow Operation.stackEffect s.depth? s.deepest
    (fun d' => ∀ next, (g.block id).next = some next → s.depth? next = some d') d
    (g.block id).instrs

/-- The state of the search between two blocks: what does not wait has been followed. -/
structure Searching (g : Graph) (s : DepthSearch) : Prop where
  bounded : s.Bounded
  flows : ∀ id d, s.depth? id = some d → id ∈ s.waiting ∨ g.FlowsAt s id d
  known : ∀ id ∈ s.waiting, ∃ d, s.depth? id = some d

theorem FlowsAt.grows {d : Int} (h : g.FlowsAt s id d) (hst : s.Grows t) : g.FlowsAt t id d :=
  h.mono hst.known hst.deepest fun _ hd next hnext => hst.known next _ (hd next hnext)

/-- Following one block keeps the state of the search and takes one step of its budget. -/
theorem Searching.step {waiting : List BlockId} {s₁ s₂ : DepthSearch} (hs : g.Searching s)
    (hwait : s.waiting = id :: waiting)
    (hfollow : { s with waiting := waiting }.follow id (((s.depths[id]?).join).getD 0)
      (g.block id).instrs = .ok (s₁, atEnd)) (hleave : s₁.leave atEnd (g.block id).next = .ok s₂) :
    g.Searching s₂ ∧ s₂.budget + 1 = s.budget ∧
      ∀ j d, s.depth? j = some d → s₂.depth? j = some d := by
  obtain ⟨d, hd⟩ := hs.known id (by simp [hwait])
  have hdepth : ((s.depths[id]?).join).getD 0 = d := by
    rw [depth?] at hd
    rw [hd, Option.getD_some]
  rw [hdepth] at hfollow
  set s₀ : DepthSearch := { s with waiting := waiting } with hs₀
  obtain ⟨hgrows₁, hflow, hend⟩ := follow_spec (s := s₀) (hs.bounded id d hd).2 hfollow
  obtain ⟨hgrows₂, hnext⟩ := leave_spec hend hleave
  have hgrows : s₀.Grows s₂ := hgrows₁.trans hgrows₂
  refine ⟨⟨hgrows.bounded hs.bounded, ?_, ?_⟩, ?_, hgrows.known⟩
  · intro j d' hj
    rcases hgrows.fresh j d' hj with hold | hnew
    · rcases hs.flows j d' hold with hw | hf
      · rw [hwait] at hw
        rcases List.mem_cons.mp hw with rfl | hw
        · obtain rfl : d = d' := Option.some.inj (hd.symm.trans hold)
          refine Or.inr (hflow.mono hgrows₂.known hgrows₂.deepest ?_)
          exact fun e he next hn => hnext e next he hn
        · exact Or.inl (hgrows.waiting hw)
      · exact Or.inr (FlowsAt.grows (s := s₀) hf hgrows)
    · exact Or.inl hnew
  · intro j hj
    rcases hgrows.entered j hj with hw | hd'
    · obtain ⟨d', hd'⟩ := hs.known j (by rw [hwait]; exact List.mem_cons_of_mem _ hw)
      exact ⟨d', hgrows.known j d' hd'⟩
    · exact hd'
  · rw [hgrows.budget]
    simp only [budget, hs₀, hwait, List.length_cons]
    omega

/-- With enough steps the search ends with nothing left to follow. -/
theorem followBlocks_spec {fuel : Nat} (hs : g.Searching s) (hfuel : s.budget ≤ fuel)
    (h : g.followBlocks fuel s = .ok t) : g.Searching t ∧ t.waiting = [] ∧
      ∀ j d, s.depth? j = some d → t.depth? j = some d := by
  induction fuel generalizing s with
  | zero =>
    obtain rfl := ok.inj h
    have hlength : s.waiting.length = 0 := by
      simp only [budget] at hfuel
      omega
    exact ⟨hs, List.length_eq_zero_iff.mp hlength, fun _ _ h => h⟩
  | succ fuel ih =>
    rw [followBlocks] at h
    split at h
    · rename_i hnil
      obtain rfl := ok.inj h
      exact ⟨hs, hnil, fun _ _ h => h⟩
    · rename_i id waiting hwait
      obtain ⟨⟨s₁, atEnd⟩, hfollow, h⟩ := bind_eq_ok.mp h
      obtain ⟨s₂, hleave, h⟩ := bind_eq_ok.mp h
      obtain ⟨hs₂, hbudget, hknown⟩ := hs.step hwait hfollow hleave
      obtain ⟨ht, hnil, hknown'⟩ := ih hs₂ (by omega) h
      exact ⟨ht, hnil, fun j d hj => hknown' j d (hknown j d hj)⟩

def startDepth (flags : CodeFlags) : Int :=
  if flags.suspends then 1 else 0

/-- What the search found agrees along every edge of the graph. -/
structure Depths (g : Graph) (flags : CodeFlags) (s : DepthSearch) : Prop where
  entry : s.depth? g.entry = some (startDepth flags)
  bounded : s.Bounded
  flows : ∀ id d, s.depth? id = some d → g.FlowsAt s id d

def unsearched (g : Graph) (flags : CodeFlags) : DepthSearch where
  depths := Array.replicate g.blocks.size none
  deepest := startDepth flags

@[simp] theorem depth?_unsearched (flags : CodeFlags) (id : BlockId) :
    (g.unsearched flags).depth? id = none := by
  simp only [depth?, unsearched, Array.getElem?_replicate]
  split_ifs <;> rfl

theorem searching_start (h : (g.unsearched flags).enter g.entry (startDepth flags) = .ok s) :
    g.Searching s ∧ s.depth? g.entry = some (startDepth flags) ∧ s.budget = g.blocks.size := by
  obtain ⟨hgrows, hentry, -⟩ := enter_spec (Int.le_refl _) h
  refine ⟨⟨hgrows.bounded fun id d hd => ?_, fun id d hd => ?_, fun id hid => ?_⟩, hentry, ?_⟩
  · simp at hd
  · exact Or.inl ((hgrows.fresh id d hd).resolve_left (by simp))
  · exact (hgrows.entered id hid).resolve_left (by simp [unsearched])
  · rw [hgrows.budget]
    simp [budget, unsearched]

theorem stackDepths_spec (h : g.stackDepths flags = .ok s) : g.Depths flags s := by
  obtain ⟨s₁, hs₁, h⟩ := bind_eq_ok.mp h
  obtain ⟨hsearching, hentry, hbudget⟩ := searching_start hs₁
  obtain ⟨hs, hnil, hknown⟩ := followBlocks_spec hsearching (Nat.le_of_eq hbudget) h
  refine ⟨hknown _ _ hentry, hs.bounded, fun id d hd => ?_⟩
  exact (hs.flows id d hd).resolve_left (by simp [hnil])

end Graph

end Bytecode
