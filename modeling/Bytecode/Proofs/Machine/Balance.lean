import Bytecode.Proofs.Machine.Behaviour
import Bytecode.Proofs.Machine.StraightLine

/-!
# Balance

A path through a graph is known by the height of the stack and the open handlers where it stands. A
graph is balanced if on no path an instruction finds too little on the stack, cuts into what a
handler counts on, or closes a handler that is not there. The machine never goes wrong in a balanced
graph: every run stays on the paths.
-/

namespace Bytecode

open List Operation

variable {op : Operation} {is : List Instr} {e : Int} {arg : Nat}

namespace Meaning

/-- The change of the stack's height, where the meaning of an operation tells it. -/
def effect? : Meaning → (arg : Nat) → (taken : Bool) → Option Int
  | .drop, _, _ | .store, _, _ | .identity, _, _ | .popJump _, _, _ | .noneJump _, _, _
  | .answer, _, _ => some (-1)
  | .idle, _, _ | .exchange, _, _ | .unbind, _, _ | .jump, _, _ | .unguard, _, _
  | .keywords, _, _ | .answerConstant, _, _ | .suspend, _, _ | .guard, _, false => some 0
  | .duplicate, _, _ | .constant, _, _ | .load, _, _ | .mark, _, _ => some 1
  | .tuple, arg, _ => some (1 - arg)
  | .unpack, arg, _ => some (arg - 1)
  | .global, arg, _ => some (1 + arg % 2)
  | .keepJump _, _, taken => some (if taken then 0 else -1)
  | .choose, _, _ | .throw, _, _ | .guard, _, true | .perform, _, _ => none

end Meaning

namespace Operation

theorem effect_of_meaning (op : Operation) {jump : Bool}
    (h : op.meaning.effect? arg jump = some e) : op.effect arg jump = .ok e := by
  obtain rfl | rfl := Bool.eq_false_or_eq_true jump
  all_goals rcases op with op | op <;> cases op <;> cases h <;> rfl

theorem le_of_fits {height : Nat} (hfits : op.fits arg height)
    (heffect : op.effect arg false = .ok e) : 0 ≤ (height : Int) + e := by
  unfold fits at hfits
  rw [heffect] at hfits
  simpa using hfits

theorem hasTarget_of_isJump (h : op.isJump) : op.hasTarget := by
  simp [hasTarget, h]

theorem hasTarget_of_guard (h : op.meaning = .guard) : op.hasTarget := by
  simp [hasTarget, isBlockPush_eq, h]

theorem exists_effect_of_choose (hop : op.meaning = .choose) (taken : Bool) :
    ∃ e, ∀ arg, op.effect arg taken = .ok e := by
  have hchoice : op = .real .forIter ∨ op = .real .send := by
    rcases op with op | op <;> cases op <;> simp [meaning] at hop ⊢
  rcases hchoice with rfl | rfl <;> exact ⟨_, fun _ => rfl⟩

/-- Whether the values that an operation only looks at are on the stack. -/
def reaches (op : Operation) (arg height : Nat) : Bool :=
  match op.meaning with
  | .exchange | .duplicate => 1 ≤ arg && arg ≤ height
  | .tuple => arg ≤ height
  | .unpack | .choose => 1 ≤ height
  | .identity => 2 ≤ height
  | .guard => (op.guardHeight? height).isSome
  | _ => true

theorem effect_of_guardHeight? {height cut : Nat} (hop : op.meaning = .guard)
    (hcut : op.guardHeight? height = some cut) (arg : Nat) :
    ∃ e, op.effect arg true = .ok e ∧
      ((cut + if op.keepsPosition then 2 else 1 : Nat) : Int) = height + e := by
  have hpush : op = .pseudo .setupFinally ∨ op = .pseudo .setupCleanup ∨
      op = .pseudo .setupWith := by
    rcases op with op | op <;> cases op <;> simp [meaning] at hop ⊢
  unfold guardHeight? at hcut
  rcases hpush with rfl | rfl | rfl
  · obtain rfl : height = cut := by simpa using hcut
    exact ⟨1, rfl, by simp [keepsPosition]⟩
  · obtain rfl : height = cut := by simpa using hcut
    exact ⟨2, rfl, by simp [keepsPosition]⟩
  · simp only [reduceIte] at hcut
    split_ifs at hcut with hzero
    obtain rfl : height - 1 = cut := by simpa using hcut
    refine ⟨1, rfl, ?_⟩
    simp only [keepsPosition, reduceIte]
    omega

end Operation

/-! ### Paths -/

/-- What is known of a frame where a path stands. -/
structure Shape where
  /-- The height of the stack. -/
  height : Nat
  handlers : List OpenHandler
deriving DecidableEq

def Shape.cover (s : Shape) : Nat :=
  s.handlers.head?.elim 0 (·.height)

namespace Instr

/-- How an instruction that refers to the given block goes on to the next. -/
inductive Advances (i : Instr) (dest : Option BlockId) : Shape → Shape → Prop where
  | plain {height height' : Nat} {e : Int} {handlers : List OpenHandler}
      (hguard : i.op.meaning ≠ .guard) (hunguard : i.op.meaning ≠ .unguard)
      (heffect : i.op.effect i.arg false = .ok e) (hheight : (height' : Int) = height + e) :
      Advances i dest ⟨height, handlers⟩ ⟨height', handlers⟩
  | guard {target : BlockId} {height cut : Nat} {handlers : List OpenHandler}
      (hguard : i.op.meaning = .guard) (hdest : dest = some target)
      (hcut : i.op.guardHeight? height = some cut) :
      Advances i dest ⟨height, handlers⟩ ⟨height, ⟨target, cut, i.op.keepsPosition⟩ :: handlers⟩
  | unguard {height : Nat} {o : OpenHandler} {handlers : List OpenHandler}
      (hunguard : i.op.meaning = .unguard) :
      Advances i dest ⟨height, o :: handlers⟩ ⟨height, handlers⟩

/-- How an instruction gets to the block that it refers to, be it a jump or the opening of a
handler. -/
def Branches (i : Instr) (s s' : Shape) : Prop :=
  ∃ e, i.op.effect i.arg true = .ok e ∧ (s'.height : Int) = s.height + e ∧ s'.handlers = s.handlers

/-- The instruction finds what it takes from the stack and what it only looks at, a handler if it
closes one, and on the stack what the innermost handler counts on. -/
structure Suits (i : Instr) (s : Shape) : Prop where
  fits : i.op.fits i.arg s.height
  reaches : i.op.reaches i.arg s.height
  closes : i.op.meaning = .unguard → s.handlers ≠ []
  covers : s.cover ≤ s.height

end Instr

namespace Graph

variable {g : Graph} {start : Nat}

/-- A path from the entry of a graph stands before the given instructions, which are the rest of a
block. -/
inductive Visits (g : Graph) (start : Nat) : BlockId → List Instr → Shape → Prop where
  | entry : Visits g start g.entry (g.block g.entry).instrs ⟨start, []⟩
  | next {id : BlockId} {i : Instr} {rest : List Instr} {s s' : Shape}
      (h : Visits g start id (i :: rest) s) (hfall : i.op.fallsThrough)
      (hadvance : i.Advances i.target s s') : Visits g start id rest s'
  | branch {id target : BlockId} {i : Instr} {rest : List Instr} {s s' : Shape}
      (h : Visits g start id (i :: rest) s) (hop : i.op.hasTarget)
      (htarget : i.target = some target) (hbranch : i.Branches s s') :
      Visits g start target (g.block target).instrs s'
  | fall {id next : BlockId} {s : Shape} (h : Visits g start id [] s)
      (hnext : (g.block id).next = some next) : Visits g start next (g.block next).instrs s

/-- Wherever a path gets, the instruction finds what it needs, and the path can go on: along the
branch, and behind the end of the block. -/
structure Sound (g : Graph) (start : Nat) : Prop where
  suits : ∀ {id i rest s}, g.Visits start id (i :: rest) s → i.Suits s
  target : ∀ {id i rest s}, g.Visits start id (i :: rest) s → i.op.hasTarget →
    i.target.isSome ∧ ∃ s', i.Branches s s'
  goesOn : ∀ {id s}, g.Visits start id [] s → (g.block id).next.isSome

/-- Wherever a path gets, the constant that the instruction asks for is there. -/
def FindsConstants (g : Graph) (start : Nat) (cs : List Constant) : Prop :=
  ∀ {id i rest s}, g.Visits start id (i :: rest) s →
    i.op.meaning ∈ [.constant, .answerConstant, .keywords] → i.arg < cs.length

theorem Visits.isSuffix {id : BlockId} {s : Shape} (h : g.Visits start id is s) :
    is <:+ (g.block id).instrs := by
  induction h with
  | next _ _ _ ih => exact (suffix_cons ..).trans ih
  | _ => exact suffix_rfl

theorem findsConstants {cs : List Constant} (h : ∀ b ∈ g.blocks, ∀ i ∈ b.instrs,
    i.op.meaning ∈ [.constant, .answerConstant, .keywords] → i.arg < cs.length) :
    g.FindsConstants start cs := by
  intro id i rest s hvisit
  have hmem : i ∈ (g.block id).instrs := hvisit.isSuffix.subset (mem_cons_self ..)
  unfold block at hmem
  cases hblock : g.blocks[id]? with
  | none => simp [hblock] at hmem
  | some b =>
    rw [hblock] at hmem
    exact h b (Array.mem_of_getElem? hblock) i hmem

/-- Every open handler is found by a path as a fault would find it. -/
def Awaits (g : Graph) (start : Nat) : List OpenHandler → Prop
  | [] => True
  | o :: handlers => g.Visits start o.target (g.block o.target).instrs
      ⟨o.height + if o.keepsPosition then 2 else 1, handlers⟩ ∧ g.Awaits start handlers

theorem Visits.awaits {id : BlockId} {s : Shape} (h : g.Visits start id is s) :
    g.Awaits start s.handlers := by
  induction h with
  | entry => trivial
  | @next _ i _ _ _ h _ hadvance ih =>
    cases hadvance with
    | plain _ _ _ _ => exact ih
    | guard hguard htarget hcut =>
      obtain ⟨e, heffect, hheight⟩ := effect_of_guardHeight? hguard hcut i.arg
      have hop : i.op.hasTarget := hasTarget_of_guard hguard
      exact ⟨.branch h hop htarget ⟨e, heffect, hheight, rfl⟩, ih⟩
    | unguard _ => exact ih.2
  | branch _ _ _ hbranch ih =>
    obtain ⟨_, _, _, hhandlers⟩ := hbranch
    rw [hhandlers]
    exact ih
  | fall _ _ ih => exact ih

end Graph

/-! ### Runs stay on the paths -/

section

variable {V W E α : Type} {M : Machine V W E} {g : Graph} {start : Nat} {id : BlockId}
  {i : Instr} {rest : List Instr} {s t : State V W E} {cs : List Constant}

def State.shape (s : State V W E) : Shape :=
  ⟨s.stack.length, s.handlers⟩

@[simp] theorem State.height_shape (s : State V W E) : s.shape.height = s.stack.length := rfl

@[simp] theorem State.handlers_shape (s : State V W E) : s.shape.handlers = s.handlers := rfl

/-- Where control goes, there is a path. -/
def Step.OnPath (g : Graph) (start : Nat) (id : BlockId) (rest : List Instr) :
    Step V W E → Prop
  | .next s => g.Visits start id rest s.shape
  | .jump target s => g.Visits start target (g.block target).instrs s.shape
  | .done _ => True
  | .wrong => False

namespace Step.OnPath

theorem raise (hpath : g.Awaits start t.handlers) (hcovers : t.shape.cover ≤ t.stack.length)
    (e : V) : (M.raise e t).OnPath g start id rest := by
  unfold Machine.raise
  cases hh : t.handlers with
  | nil => trivial
  | cons o handlers =>
    rw [hh] at hpath
    have hlow : o.height ≤ t.stack.length := by simpa [State.shape, Shape.cover, hh] using hcovers
    dsimp only [OnPath]
    convert hpath.1 using 1
    rw [State.shape, Shape.mk.injEq]
    refine ⟨?_, rfl⟩
    split_ifs
    all_goals
      simp only [length_cons, length_drop]
      omega

theorem settle (hpath : g.Awaits start t.handlers) (hcovers : t.shape.cover ≤ t.stack.length)
    (r : Reply V W E (Except V α)) {f : State V W E → α → Step V W E}
    (hf : ∀ a, r.result = .ok a → (f (t.after r) a).OnPath g start id rest) :
    (M.settle t r f).OnPath g start id rest := by
  unfold Machine.settle
  cases hr : r.result with
  | ok a => exact hf a hr
  | error e => exact .raise (t := t.after r) hpath hcovers e

theorem leap (hpath : g.Visits start id (i :: rest) s.shape) (hop : i.op.isJump)
    (htarget : i.target.isSome) (heffect : i.op.effect i.arg true = .ok e)
    (hheight : (t.stack.length : Int) = s.stack.length + e) (hhandlers : t.handlers = s.handlers) :
    (t.leap i.target).OnPath g start id rest := by
  obtain ⟨target, htarget⟩ := Option.isSome_iff_exists.mp htarget
  rw [htarget]
  exact .branch hpath (hasTarget_of_isJump hop) htarget ⟨e, heffect, hheight, hhandlers⟩

end Step.OnPath

theorem Graph.Visits.onward (hpath : g.Visits start id (i :: rest) s.shape)
    (hmeaning : i.op.meaning.fallsThrough ∧ i.op.meaning ≠ .guard ∧ i.op.meaning ≠ .unguard)
    (heffect : i.op.effect i.arg false = .ok e)
    (hheight : (t.stack.length : Int) = s.stack.length + e) (hhandlers : t.handlers = s.handlers) :
    (Step.next t).OnPath g start id rest := by
  obtain ⟨hfall, hguard, hunguard⟩ := hmeaning
  have hadvance : i.Advances i.target s.shape t.shape := by
    unfold State.shape
    rw [hhandlers]
    exact .plain hguard hunguard heffect hheight
  exact .next hpath (i.op.fallsThrough_eq.trans hfall) hadvance

theorem Step.OnPath.carryOut (hg : g.Sound start) (hpath : g.Visits start id (i :: rest) s.shape)
    (hmeaning : i.op.meaning.fallsThrough ∧ i.op.meaning ≠ .guard ∧ i.op.meaning ≠ .unguard)
    (harg : i.op.effect arg false = i.op.effect i.arg false) :
    (M.carryOut i.op arg s).OnPath g start id rest := by
  have hsuits := hg.suits hpath
  have hfits : i.op.fits i.arg s.stack.length := hsuits.fits
  unfold fits at hfits
  unfold Machine.carryOut fits
  rw [harg]
  split at hfits
  · rename_i e heffect
    rw [if_pos hfits]
    apply settle hpath.awaits hsuits.covers
    intro stack hstack
    have hlength := M.length_perform i.op arg s.view stack e hstack (harg.trans heffect)
    exact hpath.onward hmeaning heffect hlength rfl
  · cases hfits

/-- An instruction on a path does not go wrong, and control stays on a path. -/
theorem Machine.exec_onPath (hg : g.Sound start) (hconstants : g.FindsConstants start cs)
    (hpath : g.Visits start id (i :: rest) s.shape) :
    (M.exec cs i s).OnPath g start id rest := by
  have hawaits := hpath.awaits
  obtain ⟨hfits, hreaches, hcloses, hcovers⟩ := hg.suits hpath
  rw [State.height_shape] at hfits hreaches hcovers
  have htarget := fun h => (hg.target hpath h).1
  have heffect : ∀ taken e, i.op.meaning.effect? i.arg taken = some e →
      i.op.effect i.arg taken = .ok e := fun _ _ h => i.op.effect_of_meaning h
  -- What takes a value and pushes none finds one.
  have hpop : i.op.meaning.effect? i.arg false = some (-1) →
      ∃ v below, s.stack = v :: below ∧ (below.length : Int) = s.stack.length + -1 := by
    intro h
    have hlow := le_of_fits hfits (heffect false _ h)
    cases hs : s.stack with
    | nil => simp [hs] at hlow
    | cons v below => exact ⟨v, below, rfl, by simp only [length_cons]; omega⟩
  have honward : ∀ (t : State V W E) (e : Int), i.op.meaning.effect? i.arg false = some e →
      i.op.meaning.fallsThrough ∧ i.op.meaning ≠ .guard ∧ i.op.meaning ≠ .unguard →
      (t.stack.length : Int) = s.stack.length + e → t.handlers = s.handlers →
      (Step.next t).OnPath g start id rest :=
    fun t e he hm hheight hh => hpath.onward hm (heffect false e he) hheight hh
  have hleap : ∀ (t : State V W E) (e : Int), i.op.meaning.effect? i.arg true = some e →
      i.op.isJump → (t.stack.length : Int) = s.stack.length + e → t.handlers = s.handlers →
      (t.leap i.target).OnPath g start id rest :=
    fun t e he hj hheight hh => .leap hpath hj (htarget (hasTarget_of_isJump hj))
      (heffect true e he) hheight hh
  have hjump := i.op.isJump_eq
  have hconst := hconstants hpath
  unfold reaches at hreaches
  unfold exec
  cases hm : i.op.meaning <;> simp only [hm] at hreaches honward hleap heffect hconst hjump hpop ⊢
  case idle => exact honward s 0 rfl (by decide) (by simp) rfl
  case drop | store =>
    obtain ⟨v, below, hs, hbelow⟩ := hpop rfl
    rw [hs]
    exact honward _ (-1) rfl (by decide) hbelow rfl
  case exchange =>
    obtain ⟨hpos, hle⟩ : 1 ≤ i.arg ∧ i.arg ≤ s.stack.length := by simpa using hreaches
    obtain ⟨stack, hstack, hlength, -⟩ := exchangeTop_spec hpos hle
    rw [hstack]
    exact honward _ 0 rfl (by decide) (by simp [hlength]) rfl
  case duplicate =>
    obtain ⟨hpos, hle⟩ : 1 ≤ i.arg ∧ i.arg ≤ s.stack.length := by simpa using hreaches
    obtain ⟨v, hv⟩ : ∃ v, s.stack[i.arg - 1]? = some v := ⟨_, getElem?_eq_getElem (by omega)⟩
    split
    · exact honward _ 1 rfl (by decide) (by simp [State.push]) rfl
    · rename_i hnot
      exact hnot (i.arg - 1) v (by omega) hv
  case constant =>
    rw [getElem?_eq_getElem (hconst (by simp))]
    exact honward _ 1 rfl (by decide) (by simp [State.push]) rfl
  case load =>
    split
    · exact honward _ 1 rfl (by decide) (by simp [State.push]) rfl
    · exact .raise hawaits hcovers _
  case unbind =>
    split
    · exact honward _ 0 rfl (by decide) (by simp) rfl
    · exact .raise hawaits hcovers _
  case tuple =>
    have hle : i.arg ≤ s.stack.length := by simpa using hreaches
    rw [if_pos hle]
    refine honward _ (1 - i.arg) rfl (by decide) ?_ rfl
    simp only [length_cons, length_drop]
    omega
  case unpack =>
    have hpos : 1 ≤ s.stack.length := by simpa using hreaches
    obtain ⟨v, below, hs⟩ := exists_cons_of_length_pos hpos
    rw [hs]
    refine .settle hawaits hcovers _ fun vs hvs => ?_
    refine honward _ (i.arg - 1) rfl (by decide) ?_ rfl
    simp only [hs, length_append, length_cons, M.length_unpack _ _ _ _ hvs]
    omega
  case identity =>
    have hle : 2 ≤ s.stack.length := by simpa using hreaches
    split
    · rename_i hs
      exact honward _ (-1) rfl (by decide) (by simp only [hs, length_cons]; omega) rfl
    · rename_i hnot
      obtain ⟨b, below, hs⟩ := exists_cons_of_length_pos (Nat.lt_of_lt_of_le Nat.two_pos hle)
      rw [hs, length_cons] at hle
      obtain ⟨a, below, rfl⟩ := exists_cons_of_length_pos (Nat.le_of_succ_le_succ hle)
      exact hnot b a below hs
  case mark => exact honward _ 1 rfl (by decide) (by simp [State.push]) rfl
  case global =>
    split
    · refine .settle (t := s.push M.null) hawaits (Nat.le_succ_of_le hcovers) _ fun v _ => ?_
      refine honward _ (1 + i.arg % 2) rfl (by decide) ?_ rfl
      simp only [State.push, State.after, length_cons]
      omega
    · refine .settle hawaits hcovers _ fun v _ => ?_
      refine honward _ (1 + i.arg % 2) rfl (by decide) ?_ rfl
      simp only [State.push, State.after, length_cons]
      omega
  case jump => exact hleap s 0 rfl hjump (by simp) rfl
  case popJump | noneJump =>
    obtain ⟨v, below, hs, hbelow⟩ := hpop rfl
    rw [hs]
    dsimp only
    split
    · exact hleap _ (-1) rfl hjump hbelow rfl
    · exact honward _ (-1) rfl ⟨rfl, by simp, by simp⟩ hbelow rfl
  case keepJump =>
    obtain ⟨v, below, hs, hbelow⟩ := hpop rfl
    rw [hs]
    dsimp only
    split
    · exact hleap _ 0 rfl hjump (by simp) rfl
    · exact honward _ (-1) rfl ⟨rfl, by simp, by simp⟩ hbelow rfl
  case choose =>
    have hpos : 1 ≤ s.stack.length := by simpa using hreaches
    rw [if_neg (by simpa using ne_nil_of_length_pos hpos)]
    refine .settle hawaits hcovers _ fun a ha => ?_
    obtain ⟨e, heffect⟩ := exists_effect_of_choose hm a.1
    have hlength := M.length_choose i.op s.view a.1 a.2 e ha (heffect 0)
    replace heffect := heffect i.arg
    split
    · rename_i htaken
      rw [htaken] at heffect
      exact .leap hpath hjump (htarget (hasTarget_of_isJump hjump)) heffect hlength rfl
    · rename_i htaken
      rw [(Bool.not_eq_true _).mp htaken] at heffect
      exact hpath.onward (by simp [hm, Meaning.fallsThrough, Meaning.isScopeExit]) heffect hlength
        rfl
  case answer =>
    obtain ⟨v, below, hs, hbelow⟩ := hpop rfl
    rw [hs]
    trivial
  case answerConstant =>
    rw [getElem?_eq_getElem (hconst (by simp))]
    trivial
  case throw =>
    rw [if_pos hfits]
    exact .raise (t := s.after _) hawaits hcovers _
  case guard =>
    obtain ⟨target, ht⟩ := Option.isSome_iff_exists.mp (htarget (hasTarget_of_guard hm))
    obtain ⟨cut, hcut⟩ := Option.isSome_iff_exists.mp hreaches
    rw [ht, hcut]
    exact .next hpath (i.op.fallsThrough_eq.trans (by rw [hm]; rfl)) (.guard hm ht hcut)
  case unguard =>
    cases hh : s.handlers with
    | nil => exact absurd hh (hcloses hm)
    | cons o handlers =>
      have hadvance : i.Advances i.target s.shape ⟨s.stack.length, handlers⟩ := by
        unfold State.shape
        rw [hh]
        exact .unguard hm
      exact .next hpath (i.op.fallsThrough_eq.trans (by rw [hm]; rfl)) hadvance
  case keywords =>
    rw [getElem?_eq_getElem (hconst (by simp))]
    refine .settle hawaits hcovers _ fun stack hstack => ?_
    exact honward _ 0 rfl (by decide) (by simp [M.length_keywords _ _ _ hstack, State.view]) rfl
  case suspend =>
    have hsame : i.op.effect s.handlers.length false = .ok 0 :=
      i.op.effect_of_meaning (by rw [hm]; rfl)
    exact .carryOut hg hpath (by simp [hm, Meaning.fallsThrough, Meaning.isScopeExit])
      (hsame.trans (heffect false 0 rfl).symm)
  case perform =>
    exact .carryOut hg hpath (by simp [hm, Meaning.fallsThrough, Meaning.isScopeExit]) rfl

theorem Machine.run_onPath (hg : g.Sound start) (hconstants : g.FindsConstants start cs)
    (hpath : g.Visits start id is s.shape) : (M.run cs is s).OnPath g start id [] := by
  induction is generalizing s with
  | nil => exact hpath
  | cons i is ih =>
    have hexec := M.exec_onPath hg hconstants hpath
    rw [run_cons]
    cases hstep : M.exec cs i s with
    | next t =>
      rw [hstep] at hexec
      exact ih hexec
    | jump | done | wrong =>
      rw [hstep] at hexec
      exact hexec

def Point.OnPath (g : Graph) (start : Nat) : Point V W E → Prop
  | .running id s => g.Visits start id (g.block id).instrs s.shape
  | .ended _ => True
  | .wrong => False

theorem Machine.step_onPath (hg : g.Sound start) (hconstants : g.FindsConstants start cs)
    {x : Point V W E} (hx : x.OnPath g start) : (M.step ⟨g, cs⟩ x).OnPath g start := by
  cases x with
  | ended e => trivial
  | wrong => exact hx
  | running id s =>
    have hrun := M.run_onPath hg hconstants hx
    simp only [step, hop, Program.instrs]
    cases hout : M.run cs (g.block id).instrs s with
    | next t =>
      rw [hout] at hrun
      obtain ⟨n, hn⟩ := Option.isSome_iff_exists.mp (hg.goesOn hrun)
      simp only [Step.follow, hn]
      exact .fall hrun hn
    | jump | done | wrong =>
      rw [hout] at hrun
      exact hrun

theorem Machine.safe_of_sound (hg : g.Sound s.stack.length)
    (hconstants : g.FindsConstants s.stack.length cs) (hs : s.handlers = []) :
    M.Safe ⟨g, cs⟩ s := by
  intro n hwrong
  have hpath : (M.pointAt ⟨g, cs⟩ s n).OnPath g s.stack.length := by
    clear hwrong
    induction n with
    | zero =>
      show g.Visits _ g.entry (g.block g.entry).instrs s.shape
      unfold State.shape
      rw [hs]
      exact .entry
    | succ n ih =>
      rw [pointAt, Function.iterate_succ_apply']
      exact step_onPath hg hconstants ih
  rw [hwrong] at hpath
  exact hpath

end

end Bytecode
