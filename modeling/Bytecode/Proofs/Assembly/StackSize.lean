import Bytecode.Proofs.Assembly.Handlers
import Bytecode.Proofs.Graph.Depth

/-!
# The stack that a code object asks for

From the start of a code object and from the handlers of its table, by the stack effects of the
instructions alone, the depth stays between zero and the declared stack size, and every instruction
is reached with one depth only.
-/

namespace Bytecode

open List Operation Bytecode.Graph Layout

variable {depth d : Int} {l : Layout} {depths : BlockId → Option Int} {op : Operation}
  {atEnd : Int → Prop} {i : Instr}

/-! ### Depths in the final form -/

theorem Opcode.effectOf_of_direction? {op : Opcode} (h : op.direction? ≠ none) (a b : Nat)
    (jump : Bool) : op.effectOf a jump = op.effectOf b jump := by
  unfold direction? at h
  split at h <;> first | rfl | simp at h

theorem Operation.effect_of_hasCell (h : op.hasCell) (a b : Nat) (jump : Bool) :
    op.effect a jump = op.effect b jump := by
  unfold hasCell at h
  split at h <;> first | rfl | simp at h

theorem Operation.effect_of_isJump (h : op.isJump) (a b : Nat) (jump : Bool) :
    op.effect a jump = op.effect b jump := by
  cases op with
  | real op =>
    exact Opcode.effectOf_of_direction? (by simpa [isJump, Option.isSome_iff_ne_none] using h) a b
      jump
  | pseudo op => rfl

theorem Operation.effect_of_isIdle (h : op.isIdle) (arg : Nat) :
    op.effect arg false = .ok 0 ∧ op.fallsThrough := by
  unfold isIdle at h
  split at h <;> first | exact ⟨rfl, rfl⟩ | simp at h

theorem Instr.LowersTo.effect {j : Instr} (h : i.LowersTo j) :
    j.op.effect j.arg false = i.op.effect i.arg false ∧
      j.op.fallsThrough = i.op.fallsThrough ∧
      ∀ target, j.target = some target → i.target = some target ∧
        j.op.effect j.arg true = i.op.effect i.arg true := by
  cases h with
  | same op target arg =>
    have hsame : ∀ jump, j.op.effect j.arg jump = i.op.effect i.arg jump := by
      intro jump
      rw [op]
      rcases arg with arg | arg | arg
      · rw [arg]
      · exact effect_of_isJump arg _ _ _
      · exact effect_of_hasCell arg _ _ _
    exact ⟨hsame false, by rw [op], fun t ht => ⟨target ▸ ht, hsame true⟩⟩
  | idle op op' target =>
    obtain ⟨heffect, hfall⟩ := effect_of_isIdle op i.arg
    refine ⟨by rw [op', heffect]; rfl, by rw [op', hfall]; rfl, fun t ht => ?_⟩
    simp [target] at ht
  | closure op op' target =>
    rw [op, op', target]
    exact ⟨rfl, rfl, fun t ht => ⟨ht, rfl⟩⟩

theorem Flow.lowered {top : Int} {is js : List Instr} (hl : Lowered is js)
    (h : Flow stackEffect depths top atEnd depth is) :
    Flow effect depths top atEnd depth js := by
  induction hl generalizing depth with
  | nil => exact h
  | keep hij _ ih =>
    obtain ⟨heffect, hfall, htarget⟩ := hij.effect
    obtain ⟨e, ⟨he, hlow, hhigh, hbranch⟩, hrest⟩ := h
    refine ⟨e, ⟨heffect.trans (effect_of_stackEffect he), hlow, hhigh,
      fun target ht => ?_⟩, fun hf => ih (hrest (hfall ▸ hf))⟩
    obtain ⟨ht, htrue⟩ := htarget target ht
    obtain ⟨e', he', hbounds⟩ := hbranch target ht
    exact ⟨e', htrue.trans (effect_of_stackEffect he'), hbounds⟩
  | @drop i is js hi _ ih =>
    obtain ⟨heffect, hfall⟩ := effect_of_isIdle hi i.arg
    obtain ⟨e, hstep, hrest⟩ := h
    obtain rfl : e = 0 := by
      simpa using (effect_of_stackEffect hstep.effect).symm.trans heffect
    simpa using ih (hrest hfall)

def depthsAlong : Option Int → List Instr → List (Option Int)
  | _, [] => []
  | depth, i :: rest =>
    depth :: depthsAlong (depth.bind fun d =>
      if i.op.fallsThrough then (i.op.effect i.arg false).toOption.map (d + ·) else none) rest

@[simp] theorem length_depthsAlong (depth : Option Int) (is : List Instr) :
    (depthsAlong depth is).length = is.length := by
  induction is generalizing depth with
  | nil => rfl
  | cons i is ih => simp [depthsAlong, ih]

theorem depthsAlong_none (is : List Instr) (k : Nat) (d : Int) :
    (depthsAlong none is)[k]? ≠ some (some d) := by
  induction is generalizing k with
  | nil => simp [depthsAlong]
  | cons i is ih =>
    cases k with
    | zero => simp [depthsAlong]
    | succ k => simpa [depthsAlong] using ih k

/-- Where depths agree, an instruction leads to the depth of the next one of its block, or to the
end of the block. -/
theorem Flow.steps {top : Int} {is : List Instr}
    (h : Flow effect depths top atEnd depth is) {k : Nat} (hi : is[k]? = some i)
    (hd : (depthsAlong (some depth) is)[k]? = some (some d)) :
    ∃ e, StepsFrom effect depths top d i e ∧ (i.op.fallsThrough →
      (k + 1 < is.length → (depthsAlong (some depth) is)[k + 1]? = some (some (d + e))) ∧
      (k + 1 = is.length → atEnd (d + e))) := by
  induction is generalizing depth k with
  | nil => simp at hi
  | cons j is ih =>
    obtain ⟨e, hstep, hrest⟩ := h
    have he := hstep.effect
    cases k with
    | zero =>
      obtain rfl : j = i := by simpa using hi
      obtain rfl : depth = d := by simpa [depthsAlong] using hd
      refine ⟨e, hstep, fun hfall => ?_⟩
      have hflow := hrest hfall
      rcases is with _ | ⟨j', is⟩
      · exact ⟨by simp, fun _ => hflow⟩
      · refine ⟨fun _ => ?_, by simp⟩
        simp [depthsAlong, hfall, he, Except.toOption]
    | succ k =>
      by_cases hfall : j.op.fallsThrough
      · have hrun : depthsAlong (some depth) (j :: is) =
            some depth :: depthsAlong (some (depth + e)) is := by
          simp [depthsAlong, hfall, he, Except.toOption]
        rw [hrun] at hd ⊢
        simpa using ih (hrest hfall) (by simpa using hi) (by simpa using hd)
      · simp only [depthsAlong, hfall, Option.bind_some, getElem?_cons_succ] at hd
        exact absurd hd (depthsAlong_none is k d)

namespace Layout

variable {depths : BlockId → Option Int} {next : BlockId → Option BlockId} {top : Int}
  {b : BlockId × List Instr}

def depthsBy (depths : BlockId → Option Int) (l : Layout) : List (Option Int) :=
  l.flatMap fun b => depthsAlong (depths b.1) b.2

@[simp] theorem length_depthsBy (l : Layout) : (l.depthsBy depths).length = l.instrs.length := by
  induction l with
  | nil => rfl
  | cons b l ih => simp [depthsBy, ← ih]

theorem depthsBy_cons (b : BlockId × List Instr) (l : Layout) :
    depthsBy depths (b :: l) = depthsAlong (depths b.1) b.2 ++ l.depthsBy depths := rfl

theorem depthsBy_append (l m : Layout) :
    depthsBy depths (l ++ m) = l.depthsBy depths ++ m.depthsBy depths := by
  simp [depthsBy]

/-- Depths agree along the blocks of a layout, each of which is linked to the one after it. -/
structure Agrees (depths : BlockId → Option Int) (next : BlockId → Option BlockId) (top : Int)
    (l : Layout) : Prop where
  linked : ∀ pre b c post, l = pre ++ b :: c :: post → next b.1 = some c.1
  flows : ∀ b ∈ l, ∀ d, depths b.1 = some d →
    Flow effect depths top (fun d' => ∀ id, next b.1 = some id → depths id = some d') d b.2

theorem Agrees.drop (pre : Layout) (h : Agrees depths next top (pre ++ l)) :
    Agrees depths next top l := by
  refine ⟨fun pre' b c post hl => h.linked (pre ++ pre') b c post (by simp [hl]), ?_⟩
  exact fun b hb => h.flows b (mem_append_right _ hb)

theorem Agrees.tail (h : Agrees depths next top (b :: l)) : Agrees depths next top l :=
  Agrees.drop [b] h

/-- A depth found for a block is that of the first instruction at or after it. -/
theorem Agrees.first (h : Agrees depths next top (b :: l)) (hd : depths b.1 = some d)
    (hne : instrs (b :: l) ≠ []) : (depthsBy depths (b :: l))[0]? = some (some d) := by
  induction l generalizing b with
  | nil =>
    obtain ⟨id, js⟩ := b
    rcases js with _ | ⟨j, js⟩
    · simp at hne
    · simp [depthsBy, depthsAlong, hd]
  | cons c l ih =>
    obtain ⟨id, js⟩ := b
    rcases js with _ | ⟨j, js⟩
    · have hflow := h.flows _ (mem_cons_self ..) d hd
      have hnext := h.linked [] _ c l rfl
      simpa [depthsBy, depthsAlong] using ih h.tail (hflow c.1 hnext) (by simpa using hne)
    · simp [depthsBy, depthsAlong, hd]

theorem Agrees.steps (h : Agrees depths next top l) {k : Nat} (hi : l.instrs[k]? = some i)
    (hd : (l.depthsBy depths)[k]? = some (some d)) :
    ∃ e, StepsFrom effect depths top d i e ∧
      (i.op.fallsThrough → k + 1 < l.instrs.length →
      (l.depthsBy depths)[k + 1]? = some (some (d + e))) := by
  induction l generalizing k with
  | nil => simp at hi
  | cons b l ih =>
    rw [instrs_cons] at hi ⊢
    rw [depthsBy_cons] at hd ⊢
    by_cases hk : k < b.2.length
    · rw [getElem?_append_left hk] at hi
      rw [getElem?_append_left (by simpa using hk)] at hd
      obtain ⟨d₀, hd₀⟩ : ∃ d₀, depths b.1 = some d₀ := by
        cases hb : depths b.1 with
        | none => exact absurd (hb ▸ hd) (depthsAlong_none _ _ _)
        | some d₀ => exact ⟨d₀, rfl⟩
      rw [hd₀] at hd ⊢
      obtain ⟨e, hsteps, hrest⟩ := (h.flows b (mem_cons_self ..) d₀ hd₀).steps hi hd
      refine ⟨e, hsteps, fun hfall hlt => ?_⟩
      by_cases hlast : k + 1 < b.2.length
      · rw [getElem?_append_left (by simpa using hlast)]
        exact (hrest hfall).1 hlast
      · -- control leaves the block for the next one
        have hend := (hrest hfall).2 (by omega)
        rw [getElem?_append_right (by simp; omega), length_depthsAlong,
          show k + 1 - b.2.length = 0 by omega]
        rcases l with _ | ⟨c, l⟩
        · simp at hlt
          omega
        · refine h.tail.first (hend c.1 (h.linked [] b c l rfl)) ?_
          intro hnil
          rw [hnil] at hlt
          simp at hlt
          omega
    · rw [getElem?_append_right (by omega)] at hi
      rw [getElem?_append_right (by simp; omega), length_depthsAlong] at hd
      obtain ⟨e, hsteps, hrest⟩ := ih h.tail hi hd
      refine ⟨e, hsteps, fun hfall hlt => ?_⟩
      rw [getElem?_append_right (by simp; omega), length_depthsAlong,
        show k + 1 - b.2.length = k - b.2.length + 1 by omega]
      refine hrest hfall ?_
      rw [length_append] at hlt
      omega

theorem Agrees.block (h : Agrees depths next top l) {id : BlockId} (hid : id ∈ l.map (·.1))
    (hd : depths id = some d) (hlt : (l.before id).length < l.instrs.length) :
    (l.depthsBy depths)[(l.before id).length]? = some (some d) := by
  obtain ⟨pre, blk, post, rfl, hpre⟩ := exists_eq_append_of_mem hid
  rw [← hpre] at hlt ⊢
  rw [depthsBy_append, getElem?_append_right (by simp), length_depthsBy, Nat.sub_self]
  refine (Agrees.drop pre h).first hd ?_
  intro hnil
  simp [hnil] at hlt

end Layout

/-! ### Runs by stack effects -/

/-- The depths with which control can get to a code unit, when instructions do nothing but change
the depth: from the start, from the handlers of the table, on to the next instruction, and along
jumps. -/
inductive StackRun (flags : CodeFlags) (ranges : List HandlerRange) (ds : List DecodedInstr) :
    Nat → Int → Prop where
  | start : StackRun flags ranges ds 0 (if flags.suspends then 1 else 0)
  | handler {r : HandlerRange} (hr : r ∈ ranges) :
      StackRun flags ranges ds r.target (r.depth + 1 + if r.keepsPosition then 1 else 0)
  | next {d : DecodedInstr} {depth e : Int} (hd : d ∈ ds)
      (h : StackRun flags ranges ds d.start depth) (hexit : d.op.isScopeExit = false)
      (hjump : d.op.isUnconditionalJump = false) (he : d.op.stackEffect d.arg false = .ok e) :
      StackRun flags ranges ds (d.offset + 1) (depth + e)
  | jump {d : DecodedInstr} {depth e : Int} {target : Nat} (hd : d ∈ ds)
      (h : StackRun flags ranges ds d.start depth) (ht : d.jumpTarget? = some target)
      (he : d.op.stackEffect d.arg true = .ok e) :
      StackRun flags ranges ds target (depth + e)

namespace Arrangement

variable {a : Arrangement} {g : Graph} {f : Frame} {directed : Graph} {ds : List DecodedInstr}

theorem Follows.resolved (h : a.Follows g f directed)
    (hres : ∀ i ∈ g.body.flatten, i.op.isJump → i.target.isSome) {j : Instr}
    (hj : j ∈ a.layout.instrs) (hjump : j.op.isJump) : j.target.isSome := by
  obtain ⟨s, hs, i, seen, js, hjs, hi, -, hij⟩ := h.origin hj
  have hsource : s.op.isJump → s.target.isSome := fun hsjump => (mem_append.mp hs).elim
    (fun hs => by simp [(Frame.mem_setup hs).2.2] at hsjump) fun hs => hres s hs hsjump
  cases hij with
  | same op target _ =>
    rw [op] at hjump
    rw [target]
    rcases mem_directInstr hjs hi with ⟨rfl, _⟩ | ⟨t, _, _, _, ht, _⟩ | hop | hop
    · exact hsource hjump
    · simp [ht]
    · simp [hop, isJump, Opcode.direction?] at hjump
    · simp [hop, isJump, Opcode.direction?] at hjump
  | idle _ op' _ => simp [op', isJump, Opcode.direction?] at hjump
  | closure _ op' _ => simp [op', isJump, Opcode.direction?] at hjump

theorem Follows.agrees (h : a.Follows g f directed) :
    a.layout.Agrees a.stack.depth? (fun id => (directed.block id).next) a.stack.deepest := by
  have hdepths := stackDepths_spec h.stack
  refine ⟨fun pre b c post hl => ?_, fun b hb d hd => ?_⟩
  · have hids := h.ids
    rw [hl, map_append, map_cons, map_cons, ← h.links.order] at hids
    exact next_of_order hids.symm
  · exact (hdepths.flows b.1 d hd).lowered (h.lowered b hb)

/-- What a run keeps: it stands before an instruction with the depth that belongs there, or after
the last one. -/
def Stands (a : Arrangement) (unit : Nat) (depth : Int) : Prop :=
  0 ≤ depth ∧ depth ≤ a.stack.deepest ∧ ∃ k ≤ a.layout.instrs.length,
    unit = unitsOf (a.layout.instrs.take k) ∧ (k < a.layout.instrs.length →
      (a.layout.depthsBy a.stack.depth?)[k]? = some (some depth))

theorem Follows.stands_block (h : a.Follows g f directed) {id : BlockId}
    (hid : id ∈ a.layout.map (·.1)) (hd : a.stack.depth? id = some d) :
    a.Stands (unitsOf (a.layout.before id)) d := by
  obtain ⟨hlow, hhigh⟩ := (stackDepths_spec h.stack).bounded id d hd
  refine ⟨hlow, hhigh, (a.layout.before id).length, ?_, ?_, fun hlt => h.agrees.block hid hd hlt⟩
  · exact (a.layout.before_isPrefix id).length_le
  · rw [a.layout.take_length_before id]

theorem Follows.stands_start (h : a.Follows g f directed) :
    a.Stands 0 (if f.flags.suspends then 1 else 0) := by
  have hdepths := stackDepths_spec h.stack
  obtain ⟨hlow, hhigh⟩ := hdepths.bounded _ _ hdepths.entry
  refine ⟨hlow, hhigh, 0, Nat.zero_le _, by simp [unitsOf], fun hlt => ?_⟩
  obtain ⟨b, l, hl⟩ : ∃ b l, a.layout = b :: l := by
    rcases hl : a.layout with _ | ⟨b, l⟩
    · simp [hl] at hlt
    · exact ⟨b, l, rfl⟩
  have hids := h.ids
  have hagrees := h.agrees
  rw [hl] at hagrees hids hlt ⊢
  refine hagrees.first ?_ (length_pos_iff.mp hlt)
  have hentry : b.1 = g.entry := by
    rw [order] at hids
    cases hn : g.blocks.size with
    | zero => simp [hn, orderFrom] at hids
    | succ n =>
      rw [hn, orderFrom] at hids
      exact (List.cons.inj hids).1
  rw [hentry, ← h.links.entry]
  exact hdepths.entry

theorem Stands.instr {unit : Nat} (h : a.Stands unit depth) (hds : a.layout.ReadsAs ds)
    {d : DecodedInstr} (hd : d ∈ ds) (hstart : d.start = unit) :
    ∃ (k : Nat) (i : Instr), a.layout.instrs[k]? = some i ∧
      ds[k]? = some d ∧
      (a.layout.depthsBy a.stack.depth?)[k]? = some (some depth) := by
  obtain ⟨-, -, k, hk, hunit, hdepth⟩ := h
  obtain ⟨k', hk', hget⟩ := mem_iff_getElem.mp hd
  have hd' : ds[k']? = some d := by rw [getElem?_eq_getElem hk', hget]
  rw [hds.length] at hk'
  obtain rfl : k = k' := unitsOf_take_inj hk (Nat.le_of_lt hk')
    (by rw [← hunit, ← hstart, hds.start hd'])
  exact ⟨k, _, getElem?_eq_getElem hk', hd', hdepth hk'⟩

/-- Every step of a run keeps its place and its depth. -/
theorem Follows.stands_of_stackRun (h : a.Follows g f directed)
    (hext : ∀ i ∈ g.body.flatten, i.op ≠ .real .extendedArg)
    (hres : ∀ i ∈ g.body.flatten, i.op.isJump → i.target.isSome) (hds : a.layout.ReadsAs ds)
    {ranges : List HandlerRange} (hranges : ∀ r ∈ ranges, ∃ handler, a.sites.Leads r handler)
    {unit : Nat} (hrun : StackRun f.flags ranges ds unit depth) : a.Stands unit depth := by
  induction hrun with
  | start => exact h.stands_start
  | @handler r hr =>
    obtain ⟨handler, hleads⟩ := hranges r hr
    obtain ⟨hmem, htarget, -, d, hd, hdepth⟩ := leads_spec hleads
    rw [htarget, hdepth, show d - 1 - (if r.keepsPosition then 1 else 0) + 1 +
      (if r.keepsPosition then 1 else 0) = d by omega]
    exact h.stands_block hmem hd
  | @next d depth e hd _ hexit hjump he ih =>
    obtain ⟨k, i, hi, hdk, hdepth⟩ := Stands.instr ih hds hd rfl
    obtain ⟨e', hsteps, hrest⟩ := h.agrees.steps hi hdepth
    have hop := hds.op hi hdk
    obtain rfl : e' = e := by
      have := hsteps.effect
      rw [hop, ← hds.arg hi hdk] at this
      exact Except.ok.inj (this.symm.trans (Opcode.effectOf_of_stackEffect he))
    have hlt := (List.getElem?_eq_some_iff.mp hi).1
    refine ⟨hsteps.low, hsteps.high, k + 1, hlt, hds.stop hdk, fun hlt => hrest ?_ hlt⟩
    simp [hop, fallsThrough, isScopeExit, isUnconditionalJump, hexit, hjump]
  | @jump d depth e target hd _ ht he ih =>
    obtain ⟨k, i, hi, hdk, hdepth⟩ := Stands.instr ih hds hd rfl
    obtain ⟨_, hsteps, -⟩ := h.agrees.steps hi hdepth
    have hop := hds.op hi hdk
    obtain ⟨direction, hdir⟩ : ∃ direction, d.op.direction? = some direction := by
      cases hdir : d.op.direction? with
      | none => simp [DecodedInstr.jumpTarget?, hdir] at ht
      | some direction => exact ⟨direction, rfl⟩
    obtain ⟨id, hid⟩ := Option.isSome_iff_exists.mp (h.resolved hres (mem_of_getElem? hi)
      (by simp [hop, isJump, hdir]))
    rw [h.jumpTarget? hext hds hi hdk hdir hid, Option.some.injEq] at ht
    obtain ⟨e', he', -, -, hd'⟩ := hsteps.branch id hid
    obtain rfl : e' = e := by
      rw [hop, ← hds.arg hi hdk] at he'
      exact Except.ok.inj (he'.symm.trans (Opcode.effectOf_of_stackEffect he))
    rw [← ht]
    exact h.stands_block (h.target_mem hext hi hop hdir hid) hd'

/-- What an instruction does where a run stands: its effect, and that of its branch if it is a jump,
leads to a depth that the search knows of. -/
theorem Follows.effect_of_stands (h : a.Follows g f directed)
    (hres : ∀ i ∈ g.body.flatten, i.op.isJump → i.target.isSome) (hds : a.layout.ReadsAs ds)
    {d : DecodedInstr} (hd : d ∈ ds) (hstands : a.Stands d.start depth) {jump : Bool}
    (hjump : jump → d.op.direction?.isSome) :
    ∃ e, d.op.effectOf d.arg jump = .ok e ∧ 0 ≤ depth + e ∧ depth + e ≤ a.stack.deepest := by
  obtain ⟨k, i, hi, hdk, hdepth⟩ := hstands.instr hds hd rfl
  obtain ⟨e, hsteps, -⟩ := h.agrees.steps hi hdepth
  have hop := hds.op hi hdk
  have heffect : ∀ jump, d.op.effectOf d.arg jump = i.op.effect i.arg jump := by
    intro jump
    rw [hop, ← hds.arg hi hdk]
    rfl
  cases jump with
  | false => exact ⟨e, (heffect false).trans hsteps.effect, hsteps.low, hsteps.high⟩
  | true =>
    obtain ⟨id, hid⟩ := Option.isSome_iff_exists.mp (h.resolved hres (mem_of_getElem? hi)
      (by simpa [hop, isJump] using hjump rfl))
    obtain ⟨e', he', hlow, hhigh, -⟩ := hsteps.branch id hid
    exact ⟨e', (heffect true).trans he', hlow, hhigh⟩

end Arrangement

/-- The declared stack size is safe for a graph whose jumps are resolved: a run by stack effects
finds between zero and that many values on the stack before and after every instruction, and always
the same number before the same instruction. -/
theorem stackSize_safe {g : Graph} {constants : List Constant} {f : Frame} {c : CodeObject}
    (hlinear : g.order.Nodup) (hext : ∀ i ∈ g.body.flatten, i.op ≠ .real .extendedArg)
    (hres : ∀ i ∈ g.body.flatten, i.op.isJump → i.target.isSome)
    (hc : assemble g constants f = .ok c) :
    ∃ ds ranges, decode c.code = .ok ds ∧ HandlerTable.read c.handlerTable = .ok ranges ∧
      (∀ unit depth, StackRun c.flags ranges ds unit depth → 0 ≤ depth ∧ depth ≤ c.stackSize ∧
        ∀ d ∈ ds, d.start = unit → ∀ jump : Bool, (jump → d.op.direction?.isSome) →
          (∀ e, d.op.stackEffect d.arg jump = .ok e → 0 ≤ depth + e ∧ depth + e ≤ c.stackSize) ∧
          (d.arg < 0x80000000 → ∃ e, d.op.stackEffect d.arg jump = .ok e)) ∧
      ∀ d ∈ ds, ∀ depth depth', StackRun c.flags ranges ds d.start depth →
        StackRun c.flags ranges ds d.start depth' → depth = depth' := by
  obtain ⟨a, ha, hcode⟩ := exists_of_assemble hc
  obtain ⟨directed, h⟩ := arrange_spec hlinear ha
  obtain ⟨hencode, ⟨ranges, hranges, htable⟩, hflags, hsize, -⟩ := Arrangement.toCode_spec hcode
  obtain ⟨ds, hdecode, -, hds⟩ := decode_encode
    (fun i hi => (h.directed_of_mem hext hi).notExtension) hencode
  have hleads := (HandlerSites.rangesFrom_spec (by simp [HandlerSites.Opened]) hranges).leads
  have hstands : ∀ {unit depth}, StackRun c.flags ranges ds unit depth → a.Stands unit depth :=
    fun hrun => h.stands_of_stackRun hext hres hds hleads (hflags ▸ hrun)
  refine ⟨ds, ranges, hdecode, HandlerTable.read_write htable, ?_, ?_⟩
  · intro unit depth hrun
    have hs := hstands hrun
    have hdeepest : (c.stackSize : Int) = a.stack.deepest := by
      rw [hsize]
      exact Int.toNat_of_nonneg (Int.le_trans hs.1 hs.2.1)
    refine ⟨hs.1, hdeepest ▸ hs.2.1, ?_⟩
    rintro d hd rfl jump hjump
    obtain ⟨e, he, hlow, hhigh⟩ := h.effect_of_stands hres hds hd hs hjump
    refine ⟨fun e' he' => ?_, fun harg => ⟨e, by rw [Opcode.stackEffect, if_pos harg, he]⟩⟩
    obtain rfl : e' = e :=
      Except.ok.inj ((Opcode.effectOf_of_stackEffect he').symm.trans he)
    exact ⟨hlow, hdeepest ▸ hhigh⟩
  · intro d hd depth depth' hrun hrun'
    obtain ⟨k, i, hi, hdk, hdepth⟩ := (hstands hrun).instr hds hd rfl
    obtain ⟨k', i', hi', hdk', hdepth'⟩ := (hstands hrun').instr hds hd rfl
    obtain rfl : k = k' := by
      refine unitsOf_take_inj (Nat.le_of_lt (List.getElem?_eq_some_iff.mp hi).1)
        (Nat.le_of_lt (List.getElem?_eq_some_iff.mp hi').1) ?_
      rw [← hds.start hdk, ← hds.start hdk']
    simpa [hdepth] using hdepth'

theorem stackSize_safe_guardedLoop :
    guardedLoop.order.Nodup ∧
      (∀ i ∈ guardedLoop.body.flatten, i.op ≠ .real .extendedArg) ∧
      (∀ i ∈ guardedLoop.body.flatten, i.op.isJump → i.target.isSome) ∧
      ∃ c ds ranges, assemble guardedLoop [.none] {} = .ok c ∧ decode c.code = .ok ds ∧
        HandlerTable.read c.handlerTable = .ok ranges ∧
        ∀ unit depth, StackRun c.flags ranges ds unit depth → 0 ≤ depth ∧ depth ≤ c.stackSize := by
  have hlinear : guardedLoop.order.Nodup := by decide
  have hext : ∀ i ∈ guardedLoop.body.flatten, i.op ≠ .real .extendedArg := by decide
  have hres : ∀ i ∈ guardedLoop.body.flatten, i.op.isJump → i.target.isSome := by decide
  obtain ⟨c, hc⟩ := exists_assemble_guardedLoop
  obtain ⟨ds, ranges, hds, hranges, hrun, -⟩ := stackSize_safe hlinear hext hres hc
  refine ⟨hlinear, hext, hres, c, ds, ranges, hc, hds, hranges, fun unit depth h => ?_⟩
  exact ⟨(hrun unit depth h).1, (hrun unit depth h).2.1⟩

/-- A jump to a label that was never resolved. -/
def Graph.unresolvedJump : Graph where
  blocks := #[
    { instrs := [{ op := .real .loadConst },
        { op := .real .popJumpForwardIfTrue, arg := 1 }], next := some 1 },
    { instrs := [{ op := .real .loadConst }, { op := .real .returnValue }] }]

/-- Without resolved jumps the stack can run empty: the label counts as a distance, and the jump
gets to the return with nothing to return. -/
theorem stackSize_unsafe_unresolvedJump :
    ∃ c ds, unresolvedJump.order.Nodup ∧
      (∀ i ∈ unresolvedJump.body.flatten, i.op ≠ .real .extendedArg) ∧
      assemble unresolvedJump [.none] {} = .ok c ∧ decode c.code = .ok ds ∧
      HandlerTable.read c.handlerTable = .ok [] ∧
      ∃ d ∈ ds, ∃ depth e, StackRun c.flags [] ds d.start depth ∧
        d.op.stackEffect d.arg false = .ok e ∧ depth + e < 0 := by
  have hcode : (assemble unresolvedJump [.none] {}).map
      (fun c => (c.code, c.handlerTable, c.flags)) =
        .ok ([100, 0, 115, 1, 100, 0, 83, 0], [], {}) := by decide +kernel
  cases hc : assemble unresolvedJump [.none] {} with
  | error e =>
    rw [hc] at hcode
    cases hcode
  | ok c =>
    rw [hc] at hcode
    obtain ⟨hbytes, hfields⟩ := Prod.mk.inj (Except.ok.inj hcode)
    obtain ⟨htable, hflags⟩ := Prod.mk.inj hfields
    set ds : List DecodedInstr := [⟨0, 0, .loadConst, 0⟩, ⟨1, 1, .popJumpForwardIfTrue, 1⟩,
      ⟨2, 2, .loadConst, 0⟩, ⟨3, 3, .returnValue, 0⟩]
    have hdecode : decode [100, 0, 115, 1, 100, 0, 83, 0] = .ok ds := by decide +kernel
    -- the constant, and then the jump that takes it and goes over the second one
    have hstart : StackRun {} [] ds 0 0 := .start
    have htest : StackRun {} [] ds 1 1 :=
      .next (d := ⟨0, 0, .loadConst, 0⟩) (by simp [ds]) hstart rfl rfl rfl
    have hreturn : StackRun {} [] ds 3 0 :=
      .jump (d := ⟨1, 1, .popJumpForwardIfTrue, 1⟩) (by simp [ds]) htest rfl rfl
    exact ⟨c, ds, by decide, by decide, rfl, hbytes ▸ hdecode, by rw [htable]; rfl,
      ⟨3, 3, .returnValue, 0⟩, by simp [ds], 0, -1, hflags ▸ hreturn, rfl, by decide⟩

end Bytecode
