import Bytecode.Proofs.Matching.Exits
import Bytecode.Proofs.Matching.Meaning

/-!
# Tests of single values

The code that tests a value, step by step: each step adds pieces to the transcript, may make more
exits, and enacts a part of what the pattern means.
-/

namespace Bytecode

open List Gen Trial

variable {consts : List Constant} {V : Type} {D : Interpretation V} {base x : List V}

/-- The piece is an entry of its own, or what is written for an expression. -/
def Piece.Faithful (c : GenContext) : Piece → Prop
  | .entry _ => True
  | .part (.value e) code => ∃ s s', (lowerExpr e).load c s = .ok ((), s') ∧
    s'.unit.graph.entries = s.unit.graph.entries ++ code
  | .part _ _ => False

/-- What a run has written, with the names that wait from then on besides those that did. -/
structure Tested (c : GenContext) (p : PatternState) (s : GenState) (p' : PatternState)
    (s' : GenState) (ps : List Piece) (names : List String) : Prop where
  grown : Grown p.failures s.unit p'.failures s'.unit (transcript ps)
  faithful : ∀ x ∈ ps, x.Faithful c
  stores : p'.stores = p.stores ++ names
  nodup : p.stores.Nodup → p'.stores.Nodup

section

variable {c : GenContext} {p q p' : PatternState} {s t s' : GenState} {ps qs : List Piece}
  {names more : List String} {loc : Location} {a : Unit} {exits : List Label} {α : Type}
  {site : Site} {n : Nat}

namespace PatternState

theorem depth_grow (p : PatternState) (n : Nat) : (p.grow n).depth = p.depth + n := by
  simp only [depth, grow]
  omega

end PatternState

namespace Tested

theorem awaits (h : Tested c p s p' s' ps names) : Awaits p'.failures s'.unit :=
  h.grown.awaits

theorem trans (h : Tested c p s q t ps names) (h' : Tested c q t p' s' qs more) :
    Tested c p s p' s' (ps ++ qs) (names ++ more) where
  grown := by
    rw [transcript_append]
    exact h.grown.trans h'.grown
  faithful := forall_mem_append.mpr ⟨h.faithful, h'.faithful⟩
  stores := by rw [h'.stores, h.stores, append_assoc]
  nodup hp := h'.nodup (h.nodup hp)

theorem follow (h : Tested c p s q t ps names) (h' : Tested c q t p' s' qs []) :
    Tested c p s p' s' (ps ++ qs) names := by
  have htrans := h.trans h'
  rwa [append_nil] at htrans

theorem of_grown (h : Grown p.failures s.unit p.failures s'.unit (transcript ps))
    (hps : ∀ x ∈ ps, x.Faithful c) : Tested c p s p s' ps [] :=
  ⟨h, hps, (append_nil _).symm, id⟩

theorem refl (h : Awaits p.failures s.unit) : Tested c p s p s [] [] :=
  .of_grown (.refl h) (forall_mem_nil _)

theorem recount (h : Tested c p s p' s' ps names) {q' : PatternState}
    (hq : q.failures = p.failures ∧ q.stores = p.stores)
    (hq' : q'.failures = p'.failures ∧ q'.stores = p'.stores) : Tested c q s q' s' ps names where
  grown := by rw [hq.1, hq'.1]; exact h.grown
  faithful := h.faithful
  stores := by rw [hq'.2, hq.2, h.stores]
  nodup hp := hq'.2 ▸ h.nodup (hq.2 ▸ hp)

theorem depth (h : Tested c p s p' s' ps names) (honTop : p'.onTop = p.onTop) :
    p'.depth = p.depth + names.length := by
  rw [PatternState.depth, honTop, h.stores, length_append, PatternState.depth, Nat.add_assoc]

theorem within (h : Tested c (p.grow n) s p' s' ps names) :
    Tested c p s (p'.shrink n) s' ps names :=
  h.recount ⟨rfl, rfl⟩ ⟨rfl, rfl⟩

theorem store {name : String} (h : Tested c p s p s' ps []) (hnew : ¬p.stores.contains name) :
    Tested c p s { p with stores := p.stores ++ [name] } s' ps [name] := by
  refine ⟨h.grown, h.faithful, rfl, fun hnodup => ?_⟩
  rw [nodup_append_comm]
  refine nodup_cons.mpr ⟨?_, hnodup⟩
  simpa using hnew

section

variable (h' : Tested c q t p' s' qs more)
include h'

/-- A trial, and the next of which the code comes after. -/
theorem enacts_bind {β : Type} {m : Trial α} {u : α → Trial β} {mid : α → List V} {out : β → List V}
    (h : Enacts D consts q.failures base ps x m mid)
    (hu : ∀ b, m (some b) → Enacts D consts p'.failures base qs (mid b) (u b) out) :
    Enacts D consts p'.failures base (ps ++ qs) x (m >>= u) out :=
  (h.mono h'.grown.more).bind hu h'.grown.free

theorem enacts_seq {β : Type} {mid : List V} {u : Trial β} {out : β → List V}
    (h : Enacts D consts q.failures base ps x (pure () : Trial Unit) fun _ => mid)
    (hu : Enacts D consts p'.failures base qs mid u out) :
    Enacts D consts p'.failures base (ps ++ qs) x u out := by
  have hbind := h'.enacts_bind h fun _ _ => hu
  rwa [pure_bind] at hbind

theorem enacts_then {m : Trial α} {mid out : α → List V}
    (h : Enacts D consts q.failures base ps x m mid)
    (hu : ∀ b, m (some b) →
      Enacts D consts p'.failures base qs (mid b) (pure () : Trial Unit) fun _ => out b) :
    Enacts D consts p'.failures base (ps ++ qs) x m out := by
  have hbind := h'.enacts_bind h fun b hb => (hu b hb).result
  rwa [bind_pure] at hbind

theorem constants (h : s'.unit.constants <+: consts) : t.unit.constants <+: consts :=
  h'.grown.grows.constants.trans h

end

end Tested

/-! ### Instructions -/

theorem Gen.of_refuseIf {cond : Prop} {_ : Decidable cond} {e : SourceFault} {f : Unit → Gen α}
    {r : α × GenState} (hrun : (if cond then refuse e loc >>= f else f ()) c s = .ok r) :
    ¬cond ∧ f () c s = .ok r := by
  by_cases hcond : cond
  · rw [if_pos hcond] at hrun
    cases hrun
  · rw [if_neg hcond] at hrun
    exact ⟨hcond, hrun⟩

theorem tested_emit {op : Opcode} {arg : Nat} (h : Awaits p.failures s.unit)
    (hrun : emit op arg loc c s = .ok (a, s')) :
    Tested c p s p s' [.instr { op := .real op, arg := arg, loc := loc }] [] :=
  .of_grown (grown_emit h hrun) fun x hx => by
    obtain rfl := mem_singleton.mp hx
    trivial

theorem tested_emitConst {k : Constant} (h : Awaits p.failures s.unit)
    (hrun : emitConst k loc c s = .ok (a, s')) :
    ∃ i, Tested c p s p s' [.instr { op := .real .loadConst, arg := i, loc := loc }] [] ∧
      ∀ consts, s'.unit.constants <+: consts → consts[i]? = some k := by
  obtain ⟨i, hgrown, hi⟩ := grown_emitConst h hrun
  refine ⟨i, .of_grown hgrown fun x hx => ?_, ?_⟩
  · obtain rfl := mem_singleton.mp hx
    trivial
  · rintro _ ⟨rest, rfl⟩
    rwa [getElem?_append_left (List.getElem?_eq_some_iff.mp hi).1]

theorem inserts_lowerExpr (hc : site.Met c.scopes c) (e : Expr ScopeId) :
    (lowerExpr e).load.Inserts c := fun n =>
  have hsound := sound_expr e (.composed (.free c.scopes) ⟨site, (n ≤ ·)⟩) fun _ _ => trivial
  hsound.load.composes.grows (fun _ => .rfl) hc

theorem tested_load (hc : site.Met c.scopes c) {e : Expr ScopeId} (h : Awaits p.failures s.unit)
    (hrun : (lowerExpr e).load c s = .ok (a, s')) :
    ∃ code, Tested c p s p s' [.part (.value e) code] [] := by
  obtain ⟨code, hgrown⟩ := grown_insert (inserts_lowerExpr hc e) h hrun
  refine ⟨code, .of_grown (by simpa [transcript, Piece.entries] using hgrown) fun x hx => ?_⟩
  obtain rfl := mem_singleton.mp hx
  exact ⟨s, s', hrun, hgrown.grows.entries⟩

theorem tested_jumpToFailure {op : PseudoOp} (h : Awaits p.failures s.unit)
    (hrun : p.jumpToFailure op loc c s = .ok (p', s')) :
    ∃ l, Tested c p s p' s' [.instr { op := .pseudo op, arg := l, loc := loc }] [] ∧
      p'.onTop = p.onTop ∧ p'.failures[p.depth]? = some l := by
  obtain ⟨l, hgrown, hl, hp⟩ := PatternState.grown_jumpToFailure h hrun
  have hstores : p'.stores = p.stores := by rw [hp]; rfl
  have honTop : p'.onTop = p.onTop := by rw [hp]; rfl
  refine ⟨l, ⟨hgrown, fun x hx => ?_, ?_, fun hnodup => hstores ▸ hnodup⟩, honTop, hl⟩
  · obtain rfl := mem_singleton.mp hx
    trivial
  · rw [hstores, append_nil]

theorem tested_failIfFalse (h : Awaits p.failures s.unit)
    (hrun : p.failIfFalse loc c s = .ok (p', s')) :
    ∃ ps, Tested c p s p' s' ps [] ∧ p'.onTop = p.onTop ∧
      ∀ {V : Type} (D : Interpretation V) consts base w x, x.length = p.depth →
        Enacts D consts p'.failures base ps (w :: x) (.check (D.truthy w)) fun _ => x := by
  obtain ⟨l, h, honTop, hl⟩ := tested_jumpToFailure h hrun
  refine ⟨_, h, honTop, fun D consts base w x hx => .popJumpIfFalse ?_⟩
  rwa [hx]

/-! ### Comparisons -/

theorem emitCompare_eq (op : CompareOp) : emitCompare op loc = emit op.opcode op.code loc := by
  cases op <;> rfl

theorem reach?_compare (op : CompareOp) (arg : Nat) : op.opcode.reach? arg = some (2, 0, 1) := by
  cases op <;> rfl

theorem isActive_compare (op : CompareOp) : op.opcode.isActive := by
  cases op <;> rfl

theorem tested_compare {op : CompareOp} (h : Awaits p.failures s.unit)
    (hrun : (do emitCompare op loc; p.failIfFalse loc : Gen PatternState) c s = .ok (p', s')) :
    ∃ ps, Tested c p s p' s' ps [] ∧ p'.onTop = p.onTop ∧
      ∀ {V : Type} (D : Interpretation V) consts base left right x, x.length = p.depth →
        Enacts D consts p'.failures base ps (right :: left :: x) (D.compares op left right)
          fun _ => x := by
  obtain ⟨_, t, hcompare, hrun⟩ := bind_eq_ok.mp hrun
  rw [emitCompare_eq] at hcompare
  have h₁ := tested_emit h hcompare
  obtain ⟨qs, h₂, honTop, hcheck⟩ := tested_failIfFalse h₁.awaits hrun
  refine ⟨_, h₁.trans h₂, honTop, fun D consts base left right x hx => ?_⟩
  refine h₂.enacts_bind (.perform_one [right, left] [] (isActive_compare op) (reach?_compare op _))
    fun w _ => hcheck D consts base w x hx

/-! ### Moves -/

/-- Exchanges with the top, one after the other. -/
def exchangeEach (depths : List Nat) (stack : List V) : Option (List V) :=
  depths.foldlM (fun stack n => exchangeTop n stack) stack

theorem exchangeEach_append (ds ds' : List Nat) (stack : List V) :
    exchangeEach (ds ++ ds') stack = exchangeEach ds stack >>= exchangeEach ds' :=
  foldlM_append

def swapsAt (loc : Location) (depths : List Nat) : List Instr :=
  depths.map fun n => { op := .real .swap, arg := n, loc := loc }

theorem tested_swaps {ds : List Nat} (h : Awaits p.failures s.unit)
    (hrun : ds.forM (emit .swap · loc) c s = .ok (a, s')) :
    Tested c p s p s' ((swapsAt loc ds).map .instr) [] := by
  induction ds generalizing s with
  | nil =>
    cases hrun
    exact .refl h
  | cons n ns ih =>
    obtain ⟨_, t, hswap, hrest⟩ := bind_eq_ok.mp hrun
    have h₁ := tested_emit h hswap
    exact h₁.trans (ih h₁.awaits hrest)

theorem placed_swaps (ds : List Nat) : placed (transcript ((swapsAt loc ds).map .instr)) = [] := by
  induction ds with
  | nil => rfl
  | cons n ns ih => exact ih

theorem enacts_swaps {ds : List Nat} {x' : List V} (h : exchangeEach ds x = some x') :
    Enacts D consts exits base ((swapsAt loc ds).map .instr) x (pure ()) fun _ => x' := by
  induction ds generalizing x with
  | nil =>
    cases h
    exact .nil
  | cons n ds ih =>
    obtain ⟨mid, hmid, hrest⟩ := Option.bind_eq_some_iff.mp h
    have hswap : Enacts D consts exits base ((swapsAt loc [n]).map .instr) x (pure ())
        fun _ => mid := .swap hmid
    have hbind := hswap.bind (fun _ _ => ih hrest) fun l _ => by
      rw [placed_swaps]
      exact not_mem_nil
    rwa [pure_bind] at hbind

theorem exchangeEach_sinkDepths (v : V) (y z : List V) :
    exchangeEach (sinkDepths (y.length + 1)) (v :: (y ++ z)) = some (y ++ v :: z) := by
  -- The first exchange puts the value at its place, so the induction is on the end of the list.
  induction y using List.reverseRecOn generalizing v z with
  | nil => rfl
  | append_singleton y w ih =>
    have hdepths : sinkDepths (y.length + 2) = (y.length + 2) :: sinkDepths (y.length + 1) := by
      simp [sinkDepths, range_succ_eq_map, Function.comp_def]
    have hexchange : exchangeTop (y.length + 2) (v :: (y ++ w :: z)) =
        some (w :: (y ++ v :: z)) := by
      simp [exchangeTop]
    rw [length_append, length_singleton, hdepths, exchangeEach, foldlM_cons, append_assoc,
      append_assoc, singleton_append, hexchange]
    exact ih w (v :: z)

/-! ### Single values -/

theorem Bindings.length_values {bs : Bindings V} (h : bs.map Prod.fst = names) :
    bs.values.length = names.length := by
  rw [← h, values, length_map, length_map]

theorem Enacts.prepend {y : List V} {bs : Bindings V} {m : Trial (Bindings V)}
    (h : Enacts D consts exits base ps y m fun cs => x ++ bs.values ++ cs.values) :
    Enacts D consts exits base ps y (m >>= fun cs => pure (bs ++ cs)) fun cs => x ++ cs.values :=
  h.map fun _ _ => by simp [Bindings.values]

/-- The generator tests the subject as the trial does. The names that the trial binds are let wait
below everything else, and their values are in the same order. -/
def Tries (c : GenContext) (test : PatternState → Gen PatternState) (names : List String)
    (trial : (V : Type) → Interpretation V → Matcher V) : Prop :=
  ∀ ⦃p p' : PatternState⦄ ⦃s s' : GenState⦄, Awaits p.failures s.unit →
    test p c s = .ok (p', s') →
    (∀ V D v bs, trial V D v (some bs) → bs.map Prod.fst = names) ∧
    ∃ ps, Tested c p s p' s' ps names ∧ p'.onTop = p.onTop ∧
      ∀ V D consts, s'.unit.constants <+: consts → ∀ base v x, x.length = p.depth →
        Enacts D consts p'.failures base ps (v :: x) (trial V D v) fun bs => x ++ bs.values

theorem tries_capture (name : Option String) :
    Tries c (capture name loc) name.toList fun _ _ v => pure (bindTo name v) := by
  intro p p' s s' h hrun
  refine ⟨fun V D v bs hbs => ?_, ?_⟩
  · obtain rfl := pure_some.mp hbs
    cases name <;> rfl
  cases name with
  | none =>
    obtain ⟨_, t, hpop, hret⟩ := bind_eq_ok.mp hrun
    cases hret
    refine ⟨_, tested_emit h hpop, rfl, fun V D consts _ base v x _ => Enacts.result ?_⟩
    have hx : x ++ Bindings.values (bindTo none v) = x := append_nil x
    rw [hx]
    exact .popTop
  | some name =>
    unfold capture at hrun
    obtain ⟨-, hrun⟩ := of_refuseIf hrun
    obtain ⟨hnew, hrun⟩ := of_refuseIf hrun
    obtain ⟨_, t, hsink, hret⟩ := bind_eq_ok.mp hrun
    cases hret
    have hsunk : Tested c p s p s' _ _ := tested_swaps h hsink
    refine ⟨_, hsunk.store hnew, rfl, fun V D consts _ base v x hx => Enacts.result ?_⟩
    have hdepths := exchangeEach_sinkDepths v x []
    rw [append_nil, hx] at hdepths
    exact enacts_swaps hdepths

theorem tries_testValue (hc : site.Met c.scopes c) (e : Expr ScopeId) :
    Tries c (testValue loc (lowerExpr e)) [] fun _ D => D.matchValue e := by
  intro p p' s s' h hrun
  refine ⟨fun V D v bs hbs => ?_, ?_⟩
  · obtain ⟨_, -, hbs⟩ := bind_some.mp hbs
    obtain ⟨_, -, hbs⟩ := bind_some.mp hbs
    exact congrArg (List.map Prod.fst) (pure_some.mp hbs)
  unfold testValue at hrun
  obtain ⟨-, hrun⟩ := of_refuseIf hrun
  obtain ⟨_, t, hload, hrun⟩ := bind_eq_ok.mp hrun
  obtain ⟨code, h₁⟩ := tested_load hc h hload
  obtain ⟨qs, h₂, honTop, hcompare⟩ := tested_compare h₁.awaits hrun
  refine ⟨_, h₁.trans h₂, honTop, fun V D consts _ base v x hx => ?_⟩
  exact h₂.enacts_bind .value fun w _ => (hcompare D consts base v w x hx).map fun _ _ =>
    append_nil x

theorem tries_testSingleton (k : Constant) :
    Tries c (testSingleton loc k) [] fun _ D => D.matchSingleton k := by
  intro p p' s s' h hrun
  refine ⟨fun V D v bs hbs => ?_, ?_⟩
  · obtain ⟨_, -, hbs⟩ := bind_some.mp hbs
    exact congrArg (List.map Prod.fst) (pure_some.mp hbs)
  obtain ⟨_, t, hconst, hrun⟩ := bind_eq_ok.mp hrun
  obtain ⟨i, h₁, hk⟩ := tested_emitConst h hconst
  obtain ⟨qs, h₂, honTop, hcompare⟩ := tested_compare h₁.awaits hrun
  refine ⟨_, h₁.trans h₂, honTop, fun V D consts hconsts base v x hx => ?_⟩
  refine h₂.enacts_seq (.loadConst (hk consts (h₂.constants hconsts))) ?_
  exact (hcompare D consts base v (D.const k) x hx).map fun _ _ => append_nil x

theorem tries_testAnything (name : Option String) (irrefutable : Bool) :
    Tries c (testAnything loc name irrefutable) name.toList fun _ _ v => pure (bindTo name v) := by
  intro p p' s s' h hrun
  cases irrefutable with
  | true => exact tries_capture name h hrun
  | false => cases name <;> cases hrun

theorem tries_testAs {pattern : PatternCode} {irrefutable : Bool} {names : List String}
    {trial : (V : Type) → Interpretation V → Matcher V}
    (hpattern : Tries c (pattern.test irrefutable) names trial) (name : Option String) :
    Tries c (testAs loc pattern name irrefutable) (names ++ name.toList) fun V D v => do
      let bs ← trial V D v
      return bs ++ bindTo name v := by
  intro p p' s s' h hrun
  obtain ⟨_, t, hcopy, hrun⟩ := bind_eq_ok.mp hrun
  obtain ⟨q, u, htest, hcapture⟩ := bind_eq_ok.mp hrun
  have h₁ := tested_emit h hcopy
  obtain ⟨hnames, ps, h₂, honTop₂, htrial⟩ := hpattern (p := p.grow 1) h₁.awaits htest
  obtain ⟨hnames', qs, h₃, honTop₃, hbind⟩ :=
    tries_capture name (p := q.shrink 1) h₂.awaits hcapture
  refine ⟨fun V D v bs hbs => ?_, _, h₁.trans (h₂.within.trans h₃), ?_,
    fun V D consts hconsts base v x hx => ?_⟩
  · obtain ⟨cs, hcs, hbs⟩ := bind_some.mp hbs
    obtain rfl := pure_some.mp hbs
    rw [map_append, hnames V D v cs hcs, hnames' V D v _ rfl]
  · rw [honTop₃]
    exact Nat.sub_eq_of_eq_add honTop₂
  · refine (h₂.within.trans h₃).enacts_seq (.copy (v := v) (Nat.le_refl 1) rfl) ?_
    refine h₃.enacts_bind (htrial V D consts (h₃.constants hconsts) base v (v :: x) ?_)
      fun bs hbs => ?_
    · rw [PatternState.depth_grow, ← hx]
      rfl
    · have hlength : (x ++ bs.values).length = (q.shrink 1).depth := by
        rw [length_append, hx, Bindings.length_values (hnames V D v bs hbs)]
        exact (h₂.within.depth (Nat.sub_eq_of_eq_add honTop₂)).symm
      have hbound := (hbind V D consts hconsts base v _ hlength).prepend
      rwa [pure_bind] at hbound

end

end Bytecode
