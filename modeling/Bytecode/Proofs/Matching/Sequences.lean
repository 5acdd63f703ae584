import Bytecode.Proofs.Matching.Tests

/-!
# Tests of parts

Code that looks at the value on top of the stack and leaves it there, and code that tests the parts
of a value one by one: those of a sequence are unpacked, or found by their index.
-/

namespace Bytecode

open List Gen Interpretation Trial PatternState

variable {t : (V : Type) → Interpretation V → V → Trial Unit}
  {f g : PatternState → Gen PatternState} {star : Nat}

/-! ### Checks -/

/-- The generator checks the value on top of the stack, which stays, as the trial does. -/
def Checks (c : GenContext) (test : PatternState → Gen PatternState)
    (trial : (V : Type) → Interpretation V → V → Trial Unit) : Prop :=
  ∀ ⦃p p' : PatternState⦄ ⦃s s' : GenState⦄, Awaits p.failures s.unit →
    test p c s = .ok (p', s') →
    ∃ ps, Tested c p s p' s' ps [] ∧ p'.onTop = p.onTop ∧
      ∀ V D consts, s'.unit.constants <+: consts → ∀ base v x, x.length + 1 = p.depth →
        Enacts D consts p'.failures base ps (v :: x) (trial V D v) fun _ => v :: x

section

variable {c : GenContext} {p p' : PatternState} {s s' : GenState} {loc : Location} {a : Unit}
  {u : (V : Type) → Interpretation V → Matcher V} {qs : List (Pattern ScopeId)}
  {q : Pattern ScopeId} {names : List String}

theorem Tested.depth_eq {ps : List Piece} (h : Tested c p s p' s' ps [])
    (honTop : p'.onTop = p.onTop) : p'.depth = p.depth :=
  h.depth honTop

theorem Checks.nothing : Checks c pure fun _ _ _ => pure () := by
  intro p p' s s' h hrun
  cases hrun
  exact ⟨_, .refl h, rfl, fun V D consts _ base v x _ => .nil⟩

theorem Checks.bind {u : (V : Type) → Interpretation V → V → Trial Unit} (hf : Checks c f t)
    (hg : Checks c g u) :
    Checks c (fun p => f p >>= g) fun V D v => t V D v >>= fun _ => u V D v := by
  intro p p' s s' h hrun
  obtain ⟨q, s₁, hfirst, hrest⟩ := bind_eq_ok.mp hrun
  obtain ⟨ps, h₁, honTop₁, henacts₁⟩ := hf h hfirst
  obtain ⟨qs, h₂, honTop₂, henacts₂⟩ := hg h₁.awaits hrest
  refine ⟨_, h₁.trans h₂, honTop₂.trans honTop₁, fun V D consts hconsts base v x hx => ?_⟩
  refine h₂.enacts_bind (henacts₁ V D consts (h₂.constants hconsts) base v x hx) fun _ _ => ?_
  exact henacts₂ V D consts hconsts base v x (hx.trans (h₁.depth_eq honTop₁).symm)

theorem checks_inspect {op : Opcode} (hop : op.isActive) (hreach : op.reach? 0 = some (0, 1, 1)) :
    Checks c (fun p => do emit op 0 loc; p.failIfFalse loc) fun _ D v =>
      D.inspect op v >>= fun w => .check (D.truthy w) := by
  intro p p' s s' h hrun
  obtain ⟨_, t, hinspect, hrun⟩ := bind_eq_ok.mp hrun
  have h₁ := tested_emit h hinspect
  obtain ⟨ps, h₂, honTop, hcheck⟩ := tested_failIfFalse h₁.awaits hrun
  refine ⟨_, h₁.trans h₂, honTop, fun V D consts _ base v x hx => ?_⟩
  exact h₂.enacts_bind (.perform_one [] [v] hop hreach) fun w _ =>
    hcheck D consts base w (v :: x) hx

theorem checks_testLength (op : CompareOp) (n : Nat) :
    Checks c (testLength op n loc) fun _ D => D.matchLength op n := by
  intro p p' s s' h hrun
  obtain ⟨_, t, hlen, hrun⟩ := bind_eq_ok.mp hrun
  obtain ⟨_, u, hconst, hrun⟩ := bind_eq_ok.mp hrun
  have h₁ := tested_emit h hlen
  obtain ⟨i, h₂, hi⟩ := tested_emitConst h₁.awaits hconst
  obtain ⟨ps, h₃, honTop, hcompare⟩ := tested_compare h₂.awaits hrun
  refine ⟨_, h₁.trans (h₂.trans h₃), honTop, fun V D consts hconsts base v x hx => ?_⟩
  refine (h₂.trans h₃).enacts_bind (.perform_one [] [v] rfl rfl) fun len _ => ?_
  refine h₃.enacts_seq (.loadConst (hi consts (h₃.constants hconsts))) ?_
  exact hcompare D consts base len _ (v :: x) hx

theorem checks_failIfNone : Checks c (failIfNone loc) fun _ D => D.present := by
  intro p p' s s' h hrun
  obtain ⟨_, t, hcopy, hrun⟩ := bind_eq_ok.mp hrun
  obtain ⟨_, u, hconst, hrun⟩ := bind_eq_ok.mp hrun
  have h₁ := tested_emit h hcopy
  obtain ⟨i, h₂, hi⟩ := tested_emitConst h₁.awaits hconst
  obtain ⟨ps, h₃, honTop, hcompare⟩ := tested_compare h₂.awaits hrun
  refine ⟨_, h₁.trans (h₂.trans h₃), honTop, fun V D consts hconsts base v x hx => ?_⟩
  refine (h₂.trans h₃).enacts_seq (.copy (v := v) (Nat.le_refl 1) rfl) ?_
  refine h₃.enacts_seq (.loadConst (hi consts (h₃.constants hconsts))) ?_
  exact hcompare D consts base v _ (v :: x) hx

/-! ### Parts that lie on the stack -/

theorem PatternState.grow_shrink {n : Nat} (h : n ≤ p.onTop) : (p.shrink n).grow n = p := by
  simp only [shrink, grow, Nat.sub_add_cancel h]

theorem tested_each {f : PatternCode → PatternState → Gen PatternState}
    (hf : ∀ q ∈ qs, Tries c (f (lowerPattern q)) q.captures fun _ D => D.matcher q)
    (h : Awaits p.failures s.unit)
    (hrun : (lowerPatterns qs).foldlM (fun p code => f code (p.shrink 1)) (p.grow qs.length) c s =
      .ok (p', s')) :
    (∀ V (D : Interpretation V) vs bs, matchEach (D.matchers qs) vs (some bs) →
      bs.map Prod.fst = capturesOf qs) ∧
    ∃ ps, Tested c p s p' s' ps (capturesOf qs) ∧ p'.onTop = p.onTop ∧
      ∀ V (D : Interpretation V) consts, s'.unit.constants <+: consts →
        ∀ base vs x, vs.length = qs.length → x.length = p.depth →
          Enacts D consts p'.failures base ps (vs ++ x) (matchEach (D.matchers qs) vs)
            fun bs => x ++ bs.values := by
  induction qs generalizing p s with
  | nil =>
    cases hrun
    refine ⟨fun V D vs bs hbs => ?_, [], .refl h, rfl, fun V D consts _ base vs x hvs _ => ?_⟩
    · cases vs with
      | nil => rw [pure_some.mp hbs]; rfl
      | cons v vs => cases hbs
    · obtain rfl := length_eq_zero_iff.mp hvs
      exact .result (b := ([] : Bindings V)) (by simpa [Bindings.values] using Enacts.nil)
  | cons q qs ih =>
    obtain ⟨hq, hqs⟩ := forall_mem_cons.mp hf
    obtain ⟨r, t, htest, hrest⟩ := bind_eq_ok.mp hrun
    obtain ⟨hnames, ps, h₁, honTop₁, htrial⟩ := hq (p := p.grow qs.length) h htest
    have honTop : r.onTop = p.onTop + qs.length := honTop₁
    rw [← grow_shrink (p := r) (n := qs.length) (by omega)] at hrest
    obtain ⟨hnames', ps', h₂, honTop₂, hrests⟩ := ih hqs (p := r.shrink qs.length) h₁.awaits hrest
    have hshrunk : (r.shrink qs.length).onTop = p.onTop := Nat.sub_eq_of_eq_add honTop
    refine ⟨fun V D vs bs hbs => ?_, _, h₁.within.trans h₂, honTop₂.trans hshrunk,
      fun V D consts hconsts base vs x hvs hx => ?_⟩
    · cases vs with
      | nil => cases hbs
      | cons v vs =>
        obtain ⟨bs₁, hbs₁, hbs⟩ := bind_some.mp hbs
        obtain ⟨bs₂, hbs₂, hbs⟩ := bind_some.mp hbs
        rw [pure_some.mp hbs, map_append, hnames V D v bs₁ hbs₁, hnames' V D vs bs₂ hbs₂]
        rfl
    · obtain ⟨v, vs, rfl⟩ := exists_cons_of_length_eq_add_one hvs
      have hvs : vs.length = qs.length := Nat.succ.inj hvs
      have hlength : (vs ++ x).length = (p.grow qs.length).depth := by
        rw [length_append, hvs, hx, depth_grow, Nat.add_comm]
      refine h₂.enacts_bind (htrial V D consts (h₂.constants hconsts) base v (vs ++ x) hlength)
        fun bs hbs => ?_
      rw [append_assoc]
      refine (hrests V D consts hconsts base vs (x ++ bs.values) hvs ?_).prepend
      rw [length_append, hx, Bindings.length_values (hnames V D v bs hbs), h₁.within.depth hshrunk]

theorem tries_unpacked {f : PatternCode → PatternState → Gen PatternState}
    (hf : ∀ q ∈ qs, Tries c (f (lowerPattern q)) q.captures fun _ D => D.matcher q) {op : Opcode}
    {arg : Nat} (hop : op.isActive) (hreach : op.reach? arg = some (1, 0, qs.length)) :
    Tries c (fun p => do
      emit op arg loc
      (lowerPatterns qs).foldlM (fun p code => f code (p.shrink 1)) (p.grow qs.length))
      (capturesOf qs)
      fun _ D v => any (D.does op arg [v] []) >>= matchEach (D.matchers qs) := by
  intro p p' s s' h hrun
  obtain ⟨_, t, hunpack, hrun⟩ := bind_eq_ok.mp hrun
  have h₁ := tested_emit h hunpack
  obtain ⟨hnames, ps, h₂, honTop, heach⟩ := tested_each hf h₁.awaits hrun
  refine ⟨fun V D v bs hbs => ?_, _, h₁.trans h₂, honTop, fun V D consts hconsts base v x hx => ?_⟩
  · obtain ⟨vs, -, hbs⟩ := bind_some.mp hbs
    exact hnames V D vs bs hbs
  · refine h₂.enacts_bind (.perform [v] [] hop hreach) fun vs hvs => ?_
    have hlength := D.reach _ _ _ _ _ (any_some.mp hvs)
    rw [hreach, Option.some_inj, Prod.mk.injEq, Prod.mk.injEq] at hlength
    exact heach V D consts hconsts base vs x hlength.2.2.symm hx

/-! ### Sequences -/

/-- The code of the pattern tests the subject as the pattern means. -/
def Pattern.Tried (c : GenContext) (q : Pattern ScopeId) : Prop :=
  ∀ irrefutable, Tries c ((lowerPattern q).test irrefutable) q.captures fun _ D => D.matcher q

theorem length_lowerPatterns (qs : List (Pattern ScopeId)) :
    (lowerPatterns qs).length = qs.length := by
  induction qs with
  | nil => rfl
  | cons q qs ih => exact congrArg (· + 1) ih

variable {qs : List (Pattern ScopeId)}

theorem tries_testItems (hqs : ∀ q ∈ qs, q.Tried c) {star : Option Nat}
    (hstar : ∀ i ∈ star, i < qs.length) :
    Tries c (testItems (lowerPatterns qs) star loc) (capturesOf qs) fun _ D v =>
      D.items qs.length star v >>= matchEach (D.matchers qs) := by
  intro p p' s s' h hrun
  unfold testItems testUnpacked at hrun
  rw [length_lowerPatterns] at hrun
  cases star with
  | none => exact tries_unpacked (fun q hq => hqs q hq true) rfl rfl h hrun
  | some star =>
    obtain ⟨hlimits, hrun⟩ := of_refuseIf hrun
    have harity := arity?_unpackEx (hstar star rfl) hlimits
    have hreach : Opcode.unpackEx.reach? (unpackOperand star (qs.length - star - 1)) =
        some (1, 0, qs.length) :=
      congrArg (Option.map fun x : Nat × Nat => (x.1, 0, x.2)) harity
    exact tries_unpacked (fun q hq => hqs q hq true) rfl hreach h hrun

theorem tested_loadItem {size i : Nat} (h : Awaits p.failures s.unit)
    (hrun : loadItem size star i loc c s = .ok (a, s')) :
    ∃ ps, Tested c p s p s' ps [] ∧ ∀ V (D : Interpretation V) consts,
      s'.unit.constants <+: consts → ∀ base v x, Enacts D consts p.failures base ps (v :: x)
        (D.item size star i v) fun w => w :: v :: x := by
  obtain ⟨_, t, hcopy, hrun⟩ := bind_eq_ok.mp hrun
  have h₁ := tested_emit h hcopy
  by_cases hi : i < star
  · simp only [if_pos hi] at hrun
    obtain ⟨_, u, hconst, hsubscript⟩ := bind_eq_ok.mp hrun
    obtain ⟨j, h₂, hj⟩ := tested_emitConst h₁.awaits hconst
    have h₃ := tested_emit h₂.awaits hsubscript
    refine ⟨_, h₁.trans (h₂.trans h₃), fun V D consts hconsts base v x => ?_⟩
    have hitem : D.item size star i v =
        .any fun w => D.does .binarySubscr 0 [D.const (.int i), v] [] [w] := by
      rw [item, index, if_pos hi, pure_bind]
    rw [hitem]
    refine (h₂.trans h₃).enacts_seq (.copy (v := v) (Nat.le_refl 1) rfl) ?_
    refine h₃.enacts_seq (.loadConst (hj consts (h₃.constants hconsts))) ?_
    exact .perform_one [D.const (.int i), v] [] rfl rfl
  · simp only [if_neg hi] at hrun
    obtain ⟨_, t₁, hlen, hrun⟩ := bind_eq_ok.mp hrun
    obtain ⟨_, t₂, hconst, hrun⟩ := bind_eq_ok.mp hrun
    obtain ⟨_, t₃, hsub, hsubscript⟩ := bind_eq_ok.mp hrun
    have h₂ := tested_emit h₁.awaits hlen
    obtain ⟨j, h₃, hj⟩ := tested_emitConst h₂.awaits hconst
    have h₄ := tested_emit h₃.awaits hsub
    have h₅ := tested_emit h₄.awaits hsubscript
    have h₄₅ := h₄.trans h₅
    refine ⟨_, h₁.trans (h₂.trans (h₃.trans h₄₅)), fun V D consts hconsts base v x => ?_⟩
    rw [item, index, if_neg hi, bind_assoc]
    refine (h₂.trans (h₃.trans h₄₅)).enacts_seq (.copy (v := v) (Nat.le_refl 1) rfl) ?_
    refine (h₃.trans h₄₅).enacts_bind (.perform_one [] [v] rfl rfl) fun len _ => ?_
    refine h₄₅.enacts_seq (.loadConst (hj consts (h₄₅.constants hconsts))) ?_
    refine h₅.enacts_bind (.perform_one [D.const (.int (size - i : Nat)), len] [] rfl rfl)
      fun k _ => ?_
    exact .perform_one [k, v] [] rfl rfl

theorem captures_of_isWildcard (h : q.isWildcard) : q.captures = [] := by
  match q, h with
  | .capture _ none none, _ => rfl

theorem captures_of_isStarWildcard (h : q.isStarWildcard) : q.captures = [] := by
  match q, h with
  | .star _ none, _ => rfl

theorem source_lowerPattern (q : Pattern ScopeId) : (lowerPattern q).source = q := by
  unfold lowerPattern
  split <;> rfl

theorem tested_indexed {size i : Nat} (hqs : ∀ q ∈ qs, q.Tried c)
    (hstar : ∀ x ∈ qs.zipIdx i, x.2 = star → x.1.captures = [])
    (h : Awaits p.failures s.unit)
    (hrun : ((lowerPatterns qs).zipIdx i).foldlM (testItem size star loc) p c s = .ok (p', s')) :
    (∀ V (D : Interpretation V) v bs,
      D.matchIndexed size star v i qs (D.matchers qs) (some bs) →
        bs.map Prod.fst = capturesOf qs) ∧
    ∃ ps, Tested c p s p' s' ps (capturesOf qs) ∧ p'.onTop = p.onTop ∧
      ∀ V (D : Interpretation V) consts, s'.unit.constants <+: consts →
        ∀ base v x, x.length + 1 = p.depth →
          Enacts D consts p'.failures base ps (v :: x)
            (D.matchIndexed size star v i qs (D.matchers qs)) fun bs => v :: (x ++ bs.values) := by
  induction qs generalizing i p s with
  | nil =>
    cases hrun
    refine ⟨fun V D v bs hbs => ?_, [], .refl h, rfl, fun V D consts _ base v x _ => ?_⟩
    · rw [pure_some.mp hbs]
      rfl
    · exact .result (b := ([] : Bindings V)) (by simpa [Bindings.values] using Enacts.nil)
  | cons q qs ih =>
    obtain ⟨hq, hqs⟩ := forall_mem_cons.mp hqs
    obtain ⟨hi, hstar⟩ := forall_mem_cons.mp hstar
    obtain ⟨r, t, htest, hrest⟩ := bind_eq_ok.mp hrun
    rw [testItem, source_lowerPattern] at htest
    by_cases hskip : (q.isWildcard || i = star) = true
    · rw [if_pos hskip] at htest
      cases htest
      have hnone : q.captures = [] := by
        rcases (Bool.or_eq_true _ _).mp hskip with hwild | hplace
        · exact captures_of_isWildcard hwild
        · exact hi (of_decide_eq_true hplace)
      have hcaptures : capturesOf (q :: qs) = capturesOf qs := congrArg (· ++ capturesOf qs) hnone
      have hmatch : ∀ V (D : Interpretation V) v,
          D.matchIndexed size star v i (q :: qs) (D.matchers (q :: qs)) =
            D.matchIndexed size star v (i + 1) qs (D.matchers qs) := fun V D v => if_pos hskip
      simp only [hcaptures, hmatch]
      exact ih hqs hstar h hrest
    · rw [if_neg hskip] at htest
      obtain ⟨_, t₁, hload, htest⟩ := bind_eq_ok.mp htest
      obtain ⟨ps₁, h₁, hitem⟩ := tested_loadItem h hload
      obtain ⟨hnames, ps₂, h₂, honTop₂, htrial⟩ := hq true h₁.awaits htest
      obtain ⟨hnames', ps₃, h₃, honTop₃, hrests⟩ := ih hqs hstar h₂.awaits hrest
      have hmatch : ∀ V (D : Interpretation V) v,
          D.matchIndexed size star v i (q :: qs) (D.matchers (q :: qs)) = (do
            let w ← D.item size star i v
            let bs ← D.matcher q w
            let cs ← D.matchIndexed size star v (i + 1) qs (D.matchers qs)
            return bs ++ cs) := fun V D v => if_neg hskip
      simp only [hmatch]
      refine ⟨fun V D v bs hbs => ?_, _, h₁.trans (h₂.trans h₃), honTop₃.trans honTop₂,
        fun V D consts hconsts base v x hx => ?_⟩
      · obtain ⟨w, -, hbs⟩ := bind_some.mp hbs
        obtain ⟨bs₁, hbs₁, hbs⟩ := bind_some.mp hbs
        obtain ⟨bs₂, hbs₂, hbs⟩ := bind_some.mp hbs
        rw [pure_some.mp hbs, map_append, hnames V D w bs₁ hbs₁, hnames' V D v bs₂ hbs₂]
        rfl
      · have h₂₃ := h₂.trans h₃
        refine h₂₃.enacts_bind (hitem V D consts (h₂₃.constants hconsts) base v x) fun w _ => ?_
        refine h₃.enacts_bind (htrial V D consts (h₃.constants hconsts) base w (v :: x) hx)
          fun bs hbs => ?_
        have hlength : (x ++ bs.values).length + 1 = r.depth := by
          rw [h₂.depth honTop₂, ← hx, length_append, Bindings.length_values (hnames V D w bs hbs)]
          omega
        exact (hrests V D consts hconsts base v _ hlength).prepend (x := v :: x)

theorem tries_testIndexed (hqs : ∀ q ∈ qs, q.Tried c)
    (hstar : ∀ x ∈ qs.zipIdx, x.2 = star → x.1.captures = []) :
    Tries c (testIndexed (lowerPatterns qs) star loc) (capturesOf qs) fun _ D v =>
      D.matchIndexed qs.length star v 0 qs (D.matchers qs) := by
  intro p p' s s' h hrun
  obtain ⟨r, t, hitems, hrun⟩ := bind_eq_ok.mp hrun
  obtain ⟨_, u, hpop, hret⟩ := bind_eq_ok.mp hrun
  cases hret
  rw [length_lowerPatterns] at hitems
  obtain ⟨hnames, ps, h₁, honTop₁, hmatch⟩ :=
    tested_indexed (p := p.grow 1) hqs hstar h hitems
  have h₂ : Tested c (r.shrink 1) t (r.shrink 1) s' _ [] := tested_emit h₁.awaits hpop
  refine ⟨hnames, _, h₁.within.follow h₂, Nat.sub_eq_of_eq_add honTop₁,
    fun V D consts hconsts base v x hx => ?_⟩
  refine h₂.enacts_then (hmatch V D consts (h₂.constants hconsts) base v x ?_) fun bs _ => .popTop
  rw [depth_grow, hx]

theorem checks_testSequenceLength (size : Nat) (star : Option Nat) :
    Checks c (testSequenceLength size star loc) fun _ D => D.matchSequenceLength size star := by
  have hinspect : Checks c (fun p => do emit .matchSequence 0 loc; p.failIfFalse loc) fun _ D v =>
      D.inspect .matchSequence v >>= fun w => .check (D.truthy w) := checks_inspect rfl rfl
  have hlength : ∀ op n, Checks c (testLength op n loc) _ := checks_testLength
  cases star with
  | none =>
    have hboth := hinspect.bind (hlength .equal size)
    simp only [bind_assoc] at hboth
    exact hboth
  | some star =>
    unfold testSequenceLength matchSequenceLength
    by_cases hsize : 1 < size
    · have hboth := hinspect.bind (hlength .greaterOrEqual (size - 1))
      simp only [bind_assoc] at hboth
      simp only [if_pos hsize]
      exact hboth
    · have hboth := hinspect.bind Checks.nothing
      simp only [bind_assoc] at hboth
      simp only [if_neg hsize]
      exact hboth

theorem lowerPatterns_eq_map (qs : List (Pattern ScopeId)) :
    lowerPatterns qs = qs.map lowerPattern := by
  induction qs with
  | nil => rfl
  | cons q qs ih => exact congrArg (lowerPattern q :: ·) ih

theorem positions_lowerPatterns (P : Pattern ScopeId → Bool) :
    positions (P ·.source) (lowerPatterns qs) = positions P qs := by
  rw [lowerPatterns_eq_map, positions, zipIdx_map, filter_map, map_map]
  simp only [Function.comp_def, Prod.map_fst, Prod.map_snd, source_lowerPattern, id_eq]
  rfl

/-- At the place of the only star nothing is captured if it is one without a name. -/
theorem captures_of_star (hstars : ¬1 < (positions (·.isStar) qs).length)
    (hstar : (positions (·.isStar) qs).head? = some star) (hany : qs.any (·.isStarWildcard)) :
    ∀ x ∈ qs.zipIdx, x.2 = star → x.1.captures = [] := by
  intro x hx hplace
  have hpositions : positions (·.isStar) qs = [star] := by
    cases hcons : positions (·.isStar) qs with
    | nil => rw [hcons] at hstar; cases hstar
    | cons i more =>
      rw [hcons] at hstar hstars
      obtain rfl := Option.some.inj hstar
      rw [length_cons, Nat.lt_add_left_iff_pos, Nat.pos_iff_ne_zero, not_not] at hstars
      rw [length_eq_zero_iff.mp hstars]
  obtain ⟨q, hq, hwild⟩ := any_eq_true.mp hany
  obtain ⟨i, hi⟩ := getElem?_of_mem hq
  have hisStar : q.isStar := by
    match q, hwild with
    | .star _ none, _ => rfl
  have hmem : i ∈ positions (·.isStar) qs :=
    mem_map.mpr ⟨(q, i), mem_filter.mpr ⟨mem_zipIdx_iff_getElem?.mpr hi, hisStar⟩, rfl⟩
  rw [hpositions, mem_singleton] at hmem
  have hx := mem_zipIdx_iff_getElem?.mp hx
  rw [hplace, ← hmem, hi] at hx
  exact Option.some.inj hx ▸ captures_of_isStarWildcard hwild

theorem capturesOf_eq_nil (h : qs.all fun q => q.isWildcard || q.isStarWildcard) :
    capturesOf qs = [] := by
  induction qs with
  | nil => rfl
  | cons q qs ih =>
    rw [all_cons, Bool.and_eq_true] at h
    have hq : q.captures = [] := by
      rcases (Bool.or_eq_true _ _).mp h.1 with hwild | hwild
      · exact captures_of_isWildcard hwild
      · exact captures_of_isStarWildcard hwild
    rw [capturesOf, hq, ih h.2, append_nil]

/-- The generator tests the subject, which is counted already. -/
def TriesCounted (c : GenContext) (test : PatternState → Gen PatternState) (names : List String)
    (trial : (V : Type) → Interpretation V → Matcher V) : Prop :=
  Tries c (fun p => test (p.grow 1)) names trial

theorem Checks.tries_counted (hf : Checks c f t) (hg : TriesCounted c g names u) :
    Tries c (fun p => f (p.grow 1) >>= g) names fun V D v => t V D v >>= fun _ => u V D v := by
  intro p p' s s' h hrun
  obtain ⟨q, s₁, hfirst, hrest⟩ := bind_eq_ok.mp hrun
  obtain ⟨ps, h₁, honTop₁, hcheck⟩ := hf (p := p.grow 1) h hfirst
  have hshrunk : (q.shrink 1).onTop = p.onTop := Nat.sub_eq_of_eq_add honTop₁
  rw [← grow_shrink (p := q) (n := 1) (honTop₁ ▸ Nat.le_add_left _ _)] at hrest
  obtain ⟨hnames, qs, h₂, honTop₂, htest⟩ := hg (p := q.shrink 1) h₁.awaits hrest
  refine ⟨fun V D v bs hbs => ?_, _, h₁.within.trans h₂, honTop₂.trans hshrunk,
    fun V D consts hconsts base v x hx => ?_⟩
  · obtain ⟨_, -, hbs⟩ := bind_some.mp hbs
    exact hnames V D v bs hbs
  · refine h₂.enacts_bind (hcheck V D consts (h₂.constants hconsts) base v x ?_) fun _ _ => ?_
    · rw [depth_grow, hx]
    · exact htest V D consts hconsts base v x (hx.trans (h₁.within.depth_eq hshrunk).symm)

theorem Checks.tries (hf : Checks c f t) (hg : Tries c g names u) :
    Tries c (fun p => f (p.grow 1) >>= fun p => g (p.shrink 1)) names fun V D v =>
      t V D v >>= fun _ => u V D v :=
  hf.tries_counted (g := fun p => g (p.shrink 1)) hg

theorem tries_drop : Tries c (fun p => do emit .popTop 0 loc; return p) [] fun _ _ _ => pure [] :=
  tries_capture none

theorem tries_testSequence (hqs : ∀ q ∈ qs, q.Tried c) :
    Tries c (testSequence loc (lowerPatterns qs)) (capturesOf qs) fun _ D =>
      D.matchSequence qs (D.matchers qs) := by
  intro p p' s s' h hrun
  unfold testSequence at hrun
  rw [positions_lowerPatterns, length_lowerPatterns] at hrun
  obtain ⟨hstars, hrun⟩ := of_refuseIf hrun
  generalize hstar : (positions (·.isStar) qs).head? = star at hrun
  have hall : (lowerPatterns qs).all (fun c => c.source.isWildcard || c.source.isStarWildcard) =
      qs.all fun q => q.isWildcard || q.isStarWildcard := by
    rw [lowerPatterns_eq_map, all_map]
    simp only [Function.comp_def, source_lowerPattern]
  have hany : (lowerPatterns qs).any (·.source.isStarWildcard) = qs.any (·.isStarWildcard) := by
    rw [lowerPatterns_eq_map, any_map]
    simp only [Function.comp_def, source_lowerPattern]
  have hlength : Checks c (testSequenceLength qs.length star loc) _ :=
    checks_testSequenceLength ..
  simp only [hall, hany] at hrun
  simp only [matchSequence, hstar]
  by_cases hwild : (qs.all fun q => q.isWildcard || q.isStarWildcard) = true
  · simp only [hwild, if_true] at hrun ⊢
    rw [capturesOf_eq_nil hwild]
    exact hlength.tries tries_drop h hrun
  · simp only [hwild] at hrun ⊢
    have hitems : Tries c (testItems (lowerPatterns qs) star loc) _ _ :=
      tries_testItems hqs fun i hi =>
        lt_length_of_mem_positions (mem_of_mem_head? (hstar ▸ hi))
    cases star with
    | none => exact hlength.tries hitems h hrun
    | some star =>
      cases hnone : qs.any (·.isStarWildcard) with
      | true =>
        simp only [hnone] at hrun ⊢
        have hindexed : Tries c (testIndexed (lowerPatterns qs) star loc) _ _ :=
          tries_testIndexed hqs (captures_of_star hstars hstar hnone)
        exact hlength.tries hindexed h hrun
      | false =>
        simp only [hnone] at hrun ⊢
        exact hlength.tries hitems h hrun

end

end Bytecode
