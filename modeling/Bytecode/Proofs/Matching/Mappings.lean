import Bytecode.Proofs.Matching.Sequences

/-!
# Tests of mappings and of instances

The values of the keys of a mapping, and the attributes of an instance, are found together and then
tested one by one.
-/

namespace Bytecode

open List Gen Trial PatternState Interpretation

variable {keys : List (Expr ScopeId)} {site : Site} {V : Type}

section

variable {c : GenContext} {p p' : PatternState} {s s' : GenState} {loc : Location} {a : Unit}
  {qs : List (Pattern ScopeId)} {D : Interpretation V}

/-! ### Keys -/

theorem Interpretation.length_values {ks : List V} (h : D.values keys (some ks)) :
    ks.length = keys.length := by
  induction keys generalizing ks with
  | nil => rw [pure_some.mp h]; rfl
  | cons e keys ih =>
    obtain ⟨v, -, h⟩ := bind_some.mp h
    obtain ⟨vs, hvs, h⟩ := bind_some.mp h
    rw [pure_some.mp h, length_cons, ih hvs, length_cons]

theorem tested_loadKeys (hc : site.Met c.scopes c) {seen : List Constant}
    (h : Awaits p.failures s.unit) (hrun : loadKeys loc seen (lowerExprs keys) c s = .ok (a, s')) :
    ∃ ps, Tested c p s p s' ps [] ∧ ∀ V (D : Interpretation V) consts base x,
      Enacts D consts p.failures base ps x (D.values keys) fun ks => ks.reverse ++ x := by
  induction keys generalizing s seen with
  | nil =>
    cases hrun
    exact ⟨_, .refl h, fun V D consts base x => .result (b := ([] : List V)) .nil⟩
  | cons e keys ih =>
    have hrest : ∃ seen', (do
        (lowerExpr e).load
        loadKeys loc seen' (lowerExprs keys) : Gen Unit) c s = .ok (a, s') := by
      unfold loadKeys lowerExprs at hrun
      cases hconst : (lowerExpr e).constant?
      all_goals
        simp only [hconst] at hrun
        exact ⟨_, (of_refuseIf hrun).2⟩
    obtain ⟨seen', hrest⟩ := hrest
    obtain ⟨_, t, hload, hrest⟩ := bind_eq_ok.mp hrest
    obtain ⟨code, h₁⟩ := tested_load hc h hload
    obtain ⟨ps, h₂, hkeys⟩ := ih h₁.awaits hrest
    refine ⟨_, h₁.trans h₂, fun V D consts base x => ?_⟩
    refine h₂.enacts_bind .value fun v _ => (hkeys V D consts base (v :: x)).map fun vs _ => ?_
    simp

/-! ### What is left -/

/-- The value at the given depth is copied, and the value on top taken out of it. -/
def removeAt (loc : Location) (n : Nat) : List Piece :=
  [.instr { op := .real .copy, arg := n, loc := loc },
    .instr { op := .real .swap, arg := 2, loc := loc },
    .instr { op := .real .deleteSubscr, loc := loc }]

/-- The pieces that take `n` keys out of the mapping below them. -/
def removing (loc : Location) (n : Nat) : List Piece :=
  ((List.range n).map (n + 1 - ·)).flatMap (removeAt loc)

theorem removing_succ (n : Nat) :
    removing loc (n + 1) = removeAt loc (n + 2) ++ removing loc n := by
  simp [removing, range_succ_eq_map, map_map, Function.comp_def]

theorem tested_removeAts {ns : List Nat} (h : Awaits p.failures s.unit)
    (hrun : (ns.forM fun n => do
      emit .copy n loc
      emit .swap 2 loc
      emit .deleteSubscr 0 loc) c s = .ok (a, s')) :
    Tested c p s p s' (ns.flatMap (removeAt loc)) [] := by
  induction ns generalizing s with
  | nil =>
    cases hrun
    exact .refl h
  | cons n ns ih =>
    obtain ⟨_, t, hfirst, hrest⟩ := bind_eq_ok.mp hrun
    obtain ⟨_, t₁, hcopy, hfirst⟩ := bind_eq_ok.mp hfirst
    obtain ⟨_, t₂, hswap, hdelete⟩ := bind_eq_ok.mp hfirst
    have h₁ := tested_emit h hcopy
    have h₂ := tested_emit h₁.awaits hswap
    have h₃ := tested_emit h₂.awaits hdelete
    exact (h₁.trans (h₂.trans h₃)).trans (ih h₃.awaits hrest)

theorem placed_removing (n : Nat) : placed (transcript (removing loc n)) = [] := by
  unfold removing
  induction (List.range n).map (n + 1 - ·) with
  | nil => rfl
  | cons i is ih => exact ih

theorem enacts_removing {consts : List Constant} {exits : List Label} {base ks x : List V} {m : V} :
    Enacts D consts exits base (removing loc ks.length) (ks ++ m :: x) (D.removeKeys m ks)
      fun _ => m :: x := by
  induction ks with
  | nil => exact .nil
  | cons k ks ih =>
    have hnone : ∀ l ∈ exits, l ∉ placed (transcript (removing loc ks.length)) := by
      simp [placed_removing]
    have hdelete : Enacts D consts exits base [.instr { op := .real .deleteSubscr, loc := loc }]
        (k :: m :: (ks ++ m :: x)) (.any fun _ : Unit => D.does .deleteSubscr 0 [k, m] [] [])
        fun _ => ks ++ m :: x := .perform_none [k, m] [] rfl rfl
    have hswap : Enacts D consts exits base [.instr { op := .real .swap, arg := 2, loc := loc }]
        (m :: k :: (ks ++ m :: x)) (pure ()) fun _ => k :: m :: (ks ++ m :: x) := .swap rfl
    have hcopy : Enacts D consts exits base
        [.instr { op := .real .copy, arg := ks.length + 2, loc := loc }]
        (k :: (ks ++ m :: x)) (pure ()) fun _ => m :: k :: (ks ++ m :: x) :=
      .copy (Nat.le_add_left 1 _) (by simp)
    have hall := hcopy.bind (fun _ _ => hswap.bind (fun _ _ => hdelete.bind (fun _ _ => ih) hnone)
      hnone) hnone
    rw [pure_bind, pure_bind] at hall
    rw [length_cons, removing_succ]
    exact hall

theorem tested_captureRest {size : Nat} {name : String} (h : Awaits p.failures s.unit)
    (hrun : captureRest size name loc p c s = .ok (p', s')) :
    ∃ ps, Tested c p s p' s' ps [name] ∧ p'.onTop = p.onTop ∧
      ∀ V (D : Interpretation V) consts, s'.unit.constants <+: consts →
        ∀ base keys v x, x.length = p.depth →
          Enacts D consts p'.failures base ps (keys :: v :: x) (D.rest size keys v)
            fun copy => x ++ [copy] := by
  obtain ⟨_, t₁, hbuild, hrun⟩ := bind_eq_ok.mp hrun
  obtain ⟨_, t₂, hswap, hrun⟩ := bind_eq_ok.mp hrun
  obtain ⟨_, t₃, hupdate, hrun⟩ := bind_eq_ok.mp hrun
  obtain ⟨_, t₄, hunpack, hrun⟩ := bind_eq_ok.mp hrun
  obtain ⟨_, t₅, hremove, hcapture⟩ := bind_eq_ok.mp hrun
  have h₁ := tested_emit h hbuild
  have h₂ := tested_emit h₁.awaits hswap
  have h₃ := tested_emit h₂.awaits hupdate
  have h₄ := tested_emit h₃.awaits hunpack
  have h₅ := tested_removeAts h₄.awaits hremove
  obtain ⟨-, ps, h₆, honTop, hbind⟩ := tries_capture (some name) h₅.awaits hcapture
  have h₅₆ := h₅.trans h₆
  have h₄₆ := h₄.trans h₅₆
  have h₃₆ := h₃.trans h₄₆
  have h₂₆ := h₂.trans h₃₆
  refine ⟨_, h₁.trans h₂₆, honTop, fun V D consts hconsts base keys v x hx => ?_⟩
  refine h₂₆.enacts_bind (.perform_one [] [] rfl rfl) fun copy _ => ?_
  have hexchange : exchangeTop 3 (copy :: keys :: v :: x) = some (v :: keys :: copy :: x) := rfl
  refine h₃₆.enacts_seq (.swap hexchange) ?_
  refine h₄₆.enacts_bind (.perform_none [v] [keys, copy] rfl rfl) fun _ _ => ?_
  refine h₅₆.enacts_bind (.perform [keys] [] rfl rfl) fun ks hks => ?_
  have hlength : ks.length = size := by
    have hreach := D.reach _ _ _ _ _ (any_some.mp hks)
    exact (congrArg (·.2.2) (Option.some.inj hreach)).symm
  have hremoving : Enacts D consts p.failures base (removing loc size) (ks ++ copy :: x)
      (D.removeKeys copy ks) fun _ => copy :: x := hlength ▸ enacts_removing
  refine h₆.enacts_bind hremoving fun _ _ => .result (b := copy) ?_
  exact (hbind V D consts hconsts base copy x hx).moved

/-- The generator finishes the test of a mapping. On top of the stack are the keys and the
mapping. -/
def Finishes (c : GenContext) (size : Nat) (name : Option String)
    (finish : PatternState → Gen PatternState) : Prop :=
  ∀ ⦃p p' : PatternState⦄ ⦃s s' : GenState⦄, Awaits p.failures s.unit →
    finish p c s = .ok (p', s') →
    ∃ ps, Tested c p s p' s' ps name.toList ∧ p'.onTop = p.onTop ∧
      ∀ V (D : Interpretation V) consts, s'.unit.constants <+: consts →
        ∀ base keys v x, x.length = p.depth →
          Enacts D consts p'.failures base ps (keys :: v :: x) (D.matchRest size name keys v)
            fun bs => x ++ bs.values

theorem finishes_captureRest (size : Nat) (name : String) :
    Finishes c size (some name) (captureRest size name loc) := by
  intro p p' s s' h hrun
  obtain ⟨ps, h₁, honTop, hrest⟩ := tested_captureRest h hrun
  refine ⟨ps, h₁, honTop, fun V D consts hconsts base keys v x hx => ?_⟩
  exact (hrest V D consts hconsts base keys v x hx).map fun _ _ => rfl

theorem finishes_drop (size : Nat) :
    Finishes c size none fun p => do
      emit .popTop 0 loc
      emit .popTop 0 loc
      return p := by
  intro p p' s s' h hrun
  obtain ⟨_, t, hpop, hrun⟩ := bind_eq_ok.mp hrun
  obtain ⟨_, t', hpop', hret⟩ := bind_eq_ok.mp hrun
  cases hret
  have h₁ := tested_emit h hpop
  have h₂ := tested_emit h₁.awaits hpop'
  refine ⟨_, h₁.trans h₂, rfl, fun V D consts _ base keys v x _ => ?_⟩
  refine .result (b := ([] : Bindings V)) ?_
  have hx : x ++ Bindings.values [] = x := append_nil x
  rw [hx]
  exact h₂.enacts_seq .popTop .popTop

/-! ### Mappings -/

theorem PatternState.grow_shrink_comm {m n : Nat} (h : n ≤ p.onTop) :
    (p.grow m).shrink n = (p.shrink n).grow m := by
  simp only [grow, shrink, Nat.sub_add_comm h]

theorem map_fst_matchRest {size : Nat} {name : Option String} {keys v : V} {bs : Bindings V}
    (h : D.matchRest size name keys v (some bs)) : bs.map Prod.fst = name.toList := by
  cases name with
  | none => rw [pure_some.mp h]; rfl
  | some name =>
    obtain ⟨_, -, h⟩ := bind_some.mp h
    rw [pure_some.mp h]
    rfl

/-- The keys are looked up together, and what is found is tested. -/
theorem tries_keys (hc : site.Met c.scopes c) (hqs : ∀ q ∈ qs, q.Tried c)
    (hkeys : keys.length = qs.length) {name : Option String}
    {finish : PatternState → Gen PatternState} (hfinish : Finishes c keys.length name finish) :
    TriesCounted c (fun p => do
      loadKeys loc [] (lowerExprs keys)
      emit .buildTuple keys.length loc
      emit .matchKeys 0 loc
      let p ← failIfNone loc (p.grow 2)
      emit .unpackSequence keys.length loc
      let p ← testUnpacked (lowerPatterns qs) ((p.grow keys.length).shrink 1)
      finish (p.shrink 2)) (capturesOf qs ++ name.toList) fun _ D =>
        D.matchKeys keys (D.matchers qs) name := by
  intro p p' s s' h hrun
  obtain ⟨_, t₁, hload, hrun⟩ := bind_eq_ok.mp hrun
  obtain ⟨_, t₂, hbuild, hrun⟩ := bind_eq_ok.mp hrun
  obtain ⟨_, t₃, hmatch, hrun⟩ := bind_eq_ok.mp hrun
  obtain ⟨q, t₄, hpresent, hrun⟩ := bind_eq_ok.mp hrun
  obtain ⟨_, t₅, hunpack, hrun⟩ := bind_eq_ok.mp hrun
  obtain ⟨r, t₆, hitems, hrest⟩ := bind_eq_ok.mp hrun
  obtain ⟨ps₁, h₁, hvalues⟩ := tested_loadKeys hc h hload
  have h₂ := tested_emit h₁.awaits hbuild
  have h₃ := tested_emit h₂.awaits hmatch
  obtain ⟨ps₄, h₄, honTop₄, hpresents⟩ :=
    checks_failIfNone (p := (p.grow 1).grow 2) h₃.awaits hpresent
  have honTop : q.onTop = p.onTop + 3 := honTop₄
  have hshrunk : q.shrink 1 = (q.shrink 3).grow 2 := by
    simp only [shrink, grow, honTop]
    rfl
  have hunpacked : Tries c (fun p => do
      emit .unpackSequence qs.length loc
      testUnpacked (lowerPatterns qs) (p.grow qs.length)) _ _ :=
    tries_unpacked (fun q hq => hqs q hq true) rfl rfl
  rw [grow_shrink_comm (honTop ▸ Nat.le_add_left 1 _), hkeys] at hitems
  rw [hkeys] at hunpack
  obtain ⟨hnames₅, ps₅, h₅, honTop₅, hparts⟩ :=
    hunpacked (p := q.shrink 1) h₄.awaits (bind_eq_ok.mpr ⟨_, t₅, hunpack, hitems⟩)
  obtain ⟨ps₆, h₆, honTop₆, hrests⟩ := hfinish (p := r.shrink 2) h₅.awaits hrest
  -- Below the keys and the mapping the state counts what it did at the start.
  have hstart : (q.shrink 3).onTop = p.onTop := Nat.sub_eq_of_eq_add honTop
  have hend : (r.shrink 2).onTop = p.onTop := by
    show r.onTop - 2 = p.onTop
    rw [honTop₅, hshrunk]
    exact hstart
  have h₄' : Tested c p t₃ (q.shrink 3) t₄ ps₄ [] := h₄.recount ⟨rfl, rfl⟩ ⟨rfl, rfl⟩
  have h₅' : Tested c (q.shrink 3) t₄ (r.shrink 2) t₆ ps₅ (capturesOf qs) :=
    h₅.recount ⟨rfl, rfl⟩ ⟨rfl, rfl⟩
  have h₅₆ := h₅'.trans h₆
  have h₄₆ := h₄'.trans h₅₆
  have h₃₆ := h₃.trans h₄₆
  have h₂₆ := h₂.trans h₃₆
  refine ⟨fun V D v bs hbs => ?_, _, h₁.trans h₂₆, honTop₆.trans hend,
    fun V D consts hconsts base v x hx => ?_⟩
  · simp only [matchKeys, bind_some, pure_some] at hbs
    obtain ⟨ks, -, tuple, -, found, -, _, -, vs, hvs, bs₁, hbs₁, bs₂, hbs₂, rfl⟩ := hbs
    have hparts : (any (D.does .unpackSequence qs.length [found] []) >>=
        matchEach (D.matchers qs)) (some bs₁) := bind_some.mpr ⟨vs, hkeys ▸ hvs, hbs₁⟩
    rw [map_append, map_fst_matchRest hbs₂, hnames₅ V D found bs₁ hparts]
  · have hdepth : (q.shrink 3).depth = p.depth := h₄'.depth_eq hstart
    refine h₂₆.enacts_bind (hvalues V D consts base (v :: x)) fun ks hks => ?_
    have hreach : Opcode.buildTuple.reach? keys.length = some (ks.reverse.length, 0, 1) := by
      rw [length_reverse, D.length_values hks]
      rfl
    refine h₃₆.enacts_bind (.perform_one ks.reverse [] rfl hreach) fun tuple _ => ?_
    refine h₄₆.enacts_bind (.perform_one [] [tuple, v] rfl rfl) fun found _ => ?_
    refine h₅₆.enacts_bind (hpresents V D consts (h₅₆.constants hconsts) base found
      (tuple :: v :: x) ?_) fun _ _ => ?_
    · rw [depth_grow, depth_grow, ← hx]
      rfl
    rw [← bind_assoc]
    have htest := hparts V D consts (h₆.constants hconsts) base found (tuple :: v :: x) (by
      rw [hshrunk, depth_grow, hdepth, ← hx]
      rfl)
    rw [← hkeys] at htest
    refine h₆.enacts_bind htest fun bs hbs => ?_
    refine (hrests V D consts hconsts base tuple v (x ++ bs.values) ?_).prepend
    rw [h₅'.depth (hend.trans hstart.symm), hdepth, length_append, hx,
      Bindings.length_values (hnames₅ V D found bs (hkeys ▸ hbs))]

theorem length_lowerExprs (es : List (Expr ScopeId)) : (lowerExprs es).length = es.length := by
  induction es with
  | nil => rfl
  | cons e es ih => exact congrArg (· + 1) ih

/-- The subject is a mapping with enough keys, and the rest of the test comes after. -/
theorem tries_mapping {test : PatternState → Gen PatternState} {names : List String} {n : Nat}
    {trial : (V : Type) → Interpretation V → Matcher V} (htest : TriesCounted c test names trial) :
    Tries c (fun p => do
      emit .matchMapping 0 loc
      let p ← (p.grow 1).failIfFalse loc
      if 0 < n then testLength .greaterOrEqual n loc p >>= test else test p) names
      fun V D v => (do
        let w ← D.inspect .matchMapping v
        .check (D.truthy w)
        D.matchSize n v
        trial V D v) := by
  have hinspect : Checks c (fun p => do emit .matchMapping 0 loc; p.failIfFalse loc) fun _ D v =>
      D.inspect .matchMapping v >>= fun w => .check (D.truthy w) := checks_inspect rfl rfl
  have hlength : Checks c (testLength .greaterOrEqual n loc) _ := checks_testLength ..
  by_cases hn : 0 < n
  · have hboth := (hinspect.bind hlength).tries_counted htest
    simp only [bind_assoc] at hboth
    simp only [matchSize, if_pos hn]
    exact hboth
  · have hboth := hinspect.tries_counted htest
    simp only [bind_assoc] at hboth
    simp only [matchSize, if_neg hn, pure_bind]
    exact hboth

theorem tries_testMapping (hc : site.Met c.scopes c) (hqs : ∀ q ∈ qs, q.Tried c)
    (keys : List (Expr ScopeId)) (name : Option String) :
    Tries c (testMapping loc (lowerExprs keys) (lowerPatterns qs) name)
      (capturesOf qs ++ name.toList) fun _ D => D.matchMapping keys (D.matchers qs) name := by
  intro p p' s s' h hrun
  unfold testMapping at hrun
  rw [length_lowerPatterns, length_lowerExprs] at hrun
  obtain ⟨hkeys, htests⟩ := of_refuseIf hrun
  rw [not_not] at hkeys
  by_cases hempty : (keys.length = 0 && name.isNone) = true
  · have hinspect : Checks c (fun p => do emit .matchMapping 0 loc; p.failIfFalse loc) fun _ D v =>
        D.inspect .matchMapping v >>= fun w => .check (D.truthy w) := checks_inspect rfl rfl
    have hdrop : Tries c (fun p => do emit .popTop 0 loc; return p) _ _ := tries_drop
    have htest := hinspect.tries hdrop
    simp only [bind_assoc] at htest
    simp only [hempty, if_true] at htests
    simp only [matchMapping, hempty, if_true]
    rw [Bool.and_eq_true, decide_eq_true_eq, Option.isNone_iff_eq_none] at hempty
    obtain ⟨hnil, rfl⟩ := hempty
    obtain rfl := length_eq_zero_iff.mp (hkeys ▸ hnil)
    exact htest h htests
  · simp only [hempty, pure_bind] at htests
    simp only [matchMapping, hempty]
    cases name with
    | none => exact tries_mapping (tries_keys hc hqs hkeys (finishes_drop _)) h htests
    | some name => exact tries_mapping (tries_keys hc hqs hkeys (finishes_captureRest _ _)) h htests

/-! ### Instances -/

theorem lowerPatterns_append (qs rs : List (Pattern ScopeId)) :
    lowerPatterns (qs ++ rs) = lowerPatterns qs ++ lowerPatterns rs := by
  simp only [lowerPatterns_eq_map, map_append]

theorem capturesOf_append (qs rs : List (Pattern ScopeId)) :
    capturesOf (qs ++ rs) = capturesOf qs ++ capturesOf rs := by
  induction qs with
  | nil => rfl
  | cons q qs ih => rw [cons_append, capturesOf, ih, capturesOf, append_assoc]

theorem Interpretation.matchers_append (D : Interpretation V) (qs rs : List (Pattern ScopeId)) :
    D.matchers (qs ++ rs) = D.matchers qs ++ D.matchers rs := by
  induction qs with
  | nil => rfl
  | cons q qs ih => rw [cons_append, matchers, ih, matchers, cons_append]

theorem Interpretation.length_matchers (D : Interpretation V) (qs : List (Pattern ScopeId)) :
    (D.matchers qs).length = qs.length := by
  induction qs with
  | nil => rfl
  | cons q qs ih => rw [matchers, length_cons, ih, length_cons]

def attributeTest (loc : Location) (code : PatternCode) (p : PatternState) : Gen PatternState :=
  if code.source.isWildcard then do
    emit .popTop 0 loc
    return p
  else code.testPart p

theorem tries_attributeTest {q : Pattern ScopeId} (hq : q.Tried c) :
    Tries c (attributeTest loc (lowerPattern q)) q.captures fun _ D => D.matcher q := by
  intro p p' s s' h hrun
  unfold attributeTest at hrun
  rw [source_lowerPattern] at hrun
  by_cases hwild : q.isWildcard
  · rw [if_pos hwild] at hrun
    match q, hwild with
    | .capture _ none none, _ => exact tries_drop h hrun
  · rw [if_neg hwild] at hrun
    exact hq true h hrun

theorem eq_of_checkAttributes {attrs : List (String × Location)}
    (hrun : checkAttributes attrs c s = .ok (a, s')) : s' = s := by
  induction attrs with
  | nil =>
    cases hrun
    rfl
  | cons x rest ih =>
    obtain ⟨attr, loc⟩ := x
    unfold checkAttributes at hrun
    obtain ⟨-, hrest⟩ := of_refuseIf hrun
    cases hfind : rest.find? (·.1 = attr) with
    | none =>
      simp only [hfind] at hrest
      exact ih hrest
    | some again =>
      simp only [hfind] at hrest
      cases hrest

theorem tries_testClass (hc : site.Met c.scopes c) {rs : List (Pattern ScopeId)}
    (hqs : ∀ q ∈ qs, q.Tried c) (hrs : ∀ q ∈ rs, q.Tried c) (cls : Expr ScopeId)
    (attrs : List String) :
    Tries c (testClass loc (lowerExpr cls) (lowerPatterns qs) attrs (lowerPatterns rs))
      (capturesOf qs ++ capturesOf rs) fun _ D =>
        D.matchClass cls qs.length attrs (D.matchers qs ++ D.matchers rs) := by
  intro p p' s s' h hrun
  unfold testClass at hrun
  rw [length_lowerPatterns, length_lowerPatterns, ← lowerPatterns_append] at hrun
  obtain ⟨-, hrun⟩ := of_refuseIf hrun
  obtain ⟨_, t₀, hcheck, hafter⟩ := bind_eq_ok.mp hrun
  obtain rfl := eq_of_checkAttributes hcheck
  obtain ⟨_, t₁, hload, hrun⟩ := bind_eq_ok.mp hafter
  obtain ⟨_, t₂, hconst, hrun⟩ := bind_eq_ok.mp hrun
  obtain ⟨_, t₃, hmatch, hrun⟩ := bind_eq_ok.mp hrun
  obtain ⟨q, t₄, hpresent, hunpack⟩ := bind_eq_ok.mp hrun
  obtain ⟨code, h₁⟩ := tested_load hc h hload
  obtain ⟨i, h₂, hi⟩ := tested_emitConst h₁.awaits hconst
  have h₃ := tested_emit h₂.awaits hmatch
  obtain ⟨ps₄, h₄, honTop₄, hpresents⟩ := checks_failIfNone (p := p.grow 1) h₃.awaits hpresent
  have honTop : q.onTop = p.onTop + 1 := honTop₄
  have hparts : Tries c (fun p => do
      emit .unpackSequence (qs ++ rs).length loc
      (lowerPatterns (qs ++ rs)).foldlM (testAttribute loc) (p.grow (qs ++ rs).length)) _ _ :=
    tries_unpacked (f := attributeTest loc)
      (fun q hq => tries_attributeTest ((mem_append.mp hq).elim (hqs q) (hrs q))) rfl rfl
  rw [length_lowerPatterns, grow_shrink_comm (honTop ▸ Nat.le_add_left 1 _)] at hunpack
  obtain ⟨hnames, ps₅, h₅, honTop₅, htests⟩ := hparts (p := q.shrink 1) h₄.awaits hunpack
  have hshrunk : (q.shrink 1).onTop = p.onTop := Nat.sub_eq_of_eq_add honTop
  have h₄₅ := h₄.within.trans h₅
  have h₃₅ := h₃.trans h₄₅
  have h₂₅ := h₂.trans h₃₅
  have hclass : ∀ V (D : Interpretation V) v,
      D.matchClass cls qs.length attrs (D.matchers qs ++ D.matchers rs) v = (do
        let k ← any (D.value cls)
        let found ← .any fun w =>
          D.does .matchClass qs.length [D.const (.tuple (attrs.map .str)), k, v] [] [w]
        D.present found
        any (D.does .unpackSequence (qs ++ rs).length [found] []) >>=
          matchEach (D.matchers (qs ++ rs))) := by
    intro V D v
    rw [matchClass, ← D.matchers_append, D.length_matchers]
    rfl
  simp only [hclass, ← capturesOf_append]
  refine ⟨fun V D v bs hbs => ?_, _, h₁.trans h₂₅, honTop₅.trans hshrunk,
    fun V D consts hconsts base v x hx => ?_⟩
  · obtain ⟨k, -, hbs⟩ := bind_some.mp hbs
    obtain ⟨found, -, hbs⟩ := bind_some.mp hbs
    obtain ⟨_, -, hbs⟩ := bind_some.mp hbs
    exact hnames V D found bs hbs
  · refine h₂₅.enacts_bind .value fun k _ => ?_
    refine h₃₅.enacts_seq (.loadConst (hi consts (h₃₅.constants hconsts))) ?_
    refine h₄₅.enacts_bind
      (.perform_one [D.const (.tuple (attrs.map .str)), k, v] [] rfl rfl) fun found _ => ?_
    refine h₅.enacts_bind (hpresents V D consts (h₅.constants hconsts) base found x ?_)
      fun _ _ => ?_
    · rw [depth_grow, hx]
    · refine htests V D consts hconsts base found x ?_
      rw [h₄.within.depth_eq hshrunk, hx]

end

end Bytecode
