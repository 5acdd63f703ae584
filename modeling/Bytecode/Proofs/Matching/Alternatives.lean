import Bytecode.Proofs.Lowering.Alternatives
import Bytecode.Proofs.Matching.Mappings
import Bytecode.Proofs.Matching.Orders

/-!
# Tests of alternatives

Each alternative is tested on a copy of the subject, with exits of its own. If it fails, the next
one begins on the subject; if it matches, its captures are brought into order and control leaves for
the label after all of them.
-/

namespace Bytecode

open List Gen Trial

section

variable {V : Type} {D : Interpretation V} {consts : List Constant} {exits : List Label}
  {base : List V} {ps : List Piece} {loc : Location} {done : Label} {y : Control V}

/-- There is one way to bring bindings into the order of different names. -/
theorem Bindings.eq_of_perm {bs bs' : Bindings V} (hperm : bs'.Perm bs)
    (hnames : bs'.map Prod.fst = bs.map Prod.fst) (hnodup : (bs.map Prod.fst).Nodup) :
    bs' = bs := by
  induction bs generalizing bs' with
  | nil => exact hperm.eq_nil
  | cons b bs ih =>
    cases bs' with
    | nil => cases hnames
    | cons b' bs' =>
      rw [map_cons, map_cons, List.cons.injEq] at hnames
      rw [map_cons, nodup_cons] at hnodup
      have hb : b' = b := by
        rcases mem_cons.mp (hperm.subset (mem_cons_self ..)) with hb | hb
        · exact hb
        · exact absurd (hnames.1 ▸ mem_map_of_mem hb) hnodup.1
      obtain rfl := hb
      rw [ih ((perm_cons b').mp hperm) hnames.2 hnodup.2]

theorem Enacts.any_of_unique {β : Type} {P : β → Prop} {x : List V} {out : β → List V} {b : β}
    (h : Enacts D consts exits base ps x (pure () : Trial Unit) fun _ => out b) (hb : P b)
    (hunique : ∀ b', P b' → b' = b) : Enacts D consts exits base ps x (.any P) out := by
  have hany : (any P : Trial β) = pure b := by
    ext b'
    · rw [any_some, pure_some]
      exact ⟨hunique b', fun heq => heq ▸ hb⟩
    · simp
  rw [hany]
  exact h.result

theorem enacts_copy_base {v : V} {stack : List V} :
    Enacts D consts exits (v :: stack) [.instr { op := .real .copy, arg := 1, loc := loc }] []
      (pure ()) fun _ => [v] :=
  .step fun y => by
    refine ⟨?_, fun hy => ⟨Nat.le_refl 1, v, rfl, hy⟩⟩
    rintro ⟨-, w, hw, rfl⟩
    cases hw
    rfl

theorem placed_popChain : ∀ l ∈ placed (transcript (popChain loc exits)), l ∈ exits := by
  cases exits with
  | nil => exact fun _ h => h
  | cons first rest =>
    intro l hl
    rw [popChain, transcript_append, placed_append, placed_popAts, mem_append] at hl
    rcases hl with hl | hl
    · exact mem_cons_of_mem _ (mem_reverse.mp hl)
    · exact mem_cons.mpr (.inl (mem_singleton.mp hl))

/-- A trial that leaves for a label, or fails and ends at the base. -/
theorem crosses_attempt {β : Type} {t : Trial β} {out : β → List V}
    (h : Enacts D consts exits base ps [] t out) (hnodup : exits.Nodup) (hdone : done ∉ exits) :
    Crosses D consts (ps ++ (.instr { op := .pseudo .jump, arg := done, loc := loc } ::
      popChain loc exits)) (.here base) y ↔
      (∃ b, t (some b) ∧ y = .away done (out b ++ base)) ∨ t none ∧ y = .here base := by
  have hsuccess : ∀ stack, Crosses D consts
      (.instr { op := .pseudo .jump, arg := done, loc := loc } :: popChain loc exits)
        (.here stack) y ↔ y = .away done stack := by
    intro stack
    have hpast :
        Crosses D consts (popChain loc exits) (.away done stack) y ↔ y = .away done stack :=
      crosses_away fun hl => hdone (placed_popChain _ hl)
    constructor
    · rintro ⟨_, rfl, hy⟩
      exact hpast.mp hy
    · exact fun hy => ⟨_, rfl, hpast.mpr hy⟩
  have hfailure : ∀ {z}, Fails exits base z → (Crosses D consts
      (.instr { op := .pseudo .jump, arg := done, loc := loc } :: popChain loc exits) z y ↔
        y = .here base) := by
    rintro _ ⟨l, above, hl, rfl⟩
    have hchain :
        Crosses D consts (popChain loc exits) (.away l (above ++ base)) y ↔ y = .here base :=
      crosses_popChain hnodup hl
    constructor
    · rintro ⟨_, rfl, hy⟩
      exact hchain.mp hy
    · exact fun hy => ⟨_, rfl, hchain.mpr hy⟩
  rw [crosses_append]
  constructor
  · rintro ⟨z, hz, hy⟩
    rcases h.sound z hz with ⟨b, hb, rfl⟩ | ⟨hnone, hfails⟩
    · exact .inl ⟨b, hb, (hsuccess _).mp hy⟩
    · exact .inr ⟨hnone, (hfailure hfails).mp hy⟩
  · rintro (⟨b, hb, hy⟩ | ⟨hnone, hy⟩)
    · exact ⟨_, h.reaches b hb, (hsuccess _).mpr hy⟩
    · obtain ⟨z, hz, hfails⟩ := h.fails hnone
      exact ⟨z, hz, (hfailure hfails).mpr hy⟩

end

/-- Trials of a subject have been written, which leave for the label with what they bind on the
stack. If they fail, control is where they began. -/
structure Attempted (c : GenContext) (done : Label) (s s' : GenState) (ps : List Piece)
    (trial : (V : Type) → Interpretation V → Matcher V) : Prop where
  grows : s.unit.Extends s'.unit (transcript ps)
  keeps : ∀ l, s.unit.graph.Waits l → s'.unit.graph.Waits l
  faithful : ∀ x ∈ ps, x.Faithful c
  crosses : ∀ V D consts, s'.unit.constants <+: consts → ∀ v stack y,
    Crosses D consts ps (.here (v :: stack)) y ↔
      (∃ bs, trial V D v (some bs) ∧ y = .away done (bs.values ++ v :: stack)) ∨
        trial V D v none ∧ y = .here (v :: stack)

section

variable {c : GenContext} {p p' : PatternState} {s t s' : GenState} {loc : Location} {done : Label}
  {irrefutable : Bool} {names : List String} {ps qs : List Piece}

theorem Attempted.nil (h : s.unit.graph.Chained) :
    Attempted c done s s [] fun _ _ _ => .fail where
  grows := .refl h
  keeps _ hl := hl
  faithful := forall_mem_nil _
  crosses V D consts _ v stack y := by simp [Crosses]

theorem Attempted.orElse {T U : (V : Type) → Interpretation V → Matcher V}
    (h : Attempted c done s t ps T) (h' : Attempted c done t s' qs U)
    (hdone : s.unit.graph.Waits done) :
    Attempted c done s s' (ps ++ qs) fun V D v => (T V D v).orElse (U V D v) where
  grows := by
    rw [transcript_append]
    exact h.grows.trans h'.grows
  keeps l hl := h'.keeps l (h.keeps l hl)
  faithful := forall_mem_append.mpr ⟨h.faithful, h'.faithful⟩
  crosses V D consts hconsts v stack y := by
    have hpast : done ∉ placed (transcript qs) := fun hplaced =>
      (h'.keeps _ (h.keeps _ hdone)).not_hasPlace (h'.grows.placed _ hplaced)
    have hfirst := h.crosses V D consts (h'.grows.constants.trans hconsts) v stack
    have hrest := h'.crosses V D consts hconsts v stack y
    rw [crosses_append]
    simp only [hfirst]
    constructor
    · rintro ⟨z, ⟨bs, hbs, rfl⟩ | ⟨hnone, rfl⟩, hy⟩
      · exact .inl ⟨bs, orElse_some.mpr (.inl hbs), (crosses_away hpast).mp hy⟩
      · rcases hrest.mp hy with ⟨bs, hbs, hy⟩ | ⟨hnone', hy⟩
        · exact .inl ⟨bs, orElse_some.mpr (.inr ⟨hnone, hbs⟩), hy⟩
        · exact .inr ⟨orElse_none.mpr ⟨hnone, hnone'⟩, hy⟩
    · rintro (⟨bs, hbs, hy⟩ | ⟨hnone, hy⟩)
      · rcases orElse_some.mp hbs with hbs | ⟨hnone, hbs⟩
        · exact ⟨_, .inl ⟨bs, hbs, rfl⟩, (crosses_away hpast).mpr hy⟩
        · exact ⟨_, .inr ⟨hnone, rfl⟩, hrest.mpr (.inl ⟨bs, hbs, hy⟩)⟩
      · obtain ⟨hnone, hnone'⟩ := orElse_none.mp hnone
        exact ⟨_, .inr ⟨hnone, rfl⟩, hrest.mpr (.inr ⟨hnone', hy⟩)⟩

theorem faithful_popChain {exits : List Label} : ∀ x ∈ popChain loc exits, x.Faithful c := by
  have hpopAt : ∀ l, ∀ x ∈ popAt loc l, x.Faithful c := by
    intro l x hx
    rcases mem_cons.mp hx with rfl | hx
    · trivial
    · exact mem_singleton.mp hx ▸ trivial
  cases exits with
  | nil => exact forall_mem_nil _
  | cons first rest =>
    intro x hx
    rcases mem_append.mp hx with hx | hx
    · obtain ⟨l, -, hx⟩ := mem_flatMap.mp hx
      exact hpopAt l x hx
    · exact mem_singleton.mp hx ▸ trivial

theorem attempted_alternative {q : Pattern ScopeId} (hq : q.Tried c) {t₁ t₂ t₃ t₄ : GenState}
    {a b d : Unit} (hchained : s.unit.graph.Chained) (hdone : s.unit.graph.Waits done)
    (hcopy : emit .copy 1 loc c s = .ok (a, t₁))
    (htest : (lowerPattern q).test irrefutable {} c t₁ = .ok (p, t₂))
    (halign : Awaits p.failures t₂.unit → ∃ qs, Aligned c p t₂ t₃ qs p.stores names)
    (hnodup : names.Nodup) (hjump : emitJump PseudoOp.jump done loc c t₃ = .ok (b, t₄))
    (hfailures : p.emitFailures loc c t₄ = .ok (d, s')) :
    ∃ ps, Attempted c done s s' ps fun _ D v => inOrder names (D.matcher q v) := by
  have hstart : Awaits ({} : PatternState).failures s.unit := .nil hchained
  have h₁ := tested_emit hstart hcopy
  obtain ⟨hnames, ps, h₂, -, htrial⟩ := hq irrefutable h₁.awaits htest
  obtain ⟨qs, halign⟩ := halign h₂.awaits
  have h₁₃ := h₁.trans (h₂.trans halign.tested)
  have hjumped := grown_emitJump halign.tested.awaits hjump
  obtain ⟨hpops, hkeeps⟩ := PatternState.extends_emitFailures hjumped.awaits hfailures
  have hown : ∀ l, s.unit.graph.Waits l → l ∉ p.failures := by
    intro l hl hmem
    rcases h₁₃.grown.fresh l hmem with hnone | hfresh
    · cases hnone
    · exact Nat.lt_irrefl _ (Nat.lt_of_lt_of_le hl.lt hfresh)
  refine ⟨([.instr { op := .real .copy, arg := 1, loc := loc }] ++ (ps ++ qs)) ++
    (.instr { op := .pseudo .jump, arg := done, loc := loc } :: popChain loc p.failures),
    ?_, fun l hl => ?_, ?_, ?_⟩
  · rw [transcript_append]
    exact h₁₃.grown.grows.trans (hjumped.grows.trans hpops)
  · exact hkeeps l (hown l hl) (hjumped.keeps l (h₁₃.grown.keeps l hl))
  · refine forall_mem_append.mpr ⟨h₁₃.faithful, ?_⟩
    exact forall_mem_cons.mpr ⟨trivial, faithful_popChain⟩
  · intro V D consts hconsts v stack y
    have hconsts₃ := (hjumped.grows.trans hpops).constants.trans hconsts
    refine crosses_attempt ?_ h₁₃.awaits.nodup (hown done hdone)
    refine (h₂.trans halign.tested).enacts_seq enacts_copy_base ?_
    refine halign.tested.enacts_bind
      (htrial V D consts (halign.tested.constants hconsts₃) (v :: stack) v [] rfl) fun bs hbs => ?_
    have hstores : bs.map Prod.fst = p.stores := (hnames V D v bs hbs).trans h₂.stores.symm
    obtain ⟨bs', hperm, hnames', hmoves⟩ := halign.moves V bs hstores
    refine .any_of_unique (hmoves D consts (v :: stack)) ⟨hperm, hnames'⟩ fun bs'' hbs'' => ?_
    exact Bindings.eq_of_perm (hbs''.1.trans hperm.symm) (hbs''.2.trans hnames'.symm)
      (hnames'.symm ▸ hnodup)

variable {rs : List (Pattern ScopeId)} {first : List String}

theorem attempted_rest (hrs : ∀ q ∈ rs, q.Tried c) (hchained : s.unit.graph.Chained)
    (hdone : s.unit.graph.Waits done) (hnodup : first.Nodup)
    (hrun : testEach loc done irrefutable (some first) (lowerPatterns rs) c s = .ok (names, s')) :
    ∃ ps, Attempted c done s s' ps fun _ D => matchFirst first (D.matchers rs) := by
  induction rs generalizing s with
  | nil =>
    cases hrun
    exact ⟨[], .nil hchained⟩
  | cons q rs ih =>
    obtain ⟨hq, hrs⟩ := forall_mem_cons.mp hrs
    obtain ⟨_, t₁, hcopy, hrun⟩ := bind_eq_ok.mp hrun
    obtain ⟨p, t₂, htest, hrun⟩ := bind_eq_ok.mp hrun
    obtain ⟨_, t₃, halign, hrun⟩ := bind_eq_ok.mp hrun
    obtain ⟨_, t₄, hjump, hrun⟩ := bind_eq_ok.mp hrun
    obtain ⟨_, t₅, hfailures, hrest⟩ := bind_eq_ok.mp hrun
    obtain ⟨ps, h₁⟩ := attempted_alternative hq hchained hdone hcopy htest
      (fun hawaits => aligned_alignCaptures hnodup hawaits halign) hnodup hjump hfailures
    obtain ⟨qs, h₂⟩ := ih hrs h₁.grows.chained (h₁.keeps done hdone) hrest
    exact ⟨ps ++ qs, h₁.orElse h₂ hdone⟩

/-- All alternatives. The names are those that the first of them captures. -/
theorem attempted_testEach (hrs : ∀ q ∈ rs, q.Tried c) (hchained : s.unit.graph.Chained)
    (hdone : s.unit.graph.Waits done)
    (hrun : testEach loc done irrefutable none (lowerPatterns rs) c s = .ok (names, s')) :
    names = capturesOfFirst rs ∧
      ∃ ps, Attempted c done s s' ps fun _ D => matchFirst names (D.matchers rs) := by
  cases rs with
  | nil =>
    cases hrun
    exact ⟨rfl, [], .nil hchained⟩
  | cons q rs =>
    obtain ⟨hq, hrs⟩ := forall_mem_cons.mp hrs
    obtain ⟨_, t₁, hcopy, hrun⟩ := bind_eq_ok.mp hrun
    obtain ⟨p, t₂, htest, hrun⟩ := bind_eq_ok.mp hrun
    obtain ⟨_, t₃, hjump, hrun⟩ := bind_eq_ok.mp hrun
    obtain ⟨_, t₄, hfailures, hrest⟩ := bind_eq_ok.mp hrun
    obtain rfl : names = p.stores := eq_of_testEach hrest
    have hstart : Awaits ({} : PatternState).failures s.unit := .nil hchained
    obtain ⟨-, _, htested, -⟩ := hq _ (tested_emit hstart hcopy).awaits htest
    have hnodup : p.stores.Nodup := htested.nodup nodup_nil
    obtain ⟨ps, h₁⟩ := attempted_alternative hq hchained hdone hcopy htest
      (fun hawaits => ⟨[], .refl hawaits _⟩) hnodup hjump hfailures
    obtain ⟨qs, h₂⟩ := attempted_rest hrs h₁.grows.chained (h₁.keeps done hdone) hnodup hrest
    exact ⟨htested.stores, ps ++ qs, h₁.orElse h₂ hdone⟩

theorem matchFirst_names {V : Type} {ms : List (Matcher V)} {v : V} {bs : Bindings V}
    (h : matchFirst names ms v (some bs)) : bs.map Prod.fst = names := by
  induction ms with
  | nil => cases h
  | cons m ms ih =>
    rcases orElse_some.mp h with h | ⟨-, h⟩
    · obtain ⟨_, -, h⟩ := bind_some.mp h
      exact (any_some.mp h).2
    · exact ih h

end

section

variable {V : Type} {D : Interpretation V} {consts : List Constant} {exits : List Label}
  {base stack : List V} {loc : Location} {l done : Label} {y : Control V} {v : V}

/-- Where the alternatives meet. Those that have all failed go on to an exit. -/
def meeting (loc : Location) (l done : Label) : List Piece :=
  [.instr { op := .real .popTop, loc := loc }, .instr { op := .pseudo .jump, arg := l, loc := loc },
    .label done]

theorem crosses_meeting_away :
    Crosses D consts (meeting loc l done) (.away done stack) y ↔ y = .here stack := by
  constructor
  · rintro ⟨_, rfl, _, rfl, _, hy, rfl⟩
    exact Eq.trans hy (if_pos rfl)
  · rintro rfl
    exact ⟨_, rfl, _, rfl, _, (if_pos rfl).symm, rfl⟩

theorem crosses_meeting_here (hne : done ≠ l) :
    Crosses D consts (meeting loc l done) (.here (v :: stack)) y ↔ y = .away l stack := by
  constructor
  · rintro ⟨_, ⟨_, _, heq, rfl⟩, _, rfl, _, hy, rfl⟩
    cases heq
    exact Eq.trans hy (if_neg hne)
  · rintro rfl
    exact ⟨_, ⟨v, stack, rfl, rfl⟩, _, rfl, _, (if_neg hne).symm, rfl⟩

/-- After the alternatives, what they bind is on the stack above the subject. -/
theorem Attempted.enacts {c : GenContext} {s s' : GenState} {ps : List Piece} {x : List V}
    {trial : (V : Type) → Interpretation V → Matcher V} (h : Attempted c done s s' ps trial)
    (hconsts : s'.unit.constants <+: consts) (hl : exits[x.length]? = some l) (hne : done ≠ l) :
    Enacts D consts exits base (ps ++ meeting loc l done) (v :: x) (trial V D v)
      fun bs => bs.values ++ v :: x := by
  have hcrosses := h.crosses V D consts hconsts v (x ++ base)
  constructor
  case sound =>
    intro y hy
    obtain ⟨z, hz, hy⟩ := crosses_append.mp hy
    rcases (hcrosses z).mp hz with ⟨bs, hbs, rfl⟩ | ⟨hnone, rfl⟩
    · refine .inl ⟨bs, hbs, ?_⟩
      rw [crosses_meeting_away.mp hy, append_assoc]
      rfl
    · exact .inr ⟨hnone, l, x, hl, (crosses_meeting_here hne).mp hy⟩
  case reaches =>
    intro bs hbs
    refine crosses_append.mpr ⟨_, (hcrosses _).mpr (.inl ⟨bs, hbs, rfl⟩), ?_⟩
    rw [crosses_meeting_away, append_assoc]
    rfl
  case fails =>
    intro hnone
    refine ⟨.away l (x ++ base), crosses_append.mpr ⟨_, (hcrosses _).mpr (.inr ⟨hnone, rfl⟩), ?_⟩,
      l, x, hl, rfl⟩
    exact (crosses_meeting_here hne).mpr rfl

end

section

variable {c : GenContext} {loc : Location} {irrefutable : Bool} {rs : List (Pattern ScopeId)}

theorem tries_testAlternatives (hrs : ∀ q ∈ rs, q.Tried c) :
    Tries c (testAlternatives loc (lowerPatterns rs) irrefutable) (capturesOfFirst rs) fun _ D =>
      matchFirst (capturesOfFirst rs) (D.matchers rs) := by
  intro p p' s s' h hrun
  obtain ⟨done, t₁, hnew, hrun⟩ := bind_eq_ok.mp hrun
  obtain ⟨names, t₂, heach, hrun⟩ := bind_eq_ok.mp hrun
  obtain ⟨_, t₃, hpop, hrun⟩ := bind_eq_ok.mp hrun
  obtain ⟨q, t₄, hjump, hrun⟩ := bind_eq_ok.mp hrun
  obtain ⟨_, t₅, hbind, hrun⟩ := bind_eq_ok.mp hrun
  obtain ⟨r, t₆, hadopt, hrun⟩ := bind_eq_ok.mp hrun
  obtain ⟨_, t₇, hpop', hret⟩ := bind_eq_ok.mp hrun
  cases hret
  -- The label at which the alternatives meet is new, and no exit.
  obtain ⟨hlabel, hsize⟩ := grown_newLabel h hnew
  have hwaits : t₁.unit.graph.Waits done := hlabel.awaits.waits done (by simp)
  have hother : done ∉ p.failures := fun hmem =>
    (nodup_append.mp hlabel.awaits.nodup).2.2 done hmem done (by simp) rfl
  have h₁ : Tested c p s p t₁ [] [] :=
    .of_grown (.of_extends h hlabel.grows hlabel.keeps) (forall_mem_nil _)
  obtain ⟨hnames, ps, hattempted⟩ := attempted_testEach hrs hlabel.awaits.chained hwaits heach
  have h₂ : Tested c p t₁ p t₂ ps [] :=
    .of_grown (.of_extends h₁.awaits hattempted.grows hattempted.keeps) hattempted.faithful
  have h₃ := tested_emit h₂.awaits hpop
  obtain ⟨l, h₄, honTop₄, hl⟩ := tested_jumpToFailure h₃.awaits hjump
  have h₂₄ := h₂.trans (h₃.trans h₄)
  have hother' : done ∉ q.failures := by
    intro hmem
    rcases h₂₄.grown.fresh done hmem with hmem | hle
    · exact hother hmem
    · exact Nat.lt_irrefl _ (Nat.lt_of_lt_of_le hwaits.lt hle)
  obtain ⟨hgrows₅, hkeeps₅⟩ :=
    extends_bindLabel h₄.awaits.chained (h₂₄.grown.keeps done hwaits) hbind
  have h₁₄ := h₁.trans h₂₄
  have h₁₅ : Tested c p s q t₅ (ps ++ meeting loc l done) [] := by
    refine ⟨⟨?_, fun m hm => ?_, ⟨hgrows₅.chained, h₁₄.awaits.nodup, fun m hm => ?_⟩,
      h₁₄.grown.more, h₁₄.grown.fresh⟩, ?_, h₁₄.stores, h₁₄.nodup⟩
    · have hgrows := h₁₄.grown.grows.trans hgrows₅
      simpa [meeting, Piece.label, Piece.entries] using hgrows
    · exact hkeeps₅ m (fun heq => Nat.lt_irrefl _ (hsize ▸ heq ▸ hm.lt)) (h₁₄.grown.keeps m hm)
    · exact hkeeps₅ m (fun heq => hother' (heq ▸ hm)) (h₁₄.awaits.waits m hm)
    · refine forall_mem_append.mpr ⟨hattempted.faithful, ?_⟩
      simp [meeting, Piece.Faithful, Piece.label, Piece.instr]
  obtain ⟨h₆, honTop₆⟩ := tested_adoptCaptures h₁₅.awaits hadopt
  have h₇ := tested_emit h₆.awaits hpop'
  have h₆₇ := h₆.follow h₇
  subst hnames
  refine ⟨fun V D v bs hbs => matchFirst_names hbs, _, h₁₅.trans h₆₇, honTop₆.trans honTop₄,
    fun V D consts hconsts base v x hx => ?_⟩
  have hconsts₂ : t₂.unit.constants <+: consts :=
    (h₃.trans h₄).constants (hgrows₅.constants.trans (h₆₇.constants hconsts))
  have hne : done ≠ l := fun heq => hother' (heq ▸ mem_of_getElem? hl)
  have hexit : q.failures[x.length]? = some l := by rwa [hx]
  refine h₆₇.enacts_then (hattempted.enacts hconsts₂ hexit hne) fun bs hbs => ?_
  -- The values sink below the subject and everything under it, and then the subject goes.
  have hlength : bs.values.length = (capturesOfFirst rs).length :=
    Bindings.length_values (matchFirst_names hbs)
  have hdepth : q.onTop + q.stores.length = x.length := by
    rw [hx, honTop₄, h₄.stores, append_nil, PatternState.depth]
  have hsunk := exchangeEach_rotate_append hlength (v :: x) []
  have hsize' : (bs.values ++ v :: x).length =
      (capturesOfFirst rs).length + 1 + q.onTop + q.stores.length := by
    rw [length_append, hlength, length_cons]
    omega
  rw [append_nil, append_nil, hsize'] at hsunk
  exact h₇.enacts_seq (enacts_swaps hsunk) .popTop

end

end Bytecode
