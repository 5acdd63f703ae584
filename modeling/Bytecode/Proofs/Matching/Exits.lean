import Bytecode.Proofs.Lowering.Patterns
import Bytecode.Proofs.Matching.Trials
import Mathlib.Data.List.Nodup

/-!
# Exits of a pattern

While the code of a pattern is written, the entries to its chain of pops are labels that wait for
their places. At the end the chain gives each its place, and from each it takes off just the values
that are above the base.
-/

namespace Bytecode

open List Gen

variable {a : Unit}

/-- The labels are known, and wait for their places. -/
structure Awaits (exits : List Label) (t : UnitState) : Prop where
  chained : t.graph.Chained
  nodup : exits.Nodup
  waits : ∀ l ∈ exits, t.graph.Waits l

theorem Awaits.nil {t : UnitState} (h : t.graph.Chained) : Awaits [] t :=
  ⟨h, nodup_nil, forall_mem_nil _⟩

/-- The unit has grown, and there may be more exits. Every label that waited still waits. -/
structure Grown (exits : List Label) (t : UnitState) (exits' : List Label) (t' : UnitState)
    (code : List Entry) : Prop where
  grows : t.Extends t' code
  keeps : ∀ l, t.graph.Waits l → t'.graph.Waits l
  awaits : Awaits exits' t'
  more : exits <+: exits'
  fresh : ∀ l ∈ exits', l ∈ exits ∨ t.graph.labels.size ≤ l

namespace Grown

variable {exits exits' exits'' : List Label} {t t' t'' : UnitState} {code code' : List Entry}

theorem refl (h : Awaits exits t) : Grown exits t exits t [] where
  grows := .refl h.chained
  keeps _ h := h
  awaits := h
  more := List.prefix_refl _
  fresh _ hl := .inl hl

theorem trans (h : Grown exits t exits' t' code) (h' : Grown exits' t' exits'' t'' code') :
    Grown exits t exits'' t'' (code ++ code') where
  grows := h.grows.trans h'.grows
  keeps l hl := h'.keeps l (h.keeps l hl)
  awaits := h'.awaits
  more := h.more.trans h'.more
  fresh l hl := by
    rcases h'.fresh l hl with hl | hl
    · exact h.fresh l hl
    · exact .inr (Nat.le_trans h.grows.size hl)

theorem free (h : Grown exits t exits' t' code) : ∀ l ∈ exits', l ∉ placed code := by
  intro l hl hplaced
  exact (h.awaits.waits l hl).not_hasPlace (h.grows.placed l hplaced)

theorem of_extends (h : Awaits exits t) (hgrows : t.Extends t' code)
    (hkeeps : ∀ l, t.graph.Waits l → t'.graph.Waits l) : Grown exits t exits t' code where
  grows := hgrows
  keeps := hkeeps
  awaits := ⟨hgrows.chained, h.nodup, fun l hl => hkeeps l (h.waits l hl)⟩
  more := List.prefix_refl _
  fresh _ hl := .inl hl

end Grown

section

variable {c : GenContext} {s s' : GenState} {exits : List Label} {loc : Location} {arg : Nat}
  {l : Label}

theorem grown_emit {op : Opcode} (h : Awaits exits s.unit)
    (hrun : emit op arg loc c s = .ok (a, s')) :
    Grown exits s.unit exits s'.unit [.instr { op := .real op, arg := arg, loc := loc }] := by
  obtain rfl := addOp_eq_ok hrun
  exact .of_extends h (.addInstr h.chained _) fun l hl => (Graph.waits_addInstr l).mpr hl

theorem grown_emitJump {op : Operation} (h : Awaits exits s.unit)
    (hrun : emitJump op l loc c s = .ok (a, s')) :
    Grown exits s.unit exits s'.unit [.instr { op := op, arg := l, loc := loc }] := by
  obtain rfl := emitJump_eq_ok hrun
  exact .of_extends h (.addInstr h.chained _) fun l hl => (Graph.waits_addInstr l).mpr hl

theorem grown_emitConst {k : Constant} (h : Awaits exits s.unit)
    (hrun : emitConst k loc c s = .ok (a, s')) :
    ∃ i, Grown exits s.unit exits s'.unit
      [.instr { op := .real .loadConst, arg := i, loc := loc }] ∧
      s'.unit.constants[i]? = some k := by
  obtain ⟨i, t, hindex, hrun⟩ := bind_eq_ok.mp hrun
  cases hindex
  obtain ⟨hgrown, hget⟩ := intern_spec s.unit.constants k
  have hwiden : Grown exits s.unit exits
      { s.unit with constants := (intern s.unit.constants k).1 } [] :=
    .of_extends h (.widen h.chained rfl hgrown) fun _ hl => hl
  refine ⟨_, hwiden.trans (grown_emit hwiden.awaits hrun), ?_⟩
  obtain rfl := addOp_eq_ok hrun
  exact hget

/-- The code of an expression can be put anywhere: it adds to the end, and binds labels of its
own. -/
def Gen.Inserts (c : GenContext) (m : Gen Unit) : Prop :=
  ∀ n, m.Grows c n fun _ => True

theorem grown_insert {m : Gen Unit} (hm : m.Inserts c) (h : Awaits exits s.unit)
    (hrun : m c s = .ok (a, s')) : ∃ code, Grown exits s.unit exits s'.unit code := by
  obtain ⟨-, code, hgrows, hkeeps⟩ := hm _ s a s' h.chained (Nat.le_refl _) hrun
  exact ⟨code, .of_extends h hgrows fun l hl => hkeeps l hl.lt hl⟩

theorem grown_newLabel (h : Awaits exits s.unit) (hrun : newLabel c s = .ok (l, s')) :
    Grown exits s.unit (exits ++ [l]) s'.unit [] ∧ l = s.unit.graph.labels.size := by
  cases hrun
  have hget : ∀ m, s.unit.graph.addLabel.1.labels[m]? =
      if m = s.unit.graph.labels.size then some none else s.unit.graph.labels[m]? :=
    s.unit.graph.getElem?_labels_addLabel
  have hkeeps : ∀ m, s.unit.graph.Waits m → s.unit.graph.addLabel.1.Waits m := by
    intro m hm
    exact (hget m).trans ((if_neg (Nat.ne_of_lt hm.lt)).trans hm)
  have hnew : s.unit.graph.addLabel.1.Waits s.unit.graph.labels.size :=
    (hget _).trans (if_pos rfl)
  refine ⟨⟨.addLabel h.chained, hkeeps, ⟨(UnitState.Extends.addLabel h.chained).chained, ?_, ?_⟩,
    List.prefix_append _ _, ?_⟩, rfl⟩
  · refine nodup_append.mpr ⟨h.nodup, by simp, ?_⟩
    intro m hm l hl heq
    exact Nat.lt_irrefl _ ((heq.trans (mem_singleton.mp hl)) ▸ (h.waits m hm).lt)
  · intro m hm
    rcases mem_append.mp hm with hm | hm
    · exact hkeeps m (h.waits m hm)
    · exact mem_singleton.mp hm ▸ hnew
  · intro m hm
    rcases mem_append.mp hm with hm | hm
    · exact .inl hm
    · exact .inr (Nat.le_of_eq (mem_singleton.mp hm).symm)

theorem grown_newLabels {γ : Type} {xs : List γ} {ls : List Label} (h : Awaits exits s.unit)
    (hrun : (xs.mapM fun _ => newLabel) c s = .ok (ls, s')) :
    Grown exits s.unit (exits ++ ls) s'.unit [] ∧ ls.length = xs.length := by
  induction xs generalizing exits s ls with
  | nil =>
    cases hrun
    rw [reverse_nil, append_nil]
    exact ⟨.refl h, rfl⟩
  | cons x xs ih =>
    rw [mapM_cons] at hrun
    obtain ⟨l, t, hnew, hrun⟩ := bind_eq_ok.mp hrun
    obtain ⟨ls', t', hrest, hret⟩ := bind_eq_ok.mp hrun
    cases hret
    obtain ⟨hg, -⟩ := grown_newLabel h hnew
    obtain ⟨hg', hlength⟩ := ih hg.awaits hrest
    rw [append_assoc] at hg'
    exact ⟨hg.trans hg', congrArg Nat.succ hlength⟩

/-! ### Failures -/

namespace PatternState

variable {p p' : PatternState}

def depth (p : PatternState) : Nat :=
  p.onTop + p.stores.length

def withFailures (p : PatternState) (failures : List Label) : PatternState :=
  { p with failures := failures }

theorem grown_failure {n : Nat} {r : PatternState × Label} (h : Awaits p.failures s.unit)
    (hrun : p.failure n c s = .ok (r, s')) :
    Grown p.failures s.unit r.1.failures s'.unit [] ∧ r.1.failures[n]? = some r.2 ∧
      r.1 = p.withFailures r.1.failures := by
  obtain ⟨more, t, hmore, hret⟩ := bind_eq_ok.mp hrun
  cases hret
  obtain ⟨hg, hlength⟩ := grown_newLabels h hmore
  rw [length_range] at hlength
  have hlt : n < (p.failures ++ more).length := by
    rw [length_append, hlength]
    omega
  refine ⟨hg, ?_, rfl⟩
  rw [getD_eq_getElem?_getD, getElem?_eq_getElem hlt]
  rfl

theorem grown_jumpToFailure {op : PseudoOp} (h : Awaits p.failures s.unit)
    (hrun : p.jumpToFailure op loc c s = .ok (p', s')) :
    ∃ l, Grown p.failures s.unit p'.failures s'.unit
      [.instr { op := .pseudo op, arg := l, loc := loc }] ∧
      p'.failures[p.depth]? = some l ∧ p' = p.withFailures p'.failures := by
  obtain ⟨⟨q, l⟩, t, hfailure, hrun⟩ := bind_eq_ok.mp hrun
  obtain ⟨_, t', hjump, hret⟩ := bind_eq_ok.mp hrun
  cases hret
  obtain ⟨hg, hl, hq⟩ := grown_failure h hfailure
  exact ⟨l, hg.trans (grown_emitJump hg.awaits hjump), hl, hq⟩

end PatternState

/-! ### The chain of pops -/

/-- A label that waits gets its place, and no other label does. -/
theorem extends_bindLabel (h : s.unit.graph.Chained) (hl : s.unit.graph.Waits l)
    (hrun : bindLabel l c s = .ok (a, s')) :
    s.unit.Extends s'.unit [.label l] ∧
      ∀ m, m ≠ l → s.unit.graph.Waits m → s'.unit.graph.Waits m := by
  rw [bindLabel, editGraph_apply] at hrun
  obtain ⟨g, hg, hret⟩ := Result.bind_eq_ok.mp hrun
  cases hret
  obtain ⟨code, hgrows, hcode⟩ := UnitState.Extends.bindLabel h hg
  obtain rfl := hcode hl
  exact ⟨hgrows, fun m hm hwaits => ((Graph.labels_bindLabel hg).2.2 m hm).trans hwaits⟩

/-- A label, and a value that is taken off from there on. -/
def popAt (loc : Location) (l : Label) : List Piece :=
  [.label l, .instr { op := .real .popTop, loc := loc }]

def popChain (loc : Location) : List Label → List Piece
  | [] => []
  | first :: rest => rest.reverse.flatMap (popAt loc) ++ [.label first]

theorem extends_popAts {ls : List Label} (h : s.unit.graph.Chained) (hnodup : ls.Nodup)
    (hls : ∀ l ∈ ls, s.unit.graph.Waits l)
    (hrun : (ls.forM fun l => do bindLabel l; emit .popTop 0 loc) c s = .ok (a, s')) :
    s.unit.Extends s'.unit (transcript (ls.flatMap (popAt loc))) ∧
      ∀ m, m ∉ ls → s.unit.graph.Waits m → s'.unit.graph.Waits m := by
  induction ls generalizing s with
  | nil =>
    cases hrun
    exact ⟨.refl h, fun _ _ hm => hm⟩
  | cons l ls ih =>
    obtain ⟨_, t, hfirst, hrest⟩ := bind_eq_ok.mp hrun
    obtain ⟨_, t', hbind, hpop⟩ := bind_eq_ok.mp hfirst
    obtain ⟨hl, hls⟩ := forall_mem_cons.mp hls
    obtain ⟨hnotMem, hnodup⟩ := nodup_cons.mp hnodup
    obtain ⟨hgrows, hkeeps⟩ := extends_bindLabel h hl hbind
    have hpopped : Grown [] t'.unit [] t.unit _ :=
      grown_emit (.nil hgrows.chained) hpop
    obtain ⟨hgrows', hkeeps'⟩ := ih hpopped.awaits.chained hnodup
      (fun m hm => hpopped.keeps m (hkeeps m (fun hml => hnotMem (hml ▸ hm)) (hls m hm))) hrest
    refine ⟨(hgrows.trans hpopped.grows).trans hgrows', fun m hm hwaits => ?_⟩
    obtain ⟨hml, hm⟩ := ne_and_not_mem_of_not_mem_cons hm
    exact hkeeps' m hm (hpopped.keeps m (hkeeps m hml hwaits))

theorem PatternState.extends_emitFailures {p : PatternState} (h : Awaits p.failures s.unit)
    (hrun : p.emitFailures loc c s = .ok (a, s')) :
    s.unit.Extends s'.unit (transcript (popChain loc p.failures)) ∧
      ∀ m, m ∉ p.failures → s.unit.graph.Waits m → s'.unit.graph.Waits m := by
  unfold emitFailures at hrun
  cases hcons : p.failures with
  | nil =>
    simp only [hcons] at hrun
    cases hrun
    exact ⟨.refl h.chained, fun _ _ hm => hm⟩
  | cons first rest =>
    simp only [hcons] at hrun
    obtain ⟨_, t, hrest, hfirst⟩ := bind_eq_ok.mp hrun
    have hnodup := h.nodup
    have hwaits := h.waits
    rw [hcons] at hnodup hwaits
    obtain ⟨hnotMem, hnodup⟩ := nodup_cons.mp hnodup
    obtain ⟨hwait, hwaits⟩ := forall_mem_cons.mp hwaits
    obtain ⟨hgrows, hkeeps⟩ := extends_popAts h.chained (nodup_reverse.mpr hnodup)
      (fun l hl => hwaits l (mem_reverse.mp hl)) hrest
    obtain ⟨hgrows', hkeeps'⟩ := extends_bindLabel hgrows.chained
      (hkeeps first (fun hmem => hnotMem (mem_reverse.mp hmem)) hwait) hfirst
    refine ⟨?_, fun m hm hwaits => ?_⟩
    · rw [popChain, transcript_append]
      exact hgrows.trans hgrows'
    · obtain ⟨hml, hm⟩ := ne_and_not_mem_of_not_mem_cons hm
      exact hkeeps' m hml (hkeeps m (fun hmem => hm (mem_reverse.mp hmem)) hwaits)

end

section

variable {V : Type} {D : Interpretation V} {consts : List Constant} {base above : List V}
  {y : Control V} {loc : Location} {l : Label} {ls : List Label}

theorem crosses_popAt_here {v : V} {stack : List V} :
    Crosses D consts (popAt loc l) (.here (v :: stack)) y ↔ y = .here stack := by
  constructor
  · rintro ⟨_, rfl, _, ⟨_, _, heq, rfl⟩, rfl⟩
    cases heq
    rfl
  · rintro rfl
    exact ⟨_, rfl, _, ⟨v, stack, rfl, rfl⟩, rfl⟩

theorem crosses_popAt_away {v : V} {stack : List V} :
    Crosses D consts (popAt loc l) (.away l (v :: stack)) y ↔ y = .here stack := by
  constructor
  · rintro ⟨_, rfl, hpop⟩
    rw [if_pos rfl] at hpop
    obtain ⟨_, ⟨_, _, heq, rfl⟩, rfl⟩ := hpop
    cases heq
    rfl
  · rintro rfl
    refine ⟨_, rfl, ?_⟩
    rw [if_pos rfl]
    exact ⟨_, ⟨v, stack, rfl, rfl⟩, rfl⟩

theorem placed_popAts : placed (transcript (ls.flatMap (popAt loc))) = ls := by
  induction ls with
  | nil => rfl
  | cons l ls ih => exact congrArg (l :: ·) ih

theorem crosses_popAts_here (h : above.length = ls.length) :
    Crosses D consts (ls.flatMap (popAt loc)) (.here (above ++ base)) y ↔ y = .here base := by
  induction ls generalizing above with
  | nil =>
    obtain rfl := length_eq_zero_iff.mp h
    rfl
  | cons l ls ih =>
    obtain ⟨v, above, rfl⟩ := exists_cons_of_length_eq_add_one h
    rw [flatMap_cons, crosses_append]
    simp only [cons_append, crosses_popAt_here, exists_eq_left]
    exact ih (Nat.succ.inj h)

/-- From a label on as many values are taken off as there are labels from it on. -/
theorem crosses_popAts_away (hnodup : ls.Nodup) {i : Nat} (hl : ls[i]? = some l)
    (h : above.length + i = ls.length) :
    Crosses D consts (ls.flatMap (popAt loc)) (.away l (above ++ base)) y ↔ y = .here base := by
  induction ls generalizing i with
  | nil => cases hl
  | cons m ls ih =>
    obtain ⟨hnotMem, hnodup⟩ := nodup_cons.mp hnodup
    rw [flatMap_cons, crosses_append]
    cases i with
    | zero =>
      obtain rfl := Option.some.inj hl
      obtain ⟨v, above, rfl⟩ := exists_cons_of_length_eq_add_one h
      simp only [cons_append, crosses_popAt_away, exists_eq_left]
      exact crosses_popAts_here (Nat.succ.inj h)
    | succ i =>
      have hne : l ∉ placed (transcript (popAt loc m)) := by
        intro hmem
        exact hnotMem (mem_singleton.mp hmem ▸ mem_of_getElem? hl)
      simp only [crosses_away hne, exists_eq_left]
      exact ih hnodup hl (by simp only [length_cons] at h; omega)

theorem crosses_popChain {exits : List Label} (hnodup : exits.Nodup)
    (hl : exits[above.length]? = some l) :
    Crosses D consts (popChain loc exits) (.away l (above ++ base)) y ↔ y = .here base := by
  cases exits with
  | nil => cases hl
  | cons first rest =>
    obtain ⟨hnotMem, hnodup⟩ := nodup_cons.mp hnodup
    have hend : ∀ z : Control V, Crosses D consts [.label first] (.here base) z ↔ z = .here base :=
      fun z => ⟨by rintro ⟨_, rfl, rfl⟩; rfl, by rintro rfl; exact ⟨_, rfl, rfl⟩⟩
    rw [popChain, crosses_append]
    cases habove : above with
    | nil =>
      rw [habove] at hl
      obtain rfl := Option.some.inj hl
      have hpast : first ∉ placed (transcript (rest.reverse.flatMap (popAt loc))) := by
        rwa [placed_popAts, mem_reverse]
      simp only [crosses_away hpast, exists_eq_left, nil_append]
      refine ⟨?_, ?_⟩
      · rintro ⟨_, rfl, rfl⟩
        exact if_pos rfl
      · rintro rfl
        exact ⟨_, (if_pos rfl).symm, rfl⟩
    | cons v above' =>
      rw [habove] at hl
      have hlt := (List.getElem?_eq_some_iff.mp hl).1
      simp only [length_cons] at hlt
      have hget : rest.reverse[rest.length - 1 - above'.length]? = some l := by
        rw [getElem?_reverse (by omega)]
        have hindex : rest.length - 1 - (rest.length - 1 - above'.length) = above'.length := by
          omega
        rw [hindex]
        exact hl
      have hlength : (v :: above').length + (rest.length - 1 - above'.length) =
          rest.reverse.length := by
        simp only [length_cons, length_reverse]
        omega
      simp only [crosses_popAts_away (nodup_reverse.mpr hnodup) hget hlength, exists_eq_left]
      exact hend y

end

end Bytecode
