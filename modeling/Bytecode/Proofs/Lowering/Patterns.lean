import Bytecode.Lowering.Pattern
import Bytecode.Proofs.Lowering.Expressions
import Mathlib.Data.List.Induction

/-!
# Patterns

While a pattern is tested, the stack holds the values that wait for names, what the pattern has put
on top of them, and the subject. The label at place `n` of the chain of pops has a stack with `n`
values above the start of the pattern.
-/

namespace Bytecode

open List Gen Yields

variable {S : Setting} {b : Nat} {H : List OpenHandler} {K : List (Label × Shape)} {U : List Label}
  {loc : Location} {name : Option String} {here : Shape}

/-! ### The chain of pops -/

/-- The shapes of labels at which there are `b` values on the stack, one more, and so on. -/
def exits (b : Nat) (H : List OpenHandler) : List Label → List (Label × Shape)
  | [] => []
  | l :: ls => (l, ⟨b, H⟩) :: exits (b + 1) H ls

theorem exits_append (ls ms : List Label) :
    exits b H (ls ++ ms) = exits b H ls ++ exits (b + ls.length) H ms := by
  induction ls generalizing b with
  | nil => rfl
  | cons l ls ih =>
    have harith : b + 1 + ls.length = b + (l :: ls).length := by simp only [length_cons]; omega
    rw [cons_append, exits, ih, harith]
    rfl

theorem getD_mem_exits {ls : List Label} {n : Nat} (h : n < ls.length) :
    (ls.getD n 0, (⟨b + n, H⟩ : Shape)) ∈ exits b H ls := by
  induction ls generalizing b n with
  | nil => simp at h
  | cons l ls ih =>
    cases n with
    | zero => exact mem_cons_self ..
    | succ n =>
      have hn := ih (b := b + 1) (Nat.lt_of_succ_lt_succ h)
      rw [Nat.add_assoc, Nat.add_comm 1] at hn
      exact mem_cons_of_mem _ hn

theorem yields_newLabels {γ : Type} (xs : List γ) :
    (xs.mapM fun _ => newLabel).Yields S ⟨here, K, U⟩ fun ls q =>
      ls.length = xs.length ∧ (∀ l ∈ ls, S.Owns l) ∧ q = ⟨here, exits b H ls ++ K, ls ++ U⟩ := by
  induction xs generalizing b K U with
  | nil => exact pure ⟨rfl, by simp, rfl⟩
  | cons x xs ih =>
    rw [mapM_cons]
    apply label ⟨b, H⟩
    intro l hl
    apply bind (ih (b := b + 1))
    rintro ls _ ⟨hlength, howns, rfl⟩
    have hle : (Place.mk here (exits (b + 1) H ls ++ (l, ⟨b, H⟩) :: K) (ls ++ l :: U)).LE
        ⟨here, exits b H (l :: ls) ++ K, (l :: ls) ++ U⟩ := by
      refine ⟨rfl, ?_, ?_⟩
      all_goals
        intro x hx
        simp only [exits, cons_append, mem_cons, mem_append] at hx ⊢
        tauto
    exact pure_of_le hle ⟨congrArg (· + 1) hlength, forall_mem_cons.mpr ⟨hl, howns⟩, rfl⟩

namespace PatternState

variable {p : PatternState}

/-- Where the test of a pattern that started with `b` values is, with `n` values on top of those
that the state counts. -/
def place (p : PatternState) (b : Nat) (H : List OpenHandler) (K : List (Label × Shape))
    (U : List Label) (n : Nat) : Place :=
  ⟨⟨b + p.onTop + p.stores.length + n, H⟩, exits b H p.failures ++ K, p.failures ++ U⟩

/-- The names that wait may be accessed, and the entries to the chain of pops may be bound. -/
structure Owned (S : Setting) (p : PatternState) : Prop where
  stores : ∀ name ∈ p.stores, S.Names name
  failures : ∀ l ∈ p.failures, S.Owns l

theorem Owned.empty : ({} : PatternState).Owned S :=
  ⟨by simp, by simp⟩

theorem Owned.withOnTop (h : p.Owned S) (o : Nat) :
    ({ p with onTop := o } : PatternState).Owned S :=
  ⟨h.stores, h.failures⟩

theorem Owned.add (h : p.Owned S) {name : String} (hname : S.Names name) :
    ({ p with stores := p.stores ++ [name] } : PatternState).Owned S := by
  refine ⟨?_, h.failures⟩
  rw [forall_mem_append, forall_mem_singleton]
  exact ⟨h.stores, hname⟩

theorem yields_failure (hp : p.Owned S) (n : Nat) :
    (p.failure n).Yields S ⟨here, exits b H p.failures ++ K, p.failures ++ U⟩ fun x q =>
      x.1.onTop = p.onTop ∧ x.1.stores = p.stores ∧ x.1.Owned S ∧
      (x.2, ⟨b + n, H⟩) ∈ exits b H x.1.failures ∧
      q = ⟨here, exits b H x.1.failures ++ K, x.1.failures ++ U⟩ := by
  unfold failure
  apply bind (yields_newLabels _ (b := b + p.failures.length) (H := H))
  rintro more _ ⟨hlength, howns, rfl⟩
  rw [length_range] at hlength
  have hmem : ((p.failures ++ more).getD n 0, (⟨b + n, H⟩ : Shape)) ∈
      exits b H (p.failures ++ more) := by
    apply getD_mem_exits
    rw [length_append]
    omega
  have hle : (Place.mk here (exits (b + p.failures.length) H more ++
      (exits b H p.failures ++ K)) (more ++ (p.failures ++ U))).LE
      ⟨here, exits b H (p.failures ++ more) ++ K, (p.failures ++ more) ++ U⟩ := by
    refine ⟨rfl, ?_, ?_⟩
    all_goals
      intro x hx
      simp only [exits_append, mem_append] at hx ⊢
      tauto
  exact pure_of_le hle
    ⟨rfl, rfl, ⟨hp.stores, forall_mem_append.mpr ⟨hp.failures, howns⟩⟩, hmem, rfl⟩

/-- A jump to the entry that takes off all that the state counts. -/
theorem yields_jumpToFailure (hp : p.Owned S) {op : PseudoOp} {onward : Shape}
    (hjump : ∀ l K U, (l, ⟨b + (p.onTop + p.stores.length), H⟩) ∈ K →
      (emitJump op l loc).Leads S ⟨here, K, U⟩ ⟨onward, K, U⟩) :
    (p.jumpToFailure op loc).Yields S ⟨here, exits b H p.failures ++ K, p.failures ++ U⟩ fun p' q =>
      p'.onTop = p.onTop ∧ p'.stores = p.stores ∧ p'.Owned S ∧
      q = ⟨onward, exits b H p'.failures ++ K, p'.failures ++ U⟩ := by
  apply bind (yields_failure hp _)
  rintro ⟨p', l⟩ _ ⟨honTop, hstores, hp', hl, rfl⟩
  apply (hjump l _ _ (mem_append_left _ hl)).seq
  exact pure ⟨honTop, hstores, hp', rfl⟩

theorem leads_pops (hb : lowest H ≤ b) {ls : List Label} (howns : ∀ l ∈ ls, S.Owns l)
    (hK : exits (b + 1) H ls ⊆ K) :
    (ls.reverse.forM fun l => do
      bindLabel l
      emit .popTop 0 loc).Leads S ⟨⟨b + ls.length, H⟩, K, ls ++ U⟩ ⟨⟨b, H⟩, K, U⟩ := by
  -- The label of the highest stack comes first, so the induction is on the end of the list.
  induction ls using reverseRecOn with
  | nil => exact .pure
  | append_singleton ls l ih =>
    rw [exits_append, append_subset] at hK
    rw [forall_mem_append, forall_mem_singleton] at howns
    have hl : (l, (⟨b + (ls ++ [l]).length, H⟩ : Shape)) ∈ K := by
      have harith : b + 1 + ls.length = b + (ls ++ [l]).length := by
        simp only [length_append, length_singleton]
        omega
      rw [← harith]
      exact hK.2 (mem_singleton_self _)
    have hstep : (do bindLabel l; emit .popTop 0 loc : Gen Unit).Leads S
        ⟨⟨b + (ls ++ [l]).length, H⟩, K, ls ++ [l] ++ U⟩ ⟨⟨b + ls.length, H⟩, K, ls ++ U⟩ := by
      have hpending : ∀ x ∈ ls ++ [l] ++ U, x = l ∨ x ∈ ls ++ U := by
        intro x hx
        simp only [mem_append, mem_singleton] at hx ⊢
        tauto
      apply (leads_bindLabel howns.2 (ls ++ U) hl hpending).seq
      have hpop : (emit .popTop 0 loc).Turns S 1 0 := turns_emit rfl
      rw [length_append]
      exact hpop.leads (b := b + ls.length) (Nat.le_add_right_of_le hb)
    rw [reverse_append]
    exact hstep.seq (ih howns.1 hK.1)

theorem leads_emitFailures (howned : p.Owned S) (hb : lowest H ≤ b) :
    (p.emitFailures loc).Leads S
      ⟨⟨b + (p.failures.length - 1), H⟩, exits b H p.failures ++ K, p.failures ++ U⟩
      ⟨⟨b, H⟩, K, U⟩ := by
  have howns := howned.failures
  unfold emitFailures
  cases hp : p.failures with
  | nil => exact .pure
  | cons first rest =>
    rw [hp, forall_mem_cons] at howns
    have hK : exits (b + 1) H rest ⊆ exits b H (first :: rest) ++ K :=
      Subset.trans (subset_cons_self _ _) (subset_append_left _ _)
    have hpending : first :: rest ++ U ⊆ rest ++ first :: U := by
      intro l hl
      simp only [cons_append, mem_cons, mem_append] at hl ⊢
      tauto
    refine Leads.weaken (.seq (leads_pops hb howns.2 hK)
      (leads_bindLabel howns.1 U (by simp [exits]) (by simp))) ⟨rfl, Subset.refl _, hpending⟩
      ⟨rfl, subset_append_right _ _, Subset.refl _⟩

/-! ### Tests -/

/-- The generator tests `n` values above those that the state counts, and takes them off. What the
state counts in the end is what it counts on top in the end, and the values that wait. -/
def Tests (S : Setting) (m : Gen PatternState) (p : PatternState) (n onTop : Nat) : Prop :=
  p.Owned S → ∀ b H K U, lowest H ≤ b → m.Yields S (p.place b H K U n) fun p' q =>
    p'.onTop = onTop ∧ p'.Owned S ∧ q = p'.place b H K U 0

section

variable {α : Type} {m : Gen α} {f : α → Gen PatternState} {test : Gen PatternState}
  {next : PatternState → Gen PatternState} {j k n r t u o : Nat}

theorem place_withOnTop (p : PatternState) (b : Nat) (H : List OpenHandler)
    (K : List (Label × Shape)) (U : List Label) (o n : Nat) :
    ({ p with onTop := o } : PatternState).place b H K U n =
      ⟨⟨b + p.stores.length + (o + n), H⟩, exits b H p.failures ++ K, p.failures ++ U⟩ := by
  dsimp only [place]
  congr 2
  omega

/-- Code that takes only values that belong to the pattern. -/
theorem tests_bind (hm : m.Turns S j k) (hn : j ≤ p.onTop + n ∧ r + j = n + k)
    (hf : ∀ a, Tests S (f a) p r t) : Tests S (m >>= f) p n t := by
  intro hp b H K U hb
  obtain ⟨below, hbelow⟩ := Nat.exists_eq_add_of_le' hn.1
  have hstart : p.place b H K U n = _ := p.place_withOnTop b H K U p.onTop n
  rw [hbelow, ← Nat.add_assoc] at hstart
  have hend : p.place b H K U r = _ := p.place_withOnTop b H K U p.onTop r
  rw [show p.onTop + r = below + k by omega, ← Nat.add_assoc] at hend
  have hleads : m.Leads S (p.place b H K U n) (p.place b H K U r) := by
    rw [hstart, hend]
    exact hm.leads (by omega)
  exact hleads.bind fun a => hf a hp b H K U hb

theorem Tests.seq (h : Tests S test p n t)
    (hnext : ∀ p', p'.onTop = t → Tests S (next p') p' 0 u) : Tests S (test >>= next) p n u := by
  intro hp b H K U hb
  apply bind (h hp b H K U hb)
  rintro p' _ ⟨ht, hp', rfl⟩
  exact hnext p' ht hp' b H K U hb

/-- The same values can be counted by the state or on top of it. -/
theorem Tests.shift (h : Tests S test { p with onTop := o } r t) (ho : o + r = p.onTop + n) :
    Tests S test p n t := by
  intro hp b H K U hb
  have hplace := (p.place_withOnTop b H K U o r).trans
    (ho ▸ (p.place_withOnTop b H K U p.onTop n).symm)
  exact hplace ▸ h (hp.withOnTop o) b H K U hb

theorem Tests.cast (h : Tests S test p n t) (ht : t = u) : Tests S test p n u := ht ▸ h

theorem tests_pure (p : PatternState) : Tests S (pure p) p 0 p.onTop :=
  fun hp _ _ _ _ _ => pure ⟨rfl, hp, rfl⟩

theorem tests_fails (h : test.Fails S) : Tests S test p n t :=
  fun _ _ _ _ _ _ => h.yields

/-- Tests one after the other, each of which takes off one value that the state counts on top. -/
theorem tests_foldlM {γ : Type} {step : PatternState → γ → Gen PatternState} {xs : List γ}
    (h : ∀ x ∈ xs, ∀ q, 1 ≤ q.onTop → Tests S (step q x) q 0 (q.onTop - 1))
    (hp : xs.length ≤ p.onTop) : Tests S (xs.foldlM step p) p 0 (p.onTop - xs.length) := by
  induction xs generalizing p with
  | nil => exact tests_pure p
  | cons x xs ih =>
    obtain ⟨hx, hxs⟩ := forall_mem_cons.mp h
    rw [length_cons] at hp ⊢
    refine (hx p (by omega)).seq fun q hq => ?_
    exact (ih hxs (by omega)).cast (by omega)

theorem tests_failIfFalse : Tests S (p.failIfFalse loc) p 1 p.onTop := by
  intro hp b H K U hb
  have hjump : ∀ l K U, (l, ⟨b + (p.onTop + p.stores.length), H⟩) ∈ K →
      (emitJump PseudoOp.popJumpIfFalse l loc).Leads S
        ⟨⟨b + (p.onTop + p.stores.length) + 1, H⟩, K, U⟩
        ⟨⟨b + (p.onTop + p.stores.length), H⟩, K, U⟩ :=
    fun l K U hl => leads_jump (b := b + (p.onTop + p.stores.length)) (j := 0) rfl
      (Nat.le_add_right_of_le hb) (fun _ => rfl) hl
  refine (yields_jumpToFailure hp (K := K) (U := U) hjump).weaken ?_ ?_
  · exact ⟨by simp only [place, Nat.add_assoc], Subset.refl _, Subset.refl _⟩
  · rintro p' _ ⟨honTop, hstores, hp', rfl⟩
    refine ⟨_, ⟨honTop, hp', rfl⟩, ?_, Subset.refl _, Subset.refl _⟩
    simp [place, honTop, hstores, Nat.add_assoc]

end

end PatternState

/-! ### Captures -/

theorem turns_swaps {n : Nat} {ds : List Nat} (h : ∀ d ∈ ds, 1 ≤ d ∧ d ≤ n) :
    (ds.forM (emit .swap · loc)).Turns S n n := by
  apply turns_forM
  intro d hd
  have hswap : (emit .swap d loc).Turns S (d + (n - d)) (d + (n - d)) :=
    (turns_swap (h d hd).1).above (n - d)
  rwa [Nat.add_sub_cancel' (h d hd).2] at hswap

theorem bounds_of_mem_sinkDepths {n d : Nat} (h : d ∈ sinkDepths n) : 1 ≤ d ∧ d ≤ n := by
  obtain ⟨i, hi, rfl⟩ := mem_map.mp h
  have hlow : i < n - 1 := mem_range.mp hi
  omega

theorem turns_sink (n : Nat) : (sink n loc).Turns S n n :=
  turns_swaps fun _ hd => bounds_of_mem_sinkDepths hd

open PatternState

variable {p : PatternState}

theorem tests_capture (hname : ∀ n ∈ name, S.Names n) :
    Tests S (capture name loc p) p 1 p.onTop := by
  unfold capture
  cases name with
  | none => exact tests_bind (turns_emit rfl) (by omega) fun _ => tests_pure p
  | some name =>
    dsimp only
    split_ifs
    iterate 3 · exact tests_fails (fails_refuse _ _).bind
    · intro hp b H K U hb
      have hsink : (sink (p.onTop + p.stores.length + 1) loc).Turns S _ _ := turns_sink _
      have hplace : p.place b H K U 1 = ⟨⟨b + (p.onTop + p.stores.length + 1), H⟩,
          exits b H p.failures ++ K, p.failures ++ U⟩ := by
        simp only [place, Nat.add_assoc]
      rw [hplace]
      apply (hsink.leads hb).seq
      refine pure ⟨rfl, hp.add (hname name rfl), ?_⟩
      simp [place, Nat.add_assoc]

/-! ### Single values -/

theorem tests_testValue {value : ExprCode} (h : value.Sound S) :
    Tests S (testValue loc value p) p 1 p.onTop := by
  unfold testValue
  split_ifs
  · exact tests_fails (fails_refuse _ _).bind
  · refine tests_bind (r := 2) h.load (by omega) fun _ => ?_
    exact tests_bind (turns_emitCompare _) (by omega) fun _ => tests_failIfFalse

theorem tests_testSingleton (value : Constant) :
    Tests S (testSingleton loc value p) p 1 p.onTop := by
  refine tests_bind (r := 2) (turns_emitConst value) (by omega) fun _ => ?_
  exact tests_bind (turns_emitCompare _) (by omega) fun _ => tests_failIfFalse

theorem tests_testAnything (hname : ∀ n ∈ name, S.Names n) (irrefutable : Bool) :
    Tests S (testAnything loc name irrefutable p) p 1 p.onTop := by
  unfold testAnything
  split_ifs
  · cases name <;> exact tests_fails (fails_refuse _ _).bind
  · exact tests_capture hname

/-- The code of a pattern takes the subject off, and leaves what the state counts on top. -/
def PatternCode.Sound (S : Setting) (c : PatternCode) : Prop :=
  ∀ irrefutable p, Tests S (c.test irrefutable p) p 1 p.onTop

theorem tests_testAs {pattern : PatternCode} (h : pattern.Sound S) (hname : ∀ n ∈ name, S.Names n)
    (irrefutable : Bool) : Tests S (testAs loc pattern name irrefutable p) p 1 p.onTop := by
  refine tests_bind (r := 2) (turns_emit rfl) (by omega) fun _ => ?_
  refine Tests.shift ((h irrefutable (p.grow 1)).seq fun q hq => ?_) (by omega)
  have hq : q.onTop = p.onTop + 1 := hq
  refine Tests.shift (o := q.onTop - 1) (r := 1) ?_ (by omega)
  exact (tests_capture hname).cast (Nat.sub_eq_of_eq_add hq)

/-! ### Sequences -/

section

variable {patterns : List PatternCode}

theorem tests_testLength (op : CompareOp) (n : Nat) (hp : 1 ≤ p.onTop) :
    Tests S (testLength op n loc p) p 0 p.onTop := by
  refine tests_bind (r := 1) (turns_emit rfl) (by omega) fun _ => ?_
  refine tests_bind (r := 2) (turns_emitConst _) (by omega) fun _ => ?_
  exact tests_bind (turns_emitCompare op) (by omega) fun _ => tests_failIfFalse

theorem tests_testUnpacked (h : ∀ c ∈ patterns, c.Sound S) (hp : patterns.length ≤ p.onTop) :
    Tests S (testUnpacked patterns p) p 0 (p.onTop - patterns.length) :=
  tests_foldlM (fun c hc q hq => (h c hc true (q.shrink 1)).shift (by omega)) hp

theorem tests_testItems (h : ∀ c ∈ patterns, c.Sound S) {star : Option Nat}
    (hstar : ∀ i ∈ star, i < patterns.length) :
    Tests S (testItems patterns star loc p) p 1 p.onTop := by
  have hitems : Tests S (testUnpacked patterns (p.grow patterns.length)) p patterns.length
      p.onTop :=
    ((tests_testUnpacked h (Nat.le_add_left _ _)).cast (Nat.add_sub_cancel _ _)).shift rfl
  unfold testItems
  cases star with
  | none => exact tests_bind (turns_emit rfl) (by omega) fun _ => hitems
  | some star =>
    dsimp only
    split_ifs with hlimits
    · exact tests_fails (fails_refuse _ _).bind
    · have harity := arity?_unpackEx (hstar star rfl) hlimits
      exact tests_bind (turns_emit harity) (by omega) fun _ => hitems

theorem turns_loadItem (size star i : Nat) : (loadItem size star i loc).Turns S 1 2 := by
  unfold loadItem
  apply (turns_emit rfl).seq
  split_ifs
  · apply ((turns_emitConst _).push 2).seq
    exact (turns_emit (n := 2) (k := 1) rfl).above 1
  · apply ((turns_emit (n := 1) (k := 2) rfl).above 1).seq
    apply ((turns_emitConst _).push 3).seq
    apply ((turns_emit (n := 2) (k := 1) rfl).above 2).seq
    exact (turns_emit (n := 2) (k := 1) rfl).above 1

theorem tests_testIndexed (h : ∀ c ∈ patterns, c.Sound S) (star : Nat) :
    Tests S (testIndexed patterns star loc p) p 1 p.onTop := by
  have heach : ∀ (xs : List (PatternCode × Nat)) (q : PatternState), (∀ x ∈ xs, x.1.Sound S) →
      1 ≤ q.onTop → Tests S (xs.foldlM (testItem patterns.length star loc) q) q 0 q.onTop := by
    intro xs
    induction xs with
    | nil => exact fun q _ _ => tests_pure q
    | cons x xs ih =>
      intro q hxs hq
      obtain ⟨hx, hxs⟩ := forall_mem_cons.mp hxs
      have hitem : Tests S (testItem patterns.length star loc q x) q 0 q.onTop := by
        unfold testItem
        split_ifs
        · exact tests_pure q
        · exact tests_bind (turns_loadItem _ _ _) (by omega) fun _ => hx true q
      refine hitem.seq fun q' hq' => ?_
      exact (ih q' hxs (by omega)).cast hq'
  have hall := heach patterns.zipIdx (p.grow 1)
    (fun x hx => h _ (fst_mem_of_mem_zipIdx hx)) (Nat.le_add_left _ _)
  refine Tests.shift (hall.seq fun q hq => ?_) (by omega)
  have hq : q.onTop = p.onTop + 1 := hq
  refine Tests.shift (o := q.onTop - 1) (r := 1) ?_ (by omega)
  refine tests_bind (r := 0) (turns_emit rfl) (by omega) fun _ => ?_
  exact (tests_pure (q.shrink 1)).cast (Nat.sub_eq_of_eq_add hq)

theorem tests_testSequenceLength (size : Nat) (star : Option Nat) (hp : 1 ≤ p.onTop) :
    Tests S (testSequenceLength size star loc p) p 0 p.onTop := by
  unfold testSequenceLength
  refine tests_bind (r := 1) (turns_emit rfl) (by omega) fun _ => ?_
  refine tests_failIfFalse.seq fun q hq => ?_
  cases star with
  | none => exact (tests_testLength _ _ (by omega)).cast hq
  | some _ =>
    dsimp only
    split_ifs
    · exact (tests_testLength _ _ (by omega)).cast hq
    · exact (tests_pure q).cast hq

theorem tests_testSequence (h : ∀ c ∈ patterns, c.Sound S) :
    Tests S (testSequence loc patterns p) p 1 p.onTop := by
  have hstar : ∀ i ∈ (positions (·.source.isStar) patterns).head?, i < patterns.length :=
    fun i hi => lt_length_of_mem_positions (mem_of_mem_head? hi)
  unfold testSequence
  dsimp only
  by_cases hstars : 1 < (positions (·.source.isStar) patterns).length
  · rw [if_pos hstars]
    exact tests_fails (fails_refuse _ _).bind
  · rw [if_neg hstars]
    have hlength : Tests S (testSequenceLength patterns.length
        (positions (·.source.isStar) patterns).head? loc (p.grow 1)) (p.grow 1) 0
        (p.onTop + 1) :=
      tests_testSequenceLength _ _ (Nat.le_add_left _ _)
    refine Tests.shift (hlength.seq fun q hq => ?_) rfl
    -- The subject is no longer counted by the state.
    have honTop : (q.shrink 1).onTop = p.onTop := Nat.sub_eq_of_eq_add hq
    refine Tests.shift (o := q.onTop - 1) (r := 1) (Tests.cast ?_ honTop) (by omega)
    show Tests S _ (q.shrink 1) 1 _
    split
    · exact tests_bind (turns_emit rfl) (by omega) fun _ => tests_pure (q.shrink 1)
    · split
      · exact tests_testIndexed h _
      · exact tests_testItems h hstar

end

/-! ### Mappings -/

section

variable {patterns : List PatternCode} {keys : List ExprCode}

theorem turns_loadKeys (h : ∀ c ∈ keys, c.Sound S) (seen : List Constant) {n : Nat} :
    (loadKeys loc seen keys).Turns S n (n + keys.length) := by
  induction keys generalizing seen n with
  | nil => exact turns_pure ()
  | cons key keys ih =>
    obtain ⟨hkey, hkeys⟩ := forall_mem_cons.mp h
    have hrest : ∀ seen, (do
        key.load
        loadKeys loc seen keys : Gen Unit).Turns S n (n + (key :: keys).length) := by
      intro seen
      have hkeys := ih hkeys seen (n := n + 1)
      rw [Nat.add_assoc, Nat.add_comm 1] at hkeys
      exact (hkey.load.push n).seq hkeys
    unfold loadKeys
    split
    all_goals
      split_ifs
      · exact (fails_refuse _ _).bind.turns
      · exact hrest _

/-- The keys lie above the copy, and each takes its value off it. -/
theorem turns_dropKeys (size : Nat) :
    (((range size).map (size + 1 - ·)).forM fun n => do
      emit .copy n loc
      emit .swap 2 loc
      emit .deleteSubscr 0 loc : Gen Unit).Turns S (size + 1) 1 := by
  induction size with
  | zero => exact turns_pure ()
  | succ size ih =>
    rw [range_succ_eq_map, map_cons, map_map]
    have hmap : (range size).map ((size + 1 + 1 - ·) ∘ Nat.succ) =
        (range size).map (size + 1 - ·) :=
      map_congr_left fun i _ => Nat.succ_sub_succ _ _
    have hfirst : (do
        emit .copy (size + 1 + 1 - 0) loc
        emit .swap 2 loc
        emit .deleteSubscr 0 loc : Gen Unit).Turns S (size + 1 + 1) (size + 1) := by
      apply (turns_copy (Nat.le_add_left 1 (size + 1))).seq
      apply ((turns_emit (n := 2) (k := 2) rfl).over (size + 1)).seq
      exact (turns_emit (n := 2) (k := 0) rfl).over (size + 1)
    rw [hmap]
    exact hfirst.seq ih

theorem tests_captureRest (size : Nat) {rest : String} (hrest : S.Names rest) :
    Tests S (captureRest size rest loc p) p 2 p.onTop := by
  refine tests_bind (r := 3) (turns_emit (n := 0) (k := 1) rfl) (by omega) fun _ => ?_
  refine tests_bind (r := 3) (turns_emit rfl) (by omega) fun _ => ?_
  refine tests_bind (r := 2) (turns_emit rfl) (by omega) fun _ => ?_
  refine tests_bind (r := size + 1) (turns_emit rfl) (by omega) fun _ => ?_
  refine tests_bind (r := 1) (turns_dropKeys size) (by omega) fun _ => ?_
  refine tests_capture ?_
  rintro _ ⟨⟩
  exact hrest

theorem tests_failIfNone (hp : 1 ≤ p.onTop) : Tests S (failIfNone loc p) p 0 p.onTop := by
  refine tests_bind (r := 1) (turns_emit rfl) (by omega) fun _ => ?_
  refine tests_bind (r := 2) turns_emitNone (by omega) fun _ => ?_
  exact tests_bind (turns_emitCompare _) (by omega) fun _ => tests_failIfFalse

/-- The values of the keys are tested while the subject and the keys lie below them. -/
theorem tests_mappingItems (hkeys : ∀ c ∈ keys, c.Sound S) (h : ∀ c ∈ patterns, c.Sound S)
    (hsize : keys.length = patterns.length) {rest : Option String}
    (hrest : ∀ n ∈ rest, S.Names n) {t : Nat} (hp : p.onTop = t + 1) :
    Tests S (do
      loadKeys loc [] keys
      emit .buildTuple keys.length loc
      emit .matchKeys 0 loc
      let p ← failIfNone loc (p.grow 2)
      emit .unpackSequence keys.length loc
      let p ← testUnpacked patterns ((p.grow keys.length).shrink 1)
      match rest with
      | some rest => captureRest keys.length rest loc (p.shrink 2)
      | none =>
        emit .popTop 0 loc
        emit .popTop 0 loc
        return p.shrink 2) p 0 t := by
  refine tests_bind (r := keys.length) (turns_loadKeys (n := 0) hkeys []) (by omega) fun _ => ?_
  refine tests_bind (r := 1) (turns_emit rfl) (by omega) fun _ => ?_
  refine tests_bind (r := 2) (turns_emit rfl) (by omega) fun _ => ?_
  have hnone : Tests S (failIfNone loc (p.grow 2)) (p.grow 2) 0 (t + 3) :=
    (tests_failIfNone (Nat.le_add_left _ _)).cast (congrArg (· + 2) hp)
  refine Tests.shift (hnone.seq fun q hq => ?_) rfl
  refine Tests.shift (o := q.onTop - 1) (r := 1) ?_ (by omega)
  refine tests_bind (r := keys.length) (turns_emit rfl) (by omega) fun _ => ?_
  have hlength : patterns.length ≤ ((q.grow keys.length).shrink 1).onTop := by
    show patterns.length ≤ q.onTop + keys.length - 1
    omega
  have hitems : Tests S (testUnpacked patterns ((q.grow keys.length).shrink 1))
      ((q.grow keys.length).shrink 1) 0 (t + 2) := by
    refine (tests_testUnpacked h hlength).cast ?_
    show q.onTop + keys.length - 1 - patterns.length = t + 2
    omega
  refine Tests.shift (hitems.seq fun q' hq' => ?_) ?_
  · have honTop : (q'.shrink 2).onTop = t := Nat.sub_eq_of_eq_add hq'
    refine Tests.shift (o := q'.onTop - 2) (r := 2) (Tests.cast ?_ honTop) (by omega)
    show Tests S _ (q'.shrink 2) 2 _
    cases rest with
    | some rest => exact tests_captureRest keys.length (hrest rest rfl)
    | none =>
      refine tests_bind (r := 1) (turns_emit rfl) (by omega) fun _ => ?_
      refine tests_bind (r := 0) (turns_emit rfl) (by omega) fun _ => ?_
      exact tests_pure (q'.shrink 2)
  · show q.onTop + keys.length - 1 + 0 = q.onTop - 1 + keys.length
    omega

theorem tests_testMapping (hkeys : ∀ c ∈ keys, c.Sound S) (h : ∀ c ∈ patterns, c.Sound S)
    {rest : Option String} (hrest : ∀ n ∈ rest, S.Names n) :
    Tests S (testMapping loc keys patterns rest p) p 1 p.onTop := by
  unfold testMapping
  dsimp only
  by_cases hsize : keys.length ≠ patterns.length
  · rw [if_pos hsize]
    exact tests_fails (fails_refuse _ _).bind
  · rw [if_neg hsize]
    rw [not_not] at hsize
    refine tests_bind (r := 2) (turns_emit rfl) (by omega) fun _ => ?_
    refine Tests.shift (tests_failIfFalse.seq fun q hq => ?_) (by omega)
    have hq : q.onTop = p.onTop + 1 := hq
    split
    · refine Tests.shift (o := q.onTop - 1) (r := 1) ?_ (by omega)
      refine tests_bind (r := 0) (turns_emit rfl) (by omega) fun _ => ?_
      exact (tests_pure (q.shrink 1)).cast (Nat.sub_eq_of_eq_add hq)
    · split
      · refine (tests_testLength _ _ (by omega)).seq fun q' hq' => ?_
        exact tests_mappingItems hkeys h hsize hrest (hq'.trans hq)
      · refine (tests_pure q).seq fun q' hq' => ?_
        exact tests_mappingItems hkeys h hsize hrest (hq'.trans hq)

/-! ### Classes -/

theorem still_checkAttributes (attrs : List (String × Location)) :
    (checkAttributes attrs).Still S fun _ _ _ => True := by
  induction attrs with
  | nil => exact .pure _
  | cons x rest ih =>
    obtain ⟨attr, loc⟩ := x
    unfold checkAttributes
    by_cases hdebug : attr = debugName
    · rw [if_pos hdebug]
      exact (fails_refuse _ _).bind.still
    · rw [if_neg hdebug]
      split
      · exact (fails_refuse _ _).still
      · exact ih

theorem tests_testAttribute {c : PatternCode} (h : c.Sound S) (hp : 1 ≤ p.onTop) :
    Tests S (testAttribute loc p c) p 0 (p.onTop - 1) := by
  refine Tests.shift (o := p.onTop - 1) (r := 1) ?_ (by omega)
  unfold testAttribute
  dsimp only
  split
  · exact tests_bind (turns_emit rfl) (by omega) fun _ => tests_pure (p.shrink 1)
  · exact h true (p.shrink 1)

theorem tests_testClass {cls : ExprCode} (hcls : cls.Sound S) (h : ∀ c ∈ patterns, c.Sound S)
    (attrs : List String) {attrPatterns : List PatternCode}
    (hattrs : ∀ c ∈ attrPatterns, c.Sound S) :
    Tests S (testClass loc cls patterns attrs attrPatterns p) p 1 p.onTop := by
  unfold testClass
  dsimp only
  split
  · exact tests_fails (fails_refuse _ _).bind
  · refine tests_bind (j := 0) (r := 1) (still_checkAttributes _).turns (by omega) fun _ => ?_
    refine tests_bind (r := 2) hcls.load (by omega) fun _ => ?_
    refine tests_bind (r := 3) (turns_emitConst _) (by omega) fun _ => ?_
    refine tests_bind (r := 1) (turns_emit rfl) (by omega) fun _ => ?_
    have hnone : Tests S (failIfNone loc (p.grow 1)) (p.grow 1) 0 (p.onTop + 1) :=
      tests_failIfNone (Nat.le_add_left _ _)
    refine Tests.shift (hnone.seq fun q hq => ?_) rfl
    refine Tests.shift (o := q.onTop - 1) (r := 1) ?_ (by omega)
    generalize hparts : patterns ++ attrPatterns = parts
    have hall : ∀ c ∈ parts, c.Sound S := by
      rw [← hparts, forall_mem_append]
      exact ⟨h, hattrs⟩
    refine tests_bind (r := parts.length) (turns_emit rfl) (by omega) fun _ => ?_
    have hlength : parts.length ≤ ((q.grow parts.length).shrink 1).onTop := by
      show parts.length ≤ q.onTop + parts.length - 1
      omega
    refine Tests.shift (o := q.onTop + parts.length - 1) (r := 0) (Tests.cast (tests_foldlM
      (p := (q.grow parts.length).shrink 1)
      (fun c hc q hq => tests_testAttribute (hall c hc) hq) hlength) ?_) ?_
    · show q.onTop + parts.length - 1 - parts.length = p.onTop
      omega
    · show q.onTop + parts.length - 1 + 0 = q.onTop - 1 + parts.length
      omega

end

end Bytecode
