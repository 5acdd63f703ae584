import Bytecode.Proofs.Lowering.Patterns

/-!
# Alternatives

All alternatives of a pattern leave as many values as the first of them, in the order of its names.
How many these are is known only after the label at which the alternatives meet was made; so its
shape is read off the run.
-/

namespace Bytecode

open List Gen PatternState Yields Nat

variable {S : Setting} {b : Nat} {H : List OpenHandler} {K : List (Label × Shape)} {U : List Label}
  {loc : Location} {p : PatternState} {names : List String}

theorem captureMoves_places {places : List (String × Nat)} {stores last : List String}
    {moves : List (Nat × Nat)} (h : captureMoves places stores = some (moves, last)) :
    moves.map Prod.snd = places.map Prod.snd := by
  induction places generalizing stores moves with
  | nil =>
    cases h
    rfl
  | cons x places ih =>
    obtain ⟨now, -, h⟩ := Option.bind_eq_some_iff.mp h
    obtain ⟨⟨rest, _⟩, hrest, h⟩ := Option.bind_eq_some_iff.mp h
    cases h
    exact congrArg (x.2 :: ·) (ih hrest)

theorem bounds_of_mem_moveDepths {now place d : Nat} (h : d ∈ moveDepths now place) :
    1 ≤ d ∧ d ≤ place + 1 := by
  unfold moveDepths at h
  split_ifs at h
  · cases h
  · obtain ⟨-, -, hd⟩ := mem_flatMap.mp h
    exact bounds_of_mem_sinkDepths hd

theorem yields_alignCaptures (hb : lowest H ≤ b) (first stores : List String) :
    (alignCaptures loc first stores).Yields S ⟨⟨b + stores.length, H⟩, K, U⟩ fun _ q =>
      first.length = stores.length ∧ q = ⟨⟨b + stores.length, H⟩, K, U⟩ := by
  unfold alignCaptures
  by_cases hlength : first.length ≠ stores.length
  · rw [if_pos hlength]
    exact (fails_refuse _ _).bind.yields
  · rw [if_neg hlength]
    rw [not_not] at hlength
    split
    · exact (fails_refuse _ _).yields
    · next moves last hmoves =>
      have hswaps : ∀ d ∈ moves.flatMap fun move => moveDepths move.1 move.2,
          1 ≤ d ∧ d ≤ stores.length := by
        intro d hd
        obtain ⟨move, hmove, hd⟩ := mem_flatMap.mp hd
        have hplace : move.2 ∈ moves.map Prod.snd := mem_map_of_mem hmove
        rw [captureMoves_places hmoves] at hplace
        obtain ⟨x, hx, hplace⟩ := mem_map.mp hplace
        have hlt := snd_lt_of_mem_zipIdx (mem_reverse.mp hx)
        have hbounds := bounds_of_mem_moveDepths hd
        omega
      exact weaken ((turns_swaps hswaps).leads hb) (.refl _) fun _ q hq =>
        ⟨q, ⟨hlength, hq⟩, .refl q⟩

section

variable {done : Label} {irrefutable : Bool} {alternatives : List PatternCode}
  {context : GenContext} {s s' : GenState} {names : List String} {first : Option (List String)}

theorem eq_of_testEach {first : List String}
    (hrun : testEach loc done irrefutable (some first) alternatives context s = .ok (names, s')) :
    names = first := by
  induction alternatives generalizing s with
  | nil =>
    obtain ⟨rfl, -⟩ := Prod.mk.inj (Except.ok.inj hrun)
    rfl
  | cons c rest ih =>
    obtain ⟨_, _, _, hrun⟩ := bind_eq_ok.mp hrun
    obtain ⟨_, _, _, hrun⟩ := bind_eq_ok.mp hrun
    obtain ⟨_, _, _, hrun⟩ := bind_eq_ok.mp hrun
    obtain ⟨_, _, _, hrun⟩ := bind_eq_ok.mp hrun
    obtain ⟨_, _, _, hrun⟩ := bind_eq_ok.mp hrun
    exact ih hrun

theorem yields_testOne {c : PatternCode} (h : c.Sound S) (hb : lowest H ≤ b) (irrefutable : Bool)
    (first : Option (List String)) :
    (do
      emit .copy 1 c.loc
      let p ← c.test irrefutable {}
      match first with
        | none => pure ()
        | some first => alignCaptures loc first p.stores
      return p : Gen PatternState).Yields S ⟨⟨b + 1, H⟩, K, U⟩ fun p q =>
        (first.getD p.stores).length = p.stores.length ∧ p.Owned S ∧
        q = ⟨⟨b + 1 + p.stores.length, H⟩, exits (b + 1) H p.failures ++ K, p.failures ++ U⟩ := by
  have hb₁ : lowest H ≤ b + 1 := le_succ_of_le hb
  have hcopy : (emit .copy 1 c.loc).Turns S 1 2 := turns_copy (le_refl 1)
  apply (hcopy.leads hb).seq
  apply bind (h irrefutable {} .empty (b + 1) H K U hb₁)
  rintro p _ ⟨honTop, hp, rfl⟩
  have hplace : p.place (b + 1) H K U 0 =
      ⟨⟨b + 1 + p.stores.length, H⟩, exits (b + 1) H p.failures ++ K, p.failures ++ U⟩ := by
    simp only [place, honTop, add_zero]
  rw [hplace]
  cases first with
  | none => exact pure ⟨rfl, hp, rfl⟩
  | some first =>
    apply bind (yields_alignCaptures hb₁ first p.stores)
    rintro _ _ ⟨hlength, rfl⟩
    exact pure ⟨hlength, hp, rfl⟩

theorem testEach_cons (first : Option (List String)) (c : PatternCode) (rest : List PatternCode) :
    testEach loc done irrefutable first (c :: rest) = (do
      emit .copy 1 c.loc
      let p ← c.test (rest.isEmpty && irrefutable) {}
      match first with
        | none => pure ()
        | some first => alignCaptures loc first p.stores
      return p) >>= fun p => (do
        emitJump PseudoOp.jump done c.loc
        p.emitFailures c.loc) >>= fun _ =>
          testEach loc done irrefutable (some (first.getD p.stores)) rest := by
  cases first <;> simp only [testEach, bind_assoc, pure_bind]

/-- A pattern that fails jumps over the others to where the subject is. -/
theorem leads_leaveAlternative (hp : p.Owned S) (hb : lowest H ≤ b)
    (hdone : (done, ⟨b + p.stores.length, H⟩) ∈ K) :
    (do
      emitJump PseudoOp.jump done loc
      p.emitFailures loc : Gen Unit).Leads S
      ⟨⟨b + p.stores.length, H⟩, exits b H p.failures ++ K, p.failures ++ U⟩ ⟨⟨b, H⟩, K, U⟩ :=
  (leads_leap _ (le_add_right_of_le hb) (mem_append_right _ hdone)).seq
    (leads_emitFailures hp hb)

theorem composed_testEach {T : Terms} {here : Spot}
    (h : ∀ c ∈ alternatives, c.Sound (.composed T here))
    (hfirst : ∀ names ∈ first, ∀ n ∈ names, Setting.Names (.composed T here) n) :
    (testEach loc done irrefutable first alternatives).Composed T here fun names =>
      ∀ n ∈ names, Setting.Names (.composed T here) n := by
  induction alternatives generalizing first with
  | nil =>
    refine .pure ?_
    cases first with
    | none => simp
    | some names => exact hfirst names rfl
  | cons c rest ih =>
    obtain ⟨hc, hrest⟩ := forall_mem_cons.mp h
    rw [testEach_cons]
    refine .bind (yields_testOne (b := 0) (H := []) (K := []) (U := []) hc (le_refl 0) _ first)
      fun p ⟨_, _, hp, _⟩ => ?_
    have hdone : (done, Shape.mk (0 + p.stores.length) []) ∈
        [(done, Shape.mk (0 + p.stores.length) [])] := mem_singleton_self _
    refine .bind (leads_leaveAlternative (U := []) hp (le_refl 0) hdone).composes
      fun _ _ => ih hrest ?_
    rintro _ ⟨⟩
    cases first with
    | none => exact hp.stores
    | some names => exact hfirst names rfl

/-- The alternatives meet where as many values wait as there are names. -/
theorem reached_testEach (h : ∀ c ∈ alternatives, c.Sound .shaped) (hb : lowest H ≤ b)
    (hrun : testEach loc done irrefutable first alternatives context s = .ok (names, s'))
    (hdone : (done, ⟨b + 1 + names.length, H⟩) ∈ K) {entry : Shape} {T : Label → Shape}
    (hp : Place.Reached ⟨⟨b + 1, H⟩, K, U⟩ entry T s.unit.graph) :
    ∃ T', Place.Reached ⟨⟨b + 1, H⟩, K, U⟩ entry T' s'.unit.graph := by
  have hb₁ : lowest H ≤ b + 1 := le_succ_of_le hb
  induction alternatives generalizing s first T with
  | nil =>
    obtain ⟨-, rfl⟩ := Prod.mk.inj (Except.ok.inj hrun)
    exact ⟨T, hp⟩
  | cons c rest ih =>
    obtain ⟨hc, hrest⟩ := forall_mem_cons.mp h
    rw [testEach_cons] at hrun
    obtain ⟨p, t, htest, hrun⟩ := bind_eq_ok.mp hrun
    obtain ⟨_, t', hjump, hrun⟩ := bind_eq_ok.mp hrun
    obtain ⟨T₁, _, ⟨hlength, howned, rfl⟩, hp₁⟩ := yields_testOne hc hb _ first _ _ _ _ htest _ _ hp
    obtain rfl : names = first.getD p.stores := eq_of_testEach hrun
    rw [hlength] at hdone
    obtain ⟨T₂, _, rfl, hp₂⟩ := leads_leaveAlternative howned hb₁ hdone _ _ _ _ hjump _ _ hp₁
    exact ih hrest hrun hp₂

end

theorem yields_adoptCaptures {depth : Nat} (hp : p.Owned S) (hb : lowest H ≤ b)
    (hnames : ∀ n ∈ names, S.Names n) :
    (adoptCaptures loc depth p names).Yields S ⟨⟨b + depth, H⟩, K, U⟩ fun p' q =>
      p'.onTop = p.onTop ∧ p'.failures = p.failures ∧
      p'.stores.length = p.stores.length + names.length ∧ p'.Owned S ∧
      q = ⟨⟨b + depth, H⟩, K, U⟩ := by
  induction names generalizing p with
  | nil => exact pure ⟨rfl, rfl, rfl, hp, rfl⟩
  | cons name names ih =>
    obtain ⟨hname, hnames⟩ := forall_mem_cons.mp hnames
    unfold adoptCaptures
    apply ((turns_sink depth).leads hb).seq
    split_ifs
    · exact (fails_refuse _ _).bind.yields
    · refine (ih (hp.add hname) hnames).weaken (.refl _) fun p' q hq => ⟨q, ?_, .refl q⟩
      obtain ⟨honTop, hfailures, hlength, hp', rfl⟩ := hq
      refine ⟨honTop, hfailures, hlength.trans ?_, hp', rfl⟩
      simp only [length_append, length_cons, length_nil]
      omega

/-- If no alternative matches, the pattern fails; else the captures go below what the state counts,
and the subject is dropped. -/
theorem yields_meet (hp : p.Owned S) (hb : lowest H ≤ b) {done : Label} (hdone : S.Owns done)
    {names : List String} (hnames : ∀ n ∈ names, S.Names n) :
    (do
      emit .popTop 0 loc
      let p ← p.jumpToFailure .jump loc
      bindLabel done
      let p ← adoptCaptures loc (names.length + 1 + p.onTop + p.stores.length) p names
      emit .popTop 0 loc
      return p : Gen PatternState).Yields S
        ⟨⟨b + (p.onTop + p.stores.length) + 1, H⟩,
          (done, ⟨b + (names.length + 1 + p.onTop + p.stores.length), H⟩) ::
            (exits b H p.failures ++ K), done :: (p.failures ++ U)⟩
        fun p' q => p'.onTop = p.onTop ∧ p'.Owned S ∧ q = p'.place b H K U 0 := by
  set meet : Shape := ⟨b + (names.length + 1 + p.onTop + p.stores.length), H⟩ with hmeet
  have hb' : lowest H ≤ b + (p.onTop + p.stores.length) := le_add_right_of_le hb
  have hpop : ∀ {n}, (emit .popTop 0 loc).Turns S (n + 1) n :=
    fun {n} => (turns_emit (n := 1) (k := 0) rfl).over n
  have hdrop : (emit .popTop 0 loc).Leads S
      ⟨⟨b + (p.onTop + p.stores.length) + 1, H⟩, (done, meet) :: (exits b H p.failures ++ K),
        done :: (p.failures ++ U)⟩
      ⟨⟨b + (p.onTop + p.stores.length), H⟩, exits b H p.failures ++ (done, meet) :: K,
        p.failures ++ done :: U⟩ := by
    refine (hpop.leads hb).weaken (.refl _) ⟨rfl, ?_, ?_⟩
    all_goals
      intro x hx
      simp only [mem_append, mem_cons] at hx ⊢
      tauto
  apply hdrop.seq
  apply bind (yields_jumpToFailure hp fun l K U hl => leads_leap meet hb' hl (.inl rfl))
  rintro p' _ ⟨honTop, hstores, hp', rfl⟩
  rw [honTop, hstores]
  have hbind : (bindLabel done).Leads S
      ⟨meet, exits b H p'.failures ++ (done, meet) :: K, p'.failures ++ done :: U⟩
      ⟨meet, exits b H p'.failures ++ (done, meet) :: K, p'.failures ++ U⟩ := by
    refine leads_bindLabel hdone _ (by simp) ?_
    · intro x hx
      simp only [mem_append, mem_cons] at hx ⊢
      tauto
  apply hbind.seq
  apply bind (yields_adoptCaptures hp' hb hnames)
  rintro p'' _ ⟨honTop', hfailures, hlength, hp'', rfl⟩
  have hend : names.length + 1 + p.onTop + p.stores.length = p''.onTop + p''.stores.length + 1 := by
    rw [hstores] at hlength
    omega
  rw [hend]
  apply (hpop.leads hb).seq
  refine pure_of_le ?_ ⟨honTop'.trans honTop, hp'', rfl⟩
  rw [← hfailures]
  refine ⟨by simp only [place, add_assoc, add_zero], ?_, List.Subset.refl _⟩
  exact append_subset.mpr ⟨subset_append_left _ _,
    List.Subset.trans (subset_cons_self _ _) (subset_append_right _ _)⟩

theorem tests_testAlternatives {alternatives : List PatternCode} (h : ∀ c ∈ alternatives, c.Sound S)
    (irrefutable : Bool) :
    Tests S (testAlternatives loc alternatives irrefutable p) p 1 p.onTop := by
  intro hp b H K U hb
  cases S with
  | shaped =>
    intro context s p' s' hrun entry T hreached
    have hplace : p.place b H K U 1 = ⟨⟨b + (p.onTop + p.stores.length) + 1, H⟩,
        exits b H p.failures ++ K, p.failures ++ U⟩ := by
      simp only [place, add_assoc]
    rw [hplace] at hreached
    obtain ⟨done, t₁, hlabel, hrun⟩ := bind_eq_ok.mp hrun
    obtain ⟨names, t₂, heach, hrun⟩ := bind_eq_ok.mp hrun
    have hmeet : b + (names.length + 1 + p.onTop + p.stores.length) =
        b + (p.onTop + p.stores.length) + 1 + names.length := by omega
    obtain ⟨T₁, hreached₁⟩ :=
      reached_newLabel ⟨b + (names.length + 1 + p.onTop + p.stores.length), H⟩ hlabel hreached
    obtain ⟨T₂, hreached₂⟩ := reached_testEach h (le_add_right_of_le hb) heach
      (hmeet ▸ mem_cons_self ..) hreached₁
    exact yields_meet hp hb trivial (fun _ _ => trivial) _ _ _ _ hrun _ _ hreached₂
  | composed T here =>
    refine Composed.bind .newLabel fun done hdone => .bind (composed_testEach h (by simp)) ?_
    exact fun names hnames => yields_meet (S := .composed T here) hp hb hdone hnames

/-! ### Patterns -/

theorem names_of_mem_allows (h : S.Allows (mentionsNames · names)) : ∀ n ∈ names, S.Names n :=
  fun _ hn => h.imp fun _ _ h => h _ (mem_map_of_mem hn)

theorem names_of_allows {name : Option String} (h : S.Allows (mentionsNames · name.toList)) :
    ∀ n ∈ name, S.Names n :=
  fun _ hn => names_of_mem_allows h _ (Option.mem_toList.mpr hn)

mutual

theorem sound_pattern : (q : Pattern ScopeId) → S.Allows (mentionsPattern · q) →
    (lowerPattern q).Sound S
  | .value _ value, h => fun _ _ => tests_testValue (sound_expr value S h)
  | .singleton _ value, _ => fun _ _ => tests_testSingleton value
  | .sequence _ patterns, h => fun _ _ => tests_testSequence (sound_patterns patterns h)
  | .mapping _ keys patterns _, h => fun _ _ =>
    tests_testMapping (sound_exprs keys S h.left) (sound_patterns patterns h.right.left)
      (names_of_allows h.right.right)
  | .classPattern _ cls patterns attrs attrPatterns, h => fun _ _ =>
    tests_testClass (sound_expr cls S h.left) (sound_patterns patterns h.right.left) attrs
      (sound_patterns attrPatterns h.right.right)
  | .star _ _, h => fun _ _ => tests_capture (names_of_allows h)
  | .capture _ none _, h => fun irrefutable _ =>
    tests_testAnything (names_of_allows h.right) irrefutable
  | .capture _ (some pattern) _, h => fun irrefutable _ =>
    tests_testAs (sound_pattern pattern h.left) (names_of_allows h.right) irrefutable
  | .alternatives _ patterns, h => fun irrefutable _ =>
    tests_testAlternatives (sound_patterns patterns h) irrefutable

theorem sound_patterns : (qs : List (Pattern ScopeId)) → S.Allows (mentionsPatterns · qs) →
    ∀ c ∈ lowerPatterns qs, c.Sound S
  | [], _, _, hc => by cases hc
  | q :: qs, h, c, hc => by
    rcases mem_cons.mp hc with rfl | hc
    · exact sound_pattern q h.left
    · exact sound_patterns qs h.right c hc

end

end Bytecode
