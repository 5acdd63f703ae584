import Bytecode.Proofs.Composition.Mentions
import Bytecode.Proofs.Lowering.Displays

/-!
# Functions and comprehensions

A function is made from what was put on the stack for it: its defaults, its annotations and the
cells that it shares.
-/

namespace Bytecode

open List Gen Leads

variable {S : Setting} {loc : Location} {b : Nat} {H : List OpenHandler} {K : List (Label × Shape)}
  {U : List Label} {g : Generator ExprCode}
variable {generators : List (Generator ExprCode)} {params : Parameters ExprCode}
  {element : Element ExprCode}

/-! ### Parts of functions -/

/-- The generated code turns `n` values into at most one, and the result tells whether into one. -/
def Gen.Offers (S : Setting) (m : Gen Bool) (n : Nat) : Prop :=
  ∀ b H K U, lowest H ≤ b →
    m.Yields S ⟨⟨b + n, H⟩, K, U⟩ fun pushed q => q = ⟨⟨b + pushed.toNat, H⟩, K, U⟩

theorem Gen.Offers.bind {α : Type} {m : Gen Bool} {f : Bool → Gen α} {n k : Nat}
    (hm : m.Offers S 0) (hf : ∀ pushed, (f pushed).Turns S (n + pushed.toNat) k) :
    (m >>= f).Turns S n k := by
  intro b H K U hb
  apply Yields.bind (hm (b + n) H K U (Nat.le_add_right_of_le hb))
  rintro pushed _ rfl
  rw [Nat.add_assoc]
  exact (hf pushed).leads hb

theorem Gen.Turns.offers {α : Type} {m : Gen α} {f : α → Gen Bool} {n k : Nat}
    (hm : m.Turns S n k) (hf : ∀ a, (f a).Offers S k) : (m >>= f).Offers S n :=
  fun b H K U hb => (hm.leads hb).bind fun a => hf a b H K U hb

theorem Gen.offers_pure (pushed : Bool) : (return pushed : Gen Bool).Offers S pushed.toNat :=
  fun _ _ _ _ _ => Yields.pure rfl

theorem offers_loadDefaults {defaults : List ExprCode} (h : ∀ c ∈ defaults, c.Sound S) :
    (loadDefaults defaults loc).Offers S 0 := by
  unfold loadDefaults
  split_ifs
  · exact offers_pure false
  · have hall := turns_loadAll (n := 0) h
    rw [Nat.zero_add] at hall
    exact hall.offers fun _ => (turns_emit rfl).offers fun _ => offers_pure true

theorem offers_loadKeywordDefaults {defaults : List (String × ExprCode)}
    (h : ∀ d ∈ defaults, d.2.Sound S) : (loadKeywordDefaults defaults loc).Offers S 0 := by
  unfold loadKeywordDefaults
  split_ifs
  · exact offers_pure false
  · have hvalues : ∀ c ∈ defaults.map (·.2), c.Sound S := by
      simpa using fun c name hd => h (name, c) hd
    have hall := turns_loadAll (n := 0) hvalues
    rw [Nat.zero_add, length_map] at hall
    have hnames : (defaults.mapM fun d => mangled d.1).Still S fun _ _ _ => True :=
      still_mapM (fun d => still_mangled d.1) defaults
    refine hall.offers fun _ => hnames.turns.offers fun names => ?_
    refine ((turns_emitConst _).push _).offers fun _ => ?_
    exact (turns_emit rfl).offers fun _ => offers_pure true

theorem offers_loadAnnotations {hints : List (String × ExprCode)} (h : ∀ x ∈ hints, x.2.Sound S) :
    (loadAnnotations hints loc).Offers S 0 := by
  refine still_defersAnnotations.turns.offers fun defers => ?_
  dsimp only
  split_ifs
  · exact offers_pure false
  · refine Turns.offers (k := 2 * hints.length) ?_ fun _ => (turns_emit rfl).offers fun _ =>
      offers_pure true
    rw [← Nat.zero_add (2 * _)]
    refine turns_forM_push fun x hx => (still_mangled x.1).turns.bind fun full => ?_
    apply (turns_emitConst _).seq
    apply ((h x hx).loadUnderStar.push 1).seq
    split_ifs
    · exact (turns_emit (n := 1) (k := 1) rfl).above 1
    · exact turns_pure ()

/-! ### Functions -/

/-- What a function is made with is sound. -/
structure Parameters.Sound (S : Setting) (params : Parameters ExprCode) : Prop where
  defaults : ∀ c ∈ params.defaults, c.Sound S
  keywordDefaults : ∀ o ∈ params.keywordDefaults, ∀ c ∈ o, c.Sound S
  hints : ∀ p ∈ params.all, ∀ c ∈ p.hint, c.Sound S

theorem Parameters.Sound.of_mem_keywordDefaults (h : params.Sound S) :
    ∀ d ∈ Bytecode.keywordDefaults params, d.2.Sound S := by
  intro d hd
  obtain ⟨⟨p, o⟩, hx, ho⟩ := mem_filterMap.mp hd
  obtain ⟨c, rfl, rfl⟩ := Option.map_eq_some_iff.mp ho
  exact h.keywordDefaults _ (of_mem_zip hx).2 c rfl

theorem Parameters.Sound.of_mem_annotated (h : params.Sound S) {returns : Option ExprCode}
    (hreturns : ∀ c ∈ returns, c.Sound S) :
    ∀ x ∈ annotated params returns, x.2.Sound S := by
  intro x hx
  rcases mem_append.mp hx with hx | hx
  · obtain ⟨p, hp, hhint⟩ := mem_filterMap.mp hx
    obtain ⟨c, hc, rfl⟩ := Option.map_eq_some_iff.mp hhint
    refine h.hints p ?_ c hc
    simp only [Parameters.all, mem_append] at hp ⊢
    tauto
  · obtain ⟨c, hc, rfl⟩ := mem_map.mp hx
    exact hreturns c (Option.mem_toList.mp hc)

theorem still_checkParameters (params : Parameters ExprCode) :
    (checkParameters params).Still S fun _ _ _ => True := by
  unfold checkParameters
  split
  · exact (fails_refuse _ _).still
  · exact .pure _

/-- A function takes the extras that its operand names, and the code object on top of them. -/
theorem functionExtras_code (e : FunctionExtras) : functionExtras e.code =
    e.defaults.toNat + e.keywordDefaults.toNat + e.annotations.toNat + e.closure.toNat := by
  obtain ⟨defaults, keywordDefaults, annotations, closure⟩ := e
  cases defaults <;> cases keywordDefaults <;> cases annotations <;> cases closure <;> rfl

theorem turns_makeFunction {code : CodeObject} (hcode : S.Grants fun T _ => T.codes code)
    (extras : FunctionExtras) :
    (makeFunction code extras loc).Turns S
      (extras.defaults.toNat + extras.keywordDefaults.toNat + extras.annotations.toNat) 1 := by
  generalize hn : extras.defaults.toNat + extras.keywordDefaults.toNat +
    extras.annotations.toNat = n
  have hmake : ∀ closure : Bool, (do
      emitConst (← addCode code) loc
      emit .makeFunction { extras with closure := closure : FunctionExtras }.code loc :
        Gen Unit).Turns S (n + closure.toNat) 1 := by
    intro closure
    refine (still_addCode hcode).turns.bind fun c => ?_
    refine ((turns_emitConst c).push _).seq (turns_emit ?_)
    show some (functionExtras _ + 1, 1) = _
    rw [functionExtras_code, hn]
  have hcells : ∀ names : List String,
      (names.forM fun name => do emitPseudo .loadClosure (← cellIndex name) loc).Turns S n
        (n + names.length) := by
    intro names
    rw [← Nat.one_mul names.length]
    exact turns_forM_push fun name _ =>
      (still_cellIndex name).turns.bind fun _ => turns_loadClosure
  unfold makeFunction
  apply (hcells _).seq
  cases code.freeNames with
  | nil => exact hmake false
  | cons name names => exact ((turns_emit rfl).over n).seq (hmake true)

theorem turns_lambdaBody {value : ExprCode} (hvalue : value.Sound S) :
    (lambdaBody loc value).Turns S 0 0 := by
  intro b H K U hb
  apply (still_constantIndex _).leads.bind
  intro _
  apply (hvalue.load.leads hb).seq
  exact (ends_emit rfl rfl).leads hb _

theorem Site.Suits.withParameters {site : Site} {scopes : ScopeViews} {u : UnitInfo}
    (h : site.Suits scopes u) :
    site.Suits scopes (u.withParameters params) :=
  ⟨h.kind, h.className, h.scope, h.optimized⟩

theorem turns_loadLambda {scope : ScopeId} (h : params.Sound S)
    (hscope : S.Grants fun T here => T.holds (.scope (here.inner scope .lambda))) {body : ExprCode}
    (hbody : body.Sound (S.inside (·.inner scope .lambda))) :
    (loadLambda loc scope params body).Turns S 0 1 := by
  apply (still_checkParameters params).turns.seq
  refine (offers_loadDefaults h.defaults).bind fun defaults => ?_
  refine (offers_loadKeywordDefaults h.of_mem_keywordDefaults).bind fun keywordDefaults => ?_
  refine (still_childUnit (·.inner scope .lambda) (fun _ => rfl) hscope).turnsGiven fun u hu => ?_
  refine (still_inUnit (·.inner scope .lambda) (hu.imp fun _ _ h => h.withParameters) hscope
    (turns_lambdaBody hbody).grants).turnsGiven fun code hcode => ?_
  rw [Nat.zero_add]
  exact turns_makeFunction hcode { defaults := defaults, keywordDefaults := keywordDefaults }

/-! ### Comprehensions -/

/-- What a comprehension collects is sound. -/
def Element.Sound (S : Setting) : Element ExprCode → Prop
  | .list item => item.Sound S
  | .set item => item.Sound S
  | .dict key value => key.Sound S ∧ value.Sound S
  | .generator item => item.Sound S

theorem Element.turns_add (h : element.Sound S) (depth : Nat) :
    (element.add depth).Turns S 0 0 := by
  cases element with
  | list item | set item => exact (ExprCode.Sound.load h).seq ((turns_emit rfl).seq (turns_pure _))
  | dict key value =>
    obtain ⟨hkey, hvalue⟩ := h
    exact hkey.load.seq ((hvalue.load.push 1).seq ((turns_emit rfl).seq (turns_pure _)))
  | generator item =>
    exact (ExprCode.Sound.load h).seq (turns_emitYield.seq ((turns_emit rfl).seq (turns_pure _)))

/-- What a clause is made of is sound, its iterator apart. -/
structure Generator.Binds (S : Setting) (g : Generator ExprCode) : Prop where
  target : g.target.Sound S
  conditions : ∀ c ∈ g.conditions, c.Sound S

theorem turns_loadIterator {isOuter : Bool}
    (hkind : S.Grants fun _ here => here.kind = .comprehension)
    (h : isOuter = false → g.iter.Sound S) : (loadIterator isOuter g loc).Turns S 0 1 := by
  cases isOuter with
  | true =>
    cases S with
    | shaped => exact turns_permitted rfl trivial
    | composed T here => exact fun _ _ _ _ _ => .of_composes (.loadArgument hkind)
  | false =>
    apply (h rfl).load.seq
    split_ifs <;> exact turns_emit rfl

theorem leads_conditions (h : g.Binds S) {skip : Label} (hb : lowest H ≤ b)
    (hskip : (skip, ⟨b, H⟩) ∈ K := by simp) :
    (g.conditions.forM (·.jumpIf skip false)).Leads S ⟨⟨b, H⟩, K, U⟩ ⟨⟨b, H⟩, K, U⟩ :=
  leads_forM fun c hc => ((h.conditions c hc).jumpIf skip false).leads hb hskip

section

variable (helement : element.Sound S) (hkind : S.Grants fun _ here => here.kind = .comprehension)
  (h : ∀ g ∈ generators, g.Binds S)
include helement hkind h

theorem turns_lowerClauses (isOuter : Bool)
    (hiters : ∀ g ∈ generators.drop isOuter.toNat, g.iter.Sound S) (depth awaiting : Nat) :
    (lowerClauses element loc isOuter depth awaiting generators).Turns S 0 0 := by
  induction generators generalizing isOuter depth awaiting with
  | nil => exact Element.turns_add helement depth
  | cons g rest ih =>
    obtain ⟨hg, hrest⟩ := forall_mem_cons.mp h
    have hiter : isOuter = false → g.iter.Sound S := by
      rintro rfl
      exact hiters g (mem_cons_self ..)
    have hinner : ∀ depth awaiting,
        (lowerClauses element loc false depth awaiting rest).Turns S 0 0 := by
      refine ih hrest false fun x hx => hiters x ?_
      cases isOuter with
      | true => exact hx
      | false => exact mem_cons_of_mem _ hx
    have hload : (loadIterator isOuter g loc).Turns S 0 1 := turns_loadIterator hkind hiter
    intro b H K U hb
    have hb₁ : lowest H ≤ b + 1 := Nat.le_succ_of_le hb
    unfold lowerClauses
    cases hasync : g.isAsync with
    | true =>
      apply label ⟨b + 1, H⟩
      intro start hstart
      apply label ⟨b + 2, H⟩
      intro atEnd hatEnd
      apply label ⟨b + 1, H⟩
      intro skip hskip
      rw [if_pos rfl]
      apply (hload.leads hb).seq
      apply (leads_bindLabel hstart (skip :: atEnd :: U)).seq
      split_ifs
      · exact (fails_exceed _).bind.yields
      · apply (leads_awaitNext hb).seq
        apply ((hg.target.store.above 1).leads hb).seq
        apply (leads_conditions hg hb₁).seq
        apply ((hinner _ _).leads hb₁).bind
        intro next
        apply (leads_bindLabel hskip (atEnd :: U)).seq
        apply (leads_leap ⟨b + 2, H⟩ hb₁).seq
        apply (leads_bindFirst hatEnd).seq
        apply ((turns_emit rfl).leads hb).seq
        exact Yields.pure rfl
    | false =>
      cases hsingle : loadSingle? isOuter g with
      | some load =>
        apply Yields.spareLabel
        intro _ _
        apply label ⟨b, H⟩
        intro skip hskip
        apply Yields.spareLabel
        intro _ _
        rw [if_neg Bool.false_ne_true]
        obtain ⟨houter, honly⟩ := Option.ite_none_left_eq_some.mp hsingle
        simp only [Bool.or_eq_true, not_or, Bool.not_eq_true] at houter
        apply (((hiter houter.1).loadOnly load honly).leads hb).seq
        apply (hg.target.store.leads hb).seq
        apply (leads_conditions hg hb).seq
        apply ((hinner _ _).leads hb).bind
        intro _
        apply (leads_bindFirst hskip).seq
        exact Yields.pure rfl
      | none =>
        apply label ⟨b + 1, H⟩
        intro start hstart
        apply label ⟨b + 1, H⟩
        intro skip hskip
        apply label ⟨b, H⟩
        intro atEnd hatEnd
        rw [if_neg Bool.false_ne_true]
        apply (hload.leads hb).seq
        apply (leads_bindLabel hstart (atEnd :: skip :: U)).seq
        apply (leads_jump rfl hb fun _ => rfl).seq
        apply ((hg.target.store.above 1).leads hb).seq
        apply (leads_conditions hg hb₁).seq
        apply ((hinner _ _).leads hb₁).bind
        intro next
        apply (leads_bindLabel hskip (atEnd :: U)).seq
        apply (leads_leap ⟨b, H⟩ hb₁).seq
        apply (leads_bindFirst hatEnd).seq
        exact Yields.pure rfl

theorem turns_comprehensionBody (hiters : ∀ g ∈ generators.tail, g.iter.Sound S) :
    (comprehensionBody loc element generators).Turns S 0 0 := by
  intro b H K U hb
  have hclauses : (lowerClauses element loc true 0 0 generators).Turns S 0 0 :=
    turns_lowerClauses helement hkind h true (by rwa [Bool.toNat_true, drop_one]) 0 0
  unfold comprehensionBody
  cases element with
  | generator item =>
    apply (pure (a := ())).seq
    apply (hclauses.leads hb).bind
    intro _
    exact Yields.pure rfl
  | list | set | dict =>
    apply ((turns_emit rfl).leads hb).seq
    apply ((hclauses.above 1).leads hb).bind
    intro _
    exact (ends_emit rfl rfl).leads hb _

end

theorem turns_loadComprehension {scope : ScopeId} {outer : Generator ExprCode}
    (hscope : S.Grants fun T here => T.holds (.scope (here.inner scope .comprehension)))
    (hbody : (comprehensionBody loc element (outer :: generators)).Turns
      (S.inside (·.inner scope .comprehension)) 0 0)
    (hiter : outer.iter.Sound S) :
    (loadComprehension loc scope element (outer :: generators)).Turns S 0 1 := by
  unfold loadComprehension
  refine (still_childUnit (·.inner scope .comprehension) (fun _ => rfl) hscope).turnsGiven
    fun u hu => ?_
  refine still_kind.turns.bind fun kind => ?_
  dsimp only
  split
  · exact (fails_refuse _ _).bind.turns
  · refine Still.turnsGiven (still_inUnit (·.inner scope .comprehension) (hu.imp ?_) hscope
      hbody.grants) fun code hcode => ?_
    · exact fun _ _ h => ⟨h.kind, h.className, h.scope, h.optimized⟩
    apply (turns_makeFunction hcode {}).seq
    apply (hiter.load.push 1).seq
    have hget : (emit (if outer.isAsync then .getAiter else .getIter) 0 loc).Turns S 2 2 := by
      split_ifs <;> exact (turns_emit (n := 1) (k := 1) rfl).above 1
    apply hget.seq
    apply (turns_emit rfl).seq
    split_ifs
    · exact turns_awaitValue 0
    · exact turns_pure ()

end Bytecode
