import Bytecode.Compile
import Bytecode.Proofs.Lowering.Control
import Bytecode.Proofs.Lowering.Regions

/-!
# Statements

The code of every statement leaves the stack and the handlers as it finds them, as long as every
assignment has a target, and it is put together from primitives, if what it mentions is allowed.
-/

namespace Bytecode

open List Gen Nat

variable {S : Setting} {loc : Location} {target : ExprCode}

/-! ### Assignments -/

theorem turns_storeAll {targets : List ExprCode} (h : ∀ c ∈ targets, c.Sound S)
    (hne : S.Needs (targets ≠ [])) : (storeAll loc targets).Turns S 1 0 := by
  induction targets with
  | nil =>
    cases S with
    | shaped => exact absurd rfl hne
    | composed T here => exact fun _ _ _ _ _ => .of_composes (.pure trivial)
  | cons target rest ih =>
    obtain ⟨htarget, hrest⟩ := forall_mem_cons.mp h
    cases rest with
    | nil => exact htarget.store
    | cons next rest =>
      apply (turns_copy (le_refl 1)).seq
      apply (htarget.store.above 1).seq
      exact ih hrest (Setting.needs_of (cons_ne_nil _ _))

theorem turns_lowerAugment {value : ExprCode} (htarget : target.Sound S) (op : BinaryOp)
    (hvalue : value.Sound S) : (lowerAugment loc target op value).Turns S 0 0 := by
  unfold lowerAugment
  cases hupdate : target.update with
  | none => exact (fails_fault _).turns
  | some update =>
    obtain ⟨k, hread, hwrite⟩ := htarget.update update hupdate
    apply hread.seq
    apply (hvalue.load.push (k + 1)).seq
    apply ((turns_emit (n := 2) (k := 1) rfl).over k).seq
    exact hwrite

theorem turns_storeHint {hint : ExprCode} (h : hint.Sound S) (name : String)
    (hop : S.Permits .loadName) : (storeHint loc name hint).Turns S 0 0 := by
  apply h.load.seq
  apply ((turns_emitName (fun _ => rfl) hop).push 1).seq
  refine (still_mangled name).turns.bind fun full => ?_
  apply ((turns_emitConst _).push 2).seq
  exact turns_emit rfl

/-- The target of an annotation is stored if there is a value, and else only probed. -/
theorem turns_lowerAnnotate {hint : ExprCode} {value : Option ExprCode}
    (hvalue : ∀ c ∈ value, c.Sound S ∧ target.store.Turns S 1 0)
    (htarget : ∀ m ∈ target.probeTarget, m.Turns S 0 0) (hhint : hint.Sound S) (simple : Bool) :
    (lowerAnnotate loc target hint value simple).Turns S 0 0 := by
  unfold lowerAnnotate
  apply (turns_forM_option fun c hc => (hvalue c hc).1.load.seq (hvalue c hc).2).seq
  refine still_kind.turnsGiven fun kind hkind => still_defersAnnotations.turns.bind fun defers => ?_
  dsimp only
  generalize hevaluates : (kind.storesAnnotations && !defers) = evaluates
  have hpermits : evaluates = true → S.Permits .loadName := by
    rintro rfl
    refine hkind.imp fun _ here hkind _ => ?_
    have hstores := (Bool.and_eq_true_iff.mp hevaluates).1
    rw [hkind] at hstores
    simpa [UnitKind.storesAnnotations] using hstores
  have hprobe : (if !simple && evaluates then hint.probe else pure ()).Turns S 0 0 := by
    split_ifs
    · exact hhint.probe
    · exact turns_pure ()
  split
  · split
    · exact (fails_refuse _ _).bind.turns
    split
    · next hstores =>
      exact (turns_storeHint hhint _ (hpermits (Bool.and_eq_true_iff.mp hstores).2)).seq hprobe
    · exact hprobe
  · next probe htargets _ =>
    split
    · exact (htarget probe htargets).seq hprobe
    · exact hprobe
  · exact (fails_fault _).bind.turns

/-! ### Other statements -/

theorem turns_lowerRaise {exception cause : Option ExprCode}
    (hexception : ∀ c ∈ exception, c.Sound S) (hcause : ∀ c ∈ cause, c.Sound S) :
    (lowerRaise loc exception cause).Turns S 0 0 := by
  have hraise {n : Nat} (hn : n ≤ 2) : (emit .raiseVarargs n loc).Ends S n :=
    ends_emit (if_pos hn) rfl
  intro b H K U hb
  cases exception with
  | none => exact (hraise (zero_le 2)).leads hb _
  | some exception =>
    have hload := hexception exception rfl
    cases cause with
    | none => exact (hload.load.leads hb).seq ((hraise (by decide)).leads hb _)
    | some cause =>
      apply (hload.load.leads hb).seq
      apply (((hcause cause rfl).load.push 1).leads hb).seq
      exact (hraise (le_refl 2)).leads hb _

theorem turns_lowerAssertion {test : ExprCode} (htest : test.Sound S) {message : Option ExprCode}
    (hmessage : ∀ c ∈ message, c.Sound S) : (lowerAssertion loc test message).Turns S 0 0 := by
  unfold lowerAssertion
  extract_lets rest
  have hrest (u : PUnit) : (rest u).Turns S 0 0 := by
    refine still_stripsAsserts.turns.bind fun strips => ?_
    split_ifs
    · intro b H K U hb
      apply Leads.label ⟨b, H⟩
      intro holds hholds
      apply ((htest.jumpIf holds true).leads hb).seq
      apply ((turns_emit (n := 0) (k := 1) rfl).leads hb).seq
      apply ((turns_forM_option (n := 1) fun c hc =>
        ((hmessage c hc).load.push 1).seq (turns_emit rfl)).leads hb).seq
      apply ((ends_emit (n := 1) (k := 0) rfl rfl).leads hb ⟨b, H⟩).seq
      exact leads_bindFirst hholds
    · exact turns_pure ()
  split
  · exact (still_warn _ _).turns.bind hrest
  · exact hrest ()

theorem turns_lowerExpression {value : ExprCode} (h : value.Sound S) :
    (lowerExpression loc value).Turns S 0 0 := by
  unfold lowerExpression
  split_ifs
  · exact turns_emit rfl
  · exact h.load.seq (turns_emit rfl)

/-! ### Imports -/

/-- The module is under the last of its parts, unless it is the only one. -/
theorem turns_descend (parts : List String) :
    (descend loc parts).Turns S 1 (if parts.isEmpty then 1 else 2) := by
  have hmember (part : String) : (emitFullName .importFrom part loc).Turns S 1 2 :=
    turns_emitFullName fun _ => rfl
  induction parts with
  | nil => exact turns_pure ()
  | cons part rest ih =>
    cases rest with
    | nil => exact hmember part
    | cons next rest =>
      apply (hmember part).seq
      apply (turns_swap (by decide)).seq
      apply ((turns_emit (n := 1) (k := 0) rfl).above 1).seq
      exact ih

theorem turns_lowerImport {a : Alias} (h : S.Names (a.asName.getD (Collect.headPart a.name))) :
    (lowerImport loc a).Turns S 0 0 := by
  apply (turns_emitConst _).seq
  apply (turns_emitNone.push 1).seq
  apply (turns_emitFullName (n := 2) (k := 1) fun _ => rfl).seq
  obtain ⟨name, _ | asName, aliasLoc⟩ := a
  · exact turns_storeName h
  · apply (turns_descend _).seq
    dsimp only
    cases innerParts name with
    | nil => exact (turns_storeName h).seq (turns_pure ())
    | cons part parts => exact ((turns_storeName h).above 1).seq (turns_emit rfl)

theorem turns_lowerImportFrom {module : Option String} {names : List Alias} {level : Nat}
    (h : ∀ a ∈ names, S.Names (a.asName.getD a.name)) :
    (lowerImportFrom loc module names level).Turns S 0 0 := by
  apply (turns_emitConst _).seq
  apply ((turns_emitConst _).push 1).seq
  apply (turns_emitFullName (n := 2) (k := 1) fun _ => rfl).seq
  have hmember : ∀ a ∈ names, (importMember loc a).Turns S 1 1 := fun a ha =>
    (turns_emitFullName (n := 1) (k := 2) fun _ => rfl).seq ((turns_storeName (h a ha)).above 1)
  split_ifs
  · exact (turns_emit (n := 1) (k := 1) rfl).seq (turns_emit rfl)
  · exact (turns_forM hmember).seq (turns_emit rfl)

/-! ### Definitions -/

theorem turns_applyDecorators (decorators : List ExprCode) :
    (applyDecorators decorators).Turns S (decorators.length + 1) 1 := by
  have hcalls (ds : List ExprCode) :
      (ds.forM fun d => emit .call 0 d.loc).Turns S (ds.length + 1) 1 := by
    induction ds with
    | nil => exact turns_pure ()
    | cons d ds ih => exact ((turns_emit (n := 2) (k := 1) rfl).over ds.length).seq ih
  rw [← length_reverse]
  exact hcalls decorators.reverse

/-- The body keeps an empty stack, under whatever handlers count on nothing. -/
def Gen.Balanced (S : Setting) (body : Gen Unit) : Prop :=
  ∀ H, lowest H ≤ 0 → body.Leads S ⟨⟨0, H⟩, [], []⟩ ⟨⟨0, H⟩, [], []⟩

theorem balanced_runAll {cs : List StmtCode} (h : ∀ c ∈ cs, c.Sound S) :
    Gen.Balanced S (runAll cs []) :=
  fun _ hH => (sound_runAll h).leads (.nil hH)

theorem still_doc? (b : BodyCode) : b.doc?.Still S fun _ _ _ => True :=
  still_stripsAsserts.andThen fun _ => .pure _

section

variable {b : BodyCode} (h : ∀ c ∈ b.statements, c.Sound S)

include h in
theorem sound_statementsAfter (doc : Option Constant) : ∀ c ∈ b.statementsAfter doc, c.Sound S := by
  intro c hc
  unfold BodyCode.statementsAfter at hc
  split at hc
  · exact h c (mem_of_mem_drop hc)
  · exact h c hc

include h in
theorem balanced_lower (hname : S.Names "__doc__") : b.lower.Balanced S := by
  intro H hH
  unfold BodyCode.lower
  extract_lets first rest
  have hrest (u : PUnit) : (rest u).Leads S ⟨⟨0, H⟩, [], []⟩ ⟨⟨0, H⟩, [], []⟩ := by
    refine (still_doc? b).bind fun doc => ?_
    refine Leads.seq ((turns_forM_option (n := 0) fun c _ =>
      (turns_emitConst c).seq (turns_storeName hname)).leads hH) ?_
    exact balanced_runAll (sound_statementsAfter h doc) H hH
  refine still_defersAnnotations.bind fun defers => ?_
  split
  · refine still_kind.bind fun kind => ?_
    exact ((turns_emit (n := 0) (k := 0) rfl).leads hH).bind hrest
  · exact hrest ()

include h in
theorem balanced_lowerFunction : b.lowerFunction.Balanced S := by
  intro H hH
  refine (still_doc? b).bind fun doc => (still_constantIndex _).bind fun _ => ?_
  exact balanced_runAll (sound_statementsAfter h doc) H hH

include h in
theorem balanced_lowerClassBody (hnames : ∀ n ∈ classNames, S.Names n) (loc : Location) :
    (lowerClassBody loc b).Balanced S := by
  simp only [classNames, forall_mem_cons] at hnames
  obtain ⟨hname, hmodule, hqualname, hdoc, hcell, -⟩ := hnames
  intro H hH
  refine still_info.bind fun u => ?_
  apply ((turns_loadName hname).leads hH).seq
  apply ((turns_storeName hmodule).leads hH).seq
  apply ((turns_emitConst _).leads hH).seq
  apply ((turns_storeName hqualname).leads hH).seq
  apply (balanced_lower h hdoc H hH).seq
  dsimp only
  split
  · refine (still_cellIndex _).bind fun i => ?_
    apply (turns_loadClosure.leads hH).seq
    apply ((turns_copy (le_refl 1)).leads hH).seq
    apply (((turns_storeName hcell).above 1).leads hH).seq
    exact ends_return.leads hH _
  · exact (turns_emitNone.leads hH).seq (ends_return.leads hH _)

end

theorem turns_lowerFunctionDef {d : FunctionDef ScopeId ExprCode BodyCode}
    (hname : S.Names d.name)
    (hscope : S.Grants fun T here => T.holds (.scope (here.function d.scope d.isAsync)))
    (hparams : d.params.Sound S) (hreturns : ∀ c ∈ d.returns, c.Sound S)
    (hdecorators : ∀ c ∈ d.decorators, c.Sound S)
    (hbody : ∀ c ∈ d.body.statements, c.Sound (S.inside (·.function d.scope d.isAsync))) :
    (lowerFunctionDef loc d).Turns S 0 0 := by
  apply (still_checkParameters d.params).turns.seq
  apply (turns_loadAll hdecorators).seq
  rw [zero_add]
  refine (offers_loadDefaults hparams.defaults).bind fun defaults => ?_
  refine (offers_loadKeywordDefaults hparams.of_mem_keywordDefaults).bind fun keywords => ?_
  refine (offers_loadAnnotations (hparams.of_mem_annotated hreturns)).bind fun annotations => ?_
  refine (still_childUnit (·.function d.scope d.isAsync) (fun site => ?_) hscope).turnsGiven
    fun u hu => ?_
  · cases d.isAsync <;> rfl
  refine (still_inUnit (·.function d.scope d.isAsync) (hu.imp fun _ _ h => h.withParameters) hscope
    (balanced_lowerFunction hbody [] (le_refl 0)).grants).turnsGiven fun code hcode => ?_
  have hmake : (makeFunction code
      { defaults := defaults, keywordDefaults := keywords, annotations := annotations } loc).Turns S
      (d.decorators.length + defaults.toNat + keywords.toNat + annotations.toNat)
      (d.decorators.length + 1) := by
    rw [add_assoc, add_assoc, ← add_assoc defaults.toNat]
    exact (turns_makeFunction hcode _).over d.decorators.length
  apply hmake.seq
  exact (turns_applyDecorators d.decorators).seq (turns_storeName hname)

theorem turns_lowerClassDef {d : ClassDef ScopeId ExprCode BodyCode} (hname : S.Names d.name)
    (hscope : S.Grants fun T _ => T.holds (.scope (.classBody d.scope d.name)))
    (hbases : ∀ c ∈ d.bases, c.Sound S) (hkeywords : ∀ k ∈ d.keywords, k.value.Sound S)
    (hdecorators : ∀ c ∈ d.decorators, c.Sound S)
    (hnames : ∀ n ∈ classNames, (S.inside fun _ => .classBody d.scope d.name).Names n)
    (hbody : ∀ c ∈ d.body.statements, c.Sound (S.inside fun _ => .classBody d.scope d.name)) :
    (lowerClassDef loc d).Turns S 0 0 := by
  apply (turns_loadAll hdecorators).seq
  rw [zero_add]
  refine (still_childUnit (fun _ => .classBody d.scope d.name) (fun _ => rfl) hscope).turnsGiven
    fun u hu => ?_
  refine (still_inUnit (fun _ => .classBody d.scope d.name) hu hscope
    (balanced_lowerClassBody hbody hnames loc [] (le_refl 0)).grants).turnsGiven
    fun code hcode => ?_
  set n := d.decorators.length
  apply ((turns_emit (n := 0) (k := 1) rfl).push n).seq
  apply ((turns_emit (n := 0) (k := 1) rfl).push (n + 1)).seq
  apply ((turns_makeFunction hcode {}).over (n + 2)).seq
  apply ((turns_emitConst _).push (n + 3)).seq
  apply ((turns_callWith hbases hkeywords).over n).seq
  exact (turns_applyDecorators d.decorators).seq (turns_storeName hname)

/-! ### Statements -/

mutual

/-- Every assignment in the statement has a target. -/
def Stmt.targeted {σ : Type} : Stmt σ → Bool
  | .functionDef _ ⟨_, _, _, body, _, _, _⟩ => Stmt.allTargeted body
  | .classDef _ ⟨_, _, _, _, body, _⟩ => Stmt.allTargeted body
  | .assign _ targets _ => !targets.isEmpty
  | .forLoop _ _ _ body orElse _ => Stmt.allTargeted body && Stmt.allTargeted orElse
  | .whileLoop _ _ body orElse => Stmt.allTargeted body && Stmt.allTargeted orElse
  | .branch _ _ body orElse => Stmt.allTargeted body && Stmt.allTargeted orElse
  | .withBlock _ _ body _ => Stmt.allTargeted body
  | .matchCases _ _ cases => Stmt.casesTargeted cases
  | .tryBlock _ body handlers orElse finalBody =>
    Stmt.allTargeted body && Stmt.handlersTargeted handlers && Stmt.allTargeted orElse &&
      Stmt.allTargeted finalBody
  | _ => true

def Stmt.allTargeted {σ : Type} : List (Stmt σ) → Bool
  | [] => true
  | s :: ss => s.targeted && Stmt.allTargeted ss

def Stmt.casesTargeted {σ : Type} : List (Case (Pattern σ) (Expr σ) (List (Stmt σ))) → Bool
  | [] => true
  | ⟨_, _, body⟩ :: cases => Stmt.allTargeted body && Stmt.casesTargeted cases

def Stmt.handlersTargeted {σ : Type} : List (Handler (Expr σ) (List (Stmt σ))) → Bool
  | [] => true
  | ⟨_, _, body, _⟩ :: handlers => Stmt.allTargeted body && Stmt.handlersTargeted handlers

end

theorem sound_unlessEmpty {α : Type} {source : List α} {code : StmtCode} (h : code.Sound S) :
    ∀ c ∈ unlessEmpty source code, c.Sound S := by
  intro c hc
  unfold unlessEmpty at hc
  split at hc
  · cases hc
  · cases hc
    exact h

theorem sound_withItem (items : List (WithItem (Expr ScopeId)))
    (h : S.Allows (mentionsWithItems · items)) :
    ∀ x ∈ items.map lowerWithItem, x.context.Sound S ∧ ∀ c ∈ x.target, c.Sound S := by
  induction items with
  | nil => simp
  | cons item items ih =>
    rw [map_cons, forall_mem_cons]
    exact ⟨⟨sound_expr item.context S h.left, sound_optional item.target S h.right.left⟩,
      ih h.right.right⟩

theorem turns_lowerAnnotate_lowerExpr {target hint : Expr ScopeId} {value : Option (Expr ScopeId)}
    {simple : Bool} (h : S.Allows (mentionsStmt · (.annotate loc target hint value simple))) :
    (lowerAnnotate loc (lowerExpr target) (lowerExpr hint) (lowerOptional value) simple).Turns S
      0 0 := by
  have hhint := sound_expr hint S h.right.left
  have hvalue := sound_optional value S h.right.right
  cases target with
  | name nameLoc id =>
    refine turns_lowerAnnotate (fun c hc => ⟨hvalue c hc, turns_storeName ?_⟩) (by nofun) hhint _
    obtain ⟨e, rfl⟩ : ∃ e, value = some e := by
      cases value with
      | none => cases hc
      | some e => exact ⟨e, rfl⟩
    have hname : S.Allows fun site => if simple || true then [.name site id] else [] := h.left
    simp only [Bool.or_true, if_true] at hname
    exact hname.head
  | _ =>
    have htarget := sound_expr _ S h.left
    exact turns_lowerAnnotate (fun c hc => ⟨hvalue c hc, htarget.store⟩) htarget.probeTarget hhint _

mutual

theorem sound_stmt : (s : Stmt ScopeId) → (S : Setting) → S.Allows (mentionsStmt · s) →
    S.Needs s.targeted → (lowerStmt s).Sound S
  | .functionDef _ ⟨_, _, params, body, decorators, returns, _⟩, S, h, ht =>
    .ofTurns (turns_lowerFunctionDef h.head h.tail.head
      (sound_parameters params S h.tail.tail.left)
      (sound_optional returns S h.tail.tail.right.left)
      (sound_exprs decorators S h.tail.tail.right.right.left)
      (sound_body body _ h.tail.tail.right.right.right.inside ht.inside))
  | .classDef _ ⟨_, _, bases, keywords, body, decorators⟩, S, h, ht =>
    .ofTurns (turns_lowerClassDef h.head h.tail.head (sound_exprs bases S h.tail.tail.left)
      (sound_keywords keywords S h.tail.tail.right.left)
      (sound_exprs decorators S h.tail.tail.right.right.left)
      (names_of_mem_allows h.tail.tail.right.right.right.left.inside)
      (sound_body body _ h.tail.tail.right.right.right.right.inside ht.inside))
  | .returns _ value, S, h, _ => sound_return (sound_optional value S h)
  | .delete _ targets, S, h, _ =>
    .ofTurns (turns_forM fun c hc => (sound_exprs targets S h c hc).delete)
  | .assign loc targets value, S, h, ht => by
    have hne : S.Needs (lowerExprs targets ≠ []) := ht.imp fun ht => by
      cases targets with
      | nil => cases ht
      | cons target targets => exact cons_ne_nil _ _
    have hassign : (do
        (lowerExpr value).load
        storeAll loc (lowerExprs targets) : Gen Unit).Turns S 0 0 :=
      (sound_expr value S h.right).load.seq (turns_storeAll (sound_exprs targets S h.left) hne)
    exact .ofTurns hassign
  | .augment _ target op value, S, h, _ =>
    .ofTurns (turns_lowerAugment (sound_expr target S h.left) op (sound_expr value S h.right))
  | .annotate _ _ _ _ _, _, h, _ => .ofTurns (turns_lowerAnnotate_lowerExpr h)
  | .forLoop _ target iter body orElse isAsync, S, h, ht => by
    have htarget := sound_expr target S h.left
    have hiter := sound_expr iter S h.right.left
    have hbody := sound_runAll (sound_body body S h.right.right.left ht.left)
    have helse := sound_runAll (sound_body orElse S h.right.right.right ht.right)
    cases isAsync with
    | false => exact sound_for htarget hiter hbody helse
    | true => exact sound_asyncFor htarget hiter hbody helse
  | .whileLoop _ test body orElse, S, h, ht =>
    sound_while (sound_expr test S h.left)
      (sound_runAll (sound_body body S h.right.left ht.left))
      (sound_runAll (sound_body orElse S h.right.right ht.right))
  | .branch _ test body orElse, S, h, ht =>
    sound_branch (sound_expr test S h.left)
      (sound_runAll (sound_body body S h.right.left ht.left))
      (sound_unlessEmpty (sound_runAll (sound_body orElse S h.right.right ht.right)))
  | .withBlock _ items body isAsync, S, h, ht =>
    sound_with (sound_runAll (sound_body body S h.right ht)) (sound_withItem items h.left) isAsync
  | .matchCases _ subject cases, S, h, ht =>
    sound_match (sound_expr subject S h.left) (sound_caseList cases S h.right ht)
  | .raise _ exception cause, S, h, _ =>
    .ofTurns (turns_lowerRaise (sound_optional exception S h.left) (sound_optional cause S h.right))
  | .tryBlock _ body handlers orElse finalBody, S, h, ht =>
    sound_try (sound_runAll (sound_body body S h.left ht.left.left.left))
      (sound_handlerList handlers S h.right.left ht.left.left.right)
      (sound_runAll (sound_body orElse S h.right.right.left ht.left.right))
      (sound_unlessEmpty (sound_runAll (sound_body finalBody S h.right.right.right ht.right)))
  | .assertion _ test message, S, h, _ =>
    .ofTurns (turns_lowerAssertion (sound_expr test S h.left) (sound_optional message S h.right))
  | .importModules _ _, _, h, _ => .ofTurns (turns_forM fun _ ha =>
      turns_lowerImport (names_of_mem_allows h _ (mem_map_of_mem ha)))
  | .importFrom _ _ _ _, _, h, _ => .ofTurns (turns_lowerImportFrom fun _ ha =>
      names_of_mem_allows h _ (mem_map_of_mem ha))
  | .globals _ _, _, _, _ => .ofTurns (turns_pure ())
  | .nonlocals _ _, _, _, _ => .ofTurns (turns_pure ())
  | .expression _ value, S, h, _ => .ofTurns (turns_lowerExpression (sound_expr value S h))
  | .pass loc, _, _, _ => .ofTurns (m := emit .nop 0 loc) (turns_emit rfl)
  | .breakLoop _, _, _, _ => sound_break
  | .continueLoop _, _, _, _ => sound_continue

theorem sound_body : (ss : List (Stmt ScopeId)) → (S : Setting) →
    S.Allows (mentionsBody · ss) → S.Needs (Stmt.allTargeted ss) → ∀ c ∈ lowerBody ss, c.Sound S
  | [], _, _, _, _, hc => by cases hc
  | s :: ss, S, h, ht, c, hc => by
    rcases mem_cons.mp hc with rfl | hc
    · exact sound_stmt s S h.left ht.left
    · exact sound_body ss S h.right ht.right c hc

theorem sound_caseList : (cases : List (Case (Pattern ScopeId) (Expr ScopeId)
    (List (Stmt ScopeId)))) → (S : Setting) → S.Allows (mentionsCases · cases) →
    S.Needs (Stmt.casesTargeted cases) → ∀ c ∈ lowerCaseList cases, CaseCode.Sound S c
  | [], _, _, _, _, hc => by cases hc
  | ⟨pattern, guard, body⟩ :: cases, S, h, ht, c, hc => by
    rcases mem_cons.mp hc with rfl | hc
    · exact ⟨sound_pattern pattern h.left, sound_optional guard S h.right.left,
        sound_runAll (sound_body body S h.right.right.left ht.left)⟩
    · exact sound_caseList cases S h.right.right.right ht.right c hc

theorem sound_handlerList : (handlers : List (Handler (Expr ScopeId) (List (Stmt ScopeId)))) →
    (S : Setting) → S.Allows (mentionsHandlers · handlers) →
    S.Needs (Stmt.handlersTargeted handlers) →
    ∀ x ∈ lowerHandlerList handlers, HandlerCode.Sound S x
  | [], _, _, _, _, hx => by cases hx
  | ⟨type, name, body, loc⟩ :: handlers, S, h, ht, x, hx => by
    rcases mem_cons.mp hx with rfl | hx
    · exact ⟨sound_optional type S h.left, names_of_allows h.right.left,
        sound_runAll (sound_body body S h.right.right.left ht.left)⟩
    · exact sound_handlerList handlers S h.right.right.right ht.right x hx

end

/-! ### Modules -/

theorem composes_lowerBody {T : Terms} (body : Body ScopeId)
    (h : T.Allows (.name .module "__doc__" :: mentionsBody .module body)) :
    (BodyCode.lower ⟨body, lowerBody body⟩).Composes T Site.module.toSpot :=
  have hbody := sound_body body (.composed T Site.module.toSpot) h.tail trivial
  have hdoc : Setting.Names (.composed T Site.module.toSpot) "__doc__" := h.head
  (balanced_lower hbody hdoc [] (le_refl 0)).composes

theorem met_module (options : CompileOptions) (scopes : ScopeViews) :
    Site.module.Met scopes ⟨options, scopes, moduleUnit options scopes⟩ :=
  ⟨⟨rfl, rfl, rfl, rfl⟩, rfl⟩

end Bytecode
