import Bytecode.Lowering.Expression
import Bytecode.Proofs.Lowering.Functions

/-!
# Expressions

The code of every expression is sound, if what the expression mentions is allowed: by induction over
the expression, where the code of a scope inside has a setting of its own.
-/

namespace Bytecode

open Gen ExprCode

section

variable {S : Setting} {loc : Location} {source : Expr ScopeId}
  {left right value target orElse : ExprCode}

theorem turns_loadBinary (hleft : left.Sound S) (op : BinaryOp) (hright : right.Sound S) :
    (loadBinary loc left op right).Turns S 0 1 :=
  hleft.load.seq ((hright.load.push 1).seq (turns_emit rfl))

theorem sound_unaryCode (op : UnaryOp) (hvalue : value.Sound S) :
    (unaryCode source op value).Sound S := by
  have hload : (do value.load; emit op.opcode 0 source.loc : Gen Unit).Turns S 0 1 := by
    cases op <;> exact hvalue.load.seq (turns_emit rfl)
  cases op with
  | not => exact { Sound.ofLoad hload with jumpIf := fun target cond => hvalue.jumpIf target !cond }
  | _ => exact .ofLoad hload

theorem turns_loadNamed (htarget : target.Sound S) (hvalue : value.Sound S) :
    (loadNamed loc target value).Turns S 0 1 :=
  hvalue.load.seq ((turns_emit rfl).seq (htarget.store.above 1))

theorem turns_loadAwait (hvalue : value.Sound S) : (loadAwait loc value).Turns S 0 1 := by
  refine still_kind.turns.bind fun kind => ?_
  split
  · exact (fails_refuse _ _).bind.turns
  · refine still_kind.turns.bind fun kind => ?_
    split
    · exact (fails_refuse _ _).bind.turns
    · exact hvalue.load.seq (turns_awaitValue 0)

theorem turns_loadYield {value : Option ExprCode} (hvalue : ∀ c ∈ value, c.Sound S) :
    (loadYield loc value).Turns S 0 1 := by
  refine still_kind.turns.bind fun kind => ?_
  split
  · exact (fails_refuse _ _).bind.turns
  · exact (turns_loadOptional hvalue).seq turns_emitYield

theorem turns_loadYieldFrom (hvalue : value.Sound S) : (loadYieldFrom loc value).Turns S 0 1 := by
  refine still_kind.turns.bind fun kind => ?_
  split
  · exact (fails_refuse _ _).bind.turns
  · refine still_kind.turns.bind fun kind => ?_
    split
    · exact (fails_refuse _ _).bind.turns
    · exact hvalue.load.seq ((turns_emit rfl).seq turns_delegate)

theorem turns_loadConditional {test body : ExprCode} (htest : test.Sound S) (hbody : body.Sound S)
    (helse : orElse.Sound S) : (chooseBy test body.load orElse.load).Turns S 0 1 := by
  intro b H K U hb
  have hb₁ : lowest H ≤ b + 1 := Nat.le_succ_of_le hb
  exact leads_chooseBy htest hb hb₁ (fun _ _ _ => hbody.load.leads hb)
    fun _ _ _ => helse.load.leads hb

theorem jumps_jumpIfConditional {test body : ExprCode} (htest : test.Sound S) (hbody : body.Sound S)
    (helse : orElse.Sound S) (target : Label) (cond : Bool) :
    (chooseBy test (body.jumpIf target cond) (orElse.jumpIf target cond)).Jumps S target := by
  intro b H K U hb hl
  exact leads_chooseBy htest hb hb (fun _ _ hK => (hbody.jumpIf target cond).leads hb (hK hl))
    fun _ _ hK => (helse.jumpIf target cond).leads hb (hK hl)

theorem sound_compare {left : Expr ScopeId} {ops : List CompareOp}
    {comparators : List (Expr ScopeId)} (hleft : (lowerExpr left).Sound S)
    (h : ∀ c ∈ lowerExprs comparators, c.Sound S) :
    (lowerExpr (.compare loc left ops comparators)).Sound S := by
  have hload : (ExprCode.ofLoad (.compare loc left ops comparators)
      (loadCompare loc (lowerExpr left) ops (lowerExprs comparators))).Sound S :=
    .ofLoad (turns_loadCompare hleft h)
  unfold lowerExpr
  dsimp only
  split_ifs
  · exact { hload with jumpIf := jumps_jumpIfChain hleft h }
  · exact hload

end

mutual

theorem sound_expr : (e : Expr ScopeId) → (S : Setting) → S.Allows (mentionsExpr · e) →
    (lowerExpr e).Sound S
  | .boolOp loc op values, S, h =>
    have hvalues := sound_exprs values S h
    { Sound.ofLoad (turns_loadBoolOp op hvalues) with
      jumpIf := jumps_jumpIfBoolOp op hvalues }
  | .named loc target value, S, h =>
    .ofLoad (turns_loadNamed (sound_expr target S h.left) (sound_expr value S h.right))
  | .binary loc left op right, S, h =>
    .ofLoad (turns_loadBinary (sound_expr left S h.left) op (sound_expr right S h.right))
  | .unary loc op operand, S, h => sound_unaryCode op (sound_expr operand S h)
  | .lambda loc scope params body, S, h =>
    .ofLoad (turns_loadLambda (sound_parameters params S h.tail.left) h.head
      (sound_expr body _ h.tail.right.inside))
  | .conditional loc test body orElse, S, h =>
    have htest := sound_expr test S h.left
    have hbody := sound_expr body S h.right.left
    have helse := sound_expr orElse S h.right.right
    { Sound.ofLoad (turns_loadConditional htest hbody helse) with
      jumpIf := jumps_jumpIfConditional htest hbody helse }
  | .dict loc keys values, S, h =>
    .ofLoad (turns_loadDict (sound_optionals keys S h.left) (sound_exprs values S h.right))
  | .set loc items, S, h => .ofLoad (turns_buildSequence .set (sound_exprs items S h))
  | .list loc items, S, h =>
    have hitems := sound_exprs items S h
    sound_sequenceCode (turns_buildSequence .list hitems) hitems
  | .tuple loc items, S, h =>
    have hitems := sound_exprs items S h
    sound_tupleCode (turns_buildSequence .tuple hitems) hitems
  | .comprehension _ _ _ [], _, _ => .ofLoad (fails_fault _).turns
  | .comprehension loc scope element (⟨target, iter, conditions, isAsync⟩ :: generators), S, h =>
    have hrest := sound_generators generators _ h.tail.right.right.right.left.inside
    have hbinds := List.forall_mem_cons.mpr
      ⟨⟨sound_expr target _ h.tail.right.left.inside,
        sound_exprs conditions _ h.tail.right.right.left.inside⟩, fun g hg => (hrest g hg).1⟩
    .ofLoad (turns_loadComprehension h.head
      (turns_comprehensionBody
        (sound_element element _ h.tail.right.right.right.right.inside)
        (Setting.grants_inside fun _ _ => rfl) hbinds fun g hg => (hrest g hg).2)
      (sound_expr iter S h.tail.left))
  | .await loc value, S, h => .ofLoad (turns_loadAwait (sound_expr value S h))
  | .yield loc value, S, h => .ofLoad (turns_loadYield (sound_optional value S h))
  | .yieldFrom loc value, S, h => .ofLoad (turns_loadYieldFrom (sound_expr value S h))
  | .compare loc left ops comparators, S, h =>
    sound_compare (sound_expr left S h.left) (sound_exprs comparators S h.right)
  | .call loc func args keywords, S, h =>
    .ofLoad (turns_loadCall (sound_expr func S h.left) (sound_exprs args S h.right.left)
      (sound_keywords keywords S h.right.right))
  | .formatted loc value conversion spec, S, h =>
    .ofLoad (turns_loadFormatted (sound_expr value S h.left) conversion
      (sound_optional spec S h.right))
  | .joined loc values, S, h => .ofLoad (turns_loadJoined (sound_exprs values S h))
  | .constant loc value, _, _ => .ofLoad (turns_emitConst value)
  | .member loc value attr, S, h => sound_memberCode (sound_expr value S h) attr
  | .subscript loc value index, S, h =>
    sound_subscriptCode (sound_expr value S h.left) (sound_expr index S h.right)
  | .starred loc value, S, h => sound_starredCode (sound_expr value S h)
  | .name loc id, _, h => sound_nameCode h.head
  | .slice loc lower upper step, S, h =>
    have hlower := sound_optional lower S h.left
    have hupper := sound_optional upper S h.right.left
    have hstep := sound_optional step S h.right.right
    sound_sliceCode (turns_loadSlice hlower hupper hstep) hlower hupper hstep

theorem sound_exprs : (es : List (Expr ScopeId)) → (S : Setting) →
    S.Allows (mentionsExprs · es) → ∀ c ∈ lowerExprs es, c.Sound S
  | [], _, _, _, hc => by cases hc
  | e :: es, S, h, c, hc => by
    rcases List.mem_cons.mp hc with rfl | hc
    · exact sound_expr e S h.left
    · exact sound_exprs es S h.right c hc

theorem sound_optional : (o : Option (Expr ScopeId)) → (S : Setting) →
    S.Allows (mentionsOptional · o) → ∀ c ∈ lowerOptional o, c.Sound S
  | none, _, _, _, hc => by cases hc
  | some e, S, h, _, hc => by
    cases hc
    exact sound_expr e S h

theorem sound_optionals : (os : List (Option (Expr ScopeId))) → (S : Setting) →
    S.Allows (mentionsOptionals · os) → ∀ o ∈ lowerOptionals os, ∀ c ∈ o, c.Sound S
  | [], _, _, _, ho => by cases ho
  | o :: os, S, h, o', ho => by
    rcases List.mem_cons.mp ho with rfl | ho
    · exact sound_optional o S h.left
    · exact sound_optionals os S h.right o' ho

theorem sound_keywords : (keywords : List (Keyword (Expr ScopeId))) → (S : Setting) →
    S.Allows (mentionsKeywords · keywords) → ∀ k ∈ lowerKeywords keywords, k.value.Sound S
  | [], _, _, _, hk => by cases hk
  | ⟨name, value, loc⟩ :: keywords, S, h, k, hk => by
    rcases List.mem_cons.mp hk with rfl | hk
    · exact sound_expr value S h.left
    · exact sound_keywords keywords S h.right k hk

theorem sound_parameter : (p : Parameter (Expr ScopeId)) → (S : Setting) →
    S.Allows (mentionsParameter · p) → ∀ c ∈ (lowerParameter p).hint, c.Sound S
  | ⟨_, hint, _⟩, S, h => sound_optional hint S h

theorem sound_parameterList : (ps : List (Parameter (Expr ScopeId))) → (S : Setting) →
    S.Allows (mentionsParameterList · ps) →
    ∀ p ∈ lowerParameterList ps, ∀ c ∈ p.hint, c.Sound S
  | [], _, _, _, hp => by cases hp
  | p :: ps, S, h, p', hp => by
    rcases List.mem_cons.mp hp with rfl | hp
    · exact sound_parameter p S h.left
    · exact sound_parameterList ps S h.right p' hp

theorem sound_optionalParameter : (o : Option (Parameter (Expr ScopeId))) → (S : Setting) →
    S.Allows (mentionsOptionalParameter · o) →
    ∀ p ∈ lowerOptionalParameter o, ∀ c ∈ p.hint, c.Sound S
  | none, _, _, _, hp => by cases hp
  | some p, S, h, _, hp => by
    cases hp
    exact sound_parameter p S h

theorem sound_parameters : (params : Parameters (Expr ScopeId)) → (S : Setting) →
    S.Allows (mentionsParameters · params) → (lowerParameters params).Sound S
  | ⟨positionalOnly, positional, variadic, keywordOnly, keywordDefaults, keywordVariadic,
      defaults⟩, S, h => by
    have hhints : ∀ p ∈ (lowerParameters ⟨positionalOnly, positional, variadic, keywordOnly,
        keywordDefaults, keywordVariadic, defaults⟩).all, ∀ c ∈ p.hint, c.Sound S := by
      intro p hp
      simp only [Parameters.all, lowerParameters, List.mem_append, Option.mem_toList] at hp
      rcases hp with (((hp | hp) | hp) | hp) | hp
      · exact sound_parameterList positionalOnly S h.left p hp
      · exact sound_parameterList positional S h.right.left p hp
      · exact sound_parameterList keywordOnly S h.right.right.right.left p hp
      · exact sound_optionalParameter variadic S h.right.right.left p hp
      · exact sound_optionalParameter keywordVariadic S h.right.right.right.right.right.left p hp
    exact ⟨sound_exprs defaults S h.right.right.right.right.right.right,
      sound_optionals keywordDefaults S h.right.right.right.right.left, hhints⟩

theorem sound_generators : (generators : List (Generator (Expr ScopeId))) → (S : Setting) →
    S.Allows (mentionsGenerators · generators) →
    ∀ g ∈ lowerGenerators generators, g.Binds S ∧ g.iter.Sound S
  | [], _, _, _, hg => by cases hg
  | ⟨target, iter, conditions, isAsync⟩ :: generators, S, h, g, hg => by
    rcases List.mem_cons.mp hg with rfl | hg
    · exact ⟨⟨sound_expr target S h.left, sound_exprs conditions S h.right.right.left⟩,
        sound_expr iter S h.right.left⟩
    · exact sound_generators generators S h.right.right.right g hg

theorem sound_element : (element : Element (Expr ScopeId)) → (S : Setting) →
    S.Allows (mentionsElement · element) → (lowerElement element).Sound S
  | .list item, S, h => sound_expr item S h
  | .set item, S, h => sound_expr item S h
  | .dict key value, S, h => ⟨sound_expr key S h.left, sound_expr value S h.right⟩
  | .generator item, S, h => sound_expr item S h

end

end Bytecode
