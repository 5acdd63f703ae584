import Bytecode.Proofs.Lowering.Values

/-!
# Displays and calls

Displays and calls leave one value, however many items they put on the stack at once.
-/

namespace Bytecode

open List Gen

variable {S : Setting} {loc : Location} {items values args : List ExprCode} {n pushed : Nat}

/-! ### Sequences -/

namespace SequenceKind

variable (kind : SequenceKind) (arg : Nat)

theorem arity?_begin : kind.begin.plainArity? arg = some (arg, 1) := by cases kind <;> rfl

theorem arity?_build : kind.build.plainArity? arg = some (arg, 1) := by cases kind <;> rfl

theorem arity?_add : kind.add.plainArity? arg = some (1, 0) := by cases kind <;> rfl

theorem arity?_extend : kind.extend.plainArity? arg = some (1, 0) := by cases kind <;> rfl

theorem turns_finish : (kind.finish loc).Turns S 1 1 := by
  unfold finish
  split_ifs
  · exact turns_emit rfl
  · exact turns_pure _

end SequenceKind

theorem turns_addItem (kind : SequenceKind) {item : ExprCode} (h : item.Sound S) :
    (addItem kind loc item).Turns S 1 1 := by
  apply (h.loadUnderStar.above 1).seq
  split_ifs
  · exact (turns_emit (kind.arity?_extend 1)).above 1
  · exact (turns_emit (kind.arity?_add 1)).above 1

theorem turns_buildSequence (kind : SequenceKind) (h : ∀ c ∈ items, c.Sound S) :
    (buildSequence kind pushed items loc).Turns S pushed 1 := by
  unfold buildSequence
  cases foldedItems? kind items with
  | some folded =>
    dsimp only
    split_ifs with hnone
    · obtain ⟨-, rfl⟩ : kind = .tuple ∧ pushed = 0 := by simpa using hnone
      exact turns_emitConst _
    · apply (turns_emit (kind.arity?_begin pushed)).seq
      apply ((turns_emitConst _).above 1).seq
      apply ((turns_emit (kind.arity?_extend 1)).above 1).seq
      exact kind.turns_finish
  | none =>
    dsimp -zeta only
    extract_lets big atOnce
    by_cases hplain : (!big && !items.any (·.isStarred)) = true
    · rw [if_pos hplain]
      apply (turns_loadAll h).seq
      rw [Nat.add_comm items.length]
      exact turns_emit (kind.arity?_build _)
    · rw [if_neg hplain]
      -- The items that come first are put on the stack at once, and the others one by one.
      have hatOnce : ∀ c ∈ atOnce, c.Sound S := by
        unfold atOnce
        split_ifs
        · simp
        · exact fun c hc => h c (takeWhile_subset _ hc)
      apply (turns_loadAll hatOnce).seq
      rw [Nat.add_comm atOnce.length]
      apply (turns_emit (kind.arity?_begin _)).seq
      apply (turns_forM fun c hc => turns_addItem kind (h c (drop_subset _ _ hc))).seq
      exact kind.turns_finish

/-! ### Mappings -/

theorem turns_buildItems {items : List (KeyCode × ExprCode)}
    (h : ∀ x ∈ items, x.1.load.Turns S 0 1 ∧ x.2.Sound S) : (buildItems items loc).Turns S 0 1 := by
  unfold buildItems
  dsimp only
  split
  · have hvalues : ∀ c ∈ items.map (·.2), c.Sound S := by
      simpa using fun c key hx => (h (key, c) hx).2
    have hload := turns_loadAll (n := 0) hvalues
    rw [Nat.zero_add, length_map] at hload
    exact hload.seq (((turns_emitConst _).push _).seq (turns_emit rfl))
  · generalize decide (stackUseLimit < 2 * items.length) = big
    cases big
    all_goals simp only [Bool.not_true, Bool.not_false, Bool.false_eq_true, reduceIte]
    case true =>
      refine (turns_emit rfl).seq (Turns.seq (turns_forM fun x hx => ?_) (turns_pure ()))
      apply ((h x hx).1.push 1).seq
      apply ((h x hx).2.load.push 2).seq
      exact (turns_emit (n := 2) (k := 0) rfl).above 1
    case false =>
      have hpush : ∀ x ∈ items, (do
          x.1.load
          x.2.load
          pure () : Gen Unit).Turns S 0 2 := by
        intro x hx
        apply (h x hx).1.seq
        exact ((h x hx).2.load.push 1).seq (turns_pure ())
      have hall := turns_forM_push (n := 0) hpush
      rw [Nat.zero_add] at hall
      exact hall.seq (turns_emit rfl)

def MappingPart.Sound (S : Setting) : MappingPart → Prop
  | .items items => ∀ x ∈ items, x.1.load.Turns S 0 1 ∧ x.2.Sound S
  | .unpacked value => value.Sound S

theorem sound_itemsPart {items : List (KeyCode × ExprCode)}
    (h : ∀ x ∈ items, x.1.load.Turns S 0 1 ∧ x.2.Sound S) :
    ∀ part ∈ itemsPart items, part.Sound S := by
  unfold itemsPart
  split_ifs
  · simp
  · intro part hpart
    cases mem_singleton.mp hpart
    exact h

theorem sound_mappingParts {limit : Option Nat} {waiting : List (KeyCode × ExprCode)}
    {rest : List (Option KeyCode × ExprCode)}
    (hwaiting : ∀ x ∈ waiting, x.1.load.Turns S 0 1 ∧ x.2.Sound S)
    (hrest : ∀ x ∈ rest, (∀ key ∈ x.1, key.load.Turns S 0 1) ∧ x.2.Sound S) :
    ∀ part ∈ mappingParts limit waiting rest, part.Sound S := by
  induction rest generalizing waiting with
  | nil => exact sound_itemsPart hwaiting
  | cons x rest ih =>
    obtain ⟨⟨hkey, hvalue⟩, htail⟩ := forall_mem_cons.mp hrest
    obtain ⟨key, value⟩ := x
    cases key with
    | none =>
      intro part hpart
      rcases mem_append.mp hpart with hpart | hpart
      · exact sound_itemsPart hwaiting part hpart
      · rcases mem_cons.mp hpart with rfl | hpart
        · exact hvalue
        · exact ih (by simp) htail part hpart
    | some key =>
      have hnew : ∀ x ∈ waiting ++ [(key, value)], x.1.load.Turns S 0 1 ∧ x.2.Sound S := by
        intro x hx
        rcases mem_append.mp hx with hx | hx
        · exact hwaiting x hx
        · cases mem_singleton.mp hx
          exact ⟨hkey key rfl, hvalue⟩
      unfold mappingParts
      split_ifs
      · intro part hpart
        rcases mem_cons.mp hpart with rfl | hpart
        · exact hnew
        · exact ih (by simp) htail part hpart
      · exact ih hnew htail

theorem turns_mergePart {merge : Opcode} (hmerge : merge.plainArity? 1 = some (1, 0))
    {part : MappingPart} (h : part.Sound S) :
    (mergePart merge loc part).Turns S 1 1 := by
  have hadd : (emit merge 1 loc).Turns S 2 1 := (turns_emit hmerge).above 1
  cases part with
  | items items => exact ((turns_buildItems h).push 1).seq hadd
  | unpacked value => exact ((ExprCode.Sound.load h).push 1).seq hadd

theorem turns_buildMapping {merge : Opcode} (hmerge : merge.plainArity? 1 = some (1, 0))
    {parts : List MappingPart} (h : ∀ part ∈ parts, part.Sound S) :
    (buildMapping merge parts loc).Turns S 0 1 := by
  unfold buildMapping
  split
  · obtain ⟨hitems, hrest⟩ := forall_mem_cons.mp h
    apply (turns_buildItems hitems).seq
    exact turns_forM fun part hpart => turns_mergePart hmerge (hrest part hpart)
  · apply (turns_emit rfl).seq
    exact turns_forM fun part hpart => turns_mergePart hmerge (h part hpart)

theorem turns_loadDict {keys : List (Option ExprCode)} (hkeys : ∀ o ∈ keys, ∀ c ∈ o, c.Sound S)
    (hvalues : ∀ c ∈ values, c.Sound S) : (loadDict loc keys values).Turns S 0 1 := by
  have hmapping : ∀ x ∈ (keys.map (·.map fun k => KeyCode.mk k.constant? k.load)).zip values,
      (∀ key ∈ x.1, key.load.Turns S 0 1) ∧ x.2.Sound S := by
    rintro ⟨key, value⟩ hx
    obtain ⟨hkey, hvalue⟩ := of_mem_zip hx
    obtain ⟨o, ho, rfl⟩ := mem_map.mp hkey
    refine ⟨fun key hkey => ?_, hvalues value hvalue⟩
    obtain ⟨c, hc, rfl⟩ := Option.map_eq_some_iff.mp hkey
    exact (hkeys o ho c hc).load
  unfold loadDict
  split_ifs
  · exact (fails_fault _).bind.turns
  · exact turns_buildMapping rfl (sound_mappingParts (by simp) hmapping)

/-! ### Strings and slices -/

theorem turns_loadJoined (h : ∀ c ∈ values, c.Sound S) : (loadJoined loc values).Turns S 0 1 := by
  have hall := turns_loadAll (n := 0) h
  rw [Nat.zero_add] at hall
  unfold loadJoined
  split_ifs with hlimit hone
  · apply (turns_emitConst _).seq
    apply (turns_emitAttr _ true).seq
    apply ((turns_emit (n := 0) rfl).push 2).seq
    refine Turns.seq (turns_forM (n := 3) fun c hc => ?_) (turns_emit rfl)
    exact ((h c hc).load.push 3).seq ((turns_emit (n := 1) (k := 0) rfl).above 3)
  · exact hall.seq (turns_emit rfl)
  · rw [not_not] at hone
    rw [hone] at hall
    exact hall.seq (turns_pure ())

theorem turns_loadFormatted {value : ExprCode} (hvalue : value.Sound S) (conversion : Conversion)
    {spec : Option ExprCode} (hspec : ∀ c ∈ spec, c.Sound S) :
    (loadFormatted loc value conversion spec).Turns S 0 1 := by
  apply hvalue.load.seq
  cases spec with
  | none =>
    apply (turns_pure ()).seq
    cases conversion <;> exact turns_emit rfl
  | some c =>
    apply ((hspec c rfl).load.push 1).seq
    show (emit .formatValue (conversion.code + 4) loc).Turns S 2 1
    cases conversion <;> exact turns_emit rfl

theorem turns_loadSlice {lower upper step : Option ExprCode} (hlower : ∀ c ∈ lower, c.Sound S)
    (hupper : ∀ c ∈ upper, c.Sound S) (hstep : ∀ c ∈ step, c.Sound S) :
    (loadSlice loc lower upper step).Turns S 0 1 := by
  apply (turns_loadOptional hlower).seq
  apply ((turns_loadOptional hupper).push 1).seq
  cases step with
  | none => exact (turns_pure ()).seq (turns_emit rfl)
  | some c => exact ((hstep c rfl).load.push 2).seq (turns_emit rfl)

/-! ### Calls -/

section

variable {func : ExprCode} {keywords : List (Keyword ExprCode)}

theorem still_checkKeywords (seen : List String) (keywords : List (Keyword ExprCode)) :
    (checkKeywords seen keywords).Still S fun _ _ _ => True := by
  induction keywords generalizing seen with
  | nil => exact .pure _
  | cons k rest ih =>
    obtain ⟨name, value, loc⟩ := k
    cases name with
    | none => exact ih seen
    | some name =>
      unfold checkKeywords
      split_ifs
      · exact (fails_refuse _ _).still
      · exact (fails_refuse _ _).still
      · exact ih _

theorem still_warnCaller : (warnCaller func).Still S fun _ _ _ => True := by
  unfold warnCaller
  split
  · split_ifs
    · exact still_warn _ _
    · exact .pure _
  · exact .pure _

theorem still_calledMember? : (calledMember? func).Still S fun _ _ _ => True := by
  unfold calledMember?
  split
  · exact (still_isImported _).andThen fun _ => .pure _
  · exact .pure _
  · exact .pure _

theorem turns_loadArguments (hargs : ∀ c ∈ args, c.Sound S)
    (hkeywords : ∀ k ∈ keywords, k.value.Sound S) :
    (loadArguments args keywords loc).Turns S n (n + args.length + keywords.length) := by
  have hvalues : ∀ c ∈ keywords.map (·.value), c.Sound S := by simpa using hkeywords
  have hload := turns_loadAll (n := n + args.length) hvalues
  rw [length_map] at hload
  apply (turns_loadAll hargs).seq
  split_ifs with hempty
  · apply hload.seq
    exact (still_constantIndex _).turns.bind fun _ => (turns_emit (n := 0) (k := 0) rfl).push _
  · have hnil : keywords = [] := by simpa using hempty
    rw [hnil]
    exact turns_pure ()

theorem sound_keywordItems (h : ∀ k ∈ keywords, k.value.Sound S) :
    ∀ x ∈ keywordItems keywords loc, (∀ key ∈ x.1, key.load.Turns S 0 1) ∧ x.2.Sound S := by
  intro x hx
  obtain ⟨k, hk, rfl⟩ := mem_map.mp hx
  refine ⟨fun key hkey => ?_, h k hk⟩
  obtain ⟨name, -, rfl⟩ := Option.map_eq_some_iff.mp hkey
  exact turns_emitConst _

/-- The callable and the mark below it are on the stack, below the arguments that are there
already. -/
theorem turns_callWith (hargs : ∀ c ∈ args, c.Sound S)
    (hkeywords : ∀ k ∈ keywords, k.value.Sound S) :
    (callWith pushed args keywords loc).Turns S (pushed + 2) 1 := by
  have hsequence : (buildSequence .tuple pushed args loc).Turns S (pushed + 2) 3 :=
    (turns_buildSequence .tuple hargs).above 2
  unfold callWith
  apply (still_checkKeywords [] keywords).turns.seq
  by_cases hplain : (arePlain args keywords &&
      decide (args.length + 2 * keywords.length ≤ stackUseLimit)) = true
  · rw [if_pos hplain]
    apply (turns_loadArguments hargs hkeywords).seq
    refine turns_emit ?_
    have hcount : pushed + args.length + keywords.length + 2 =
        pushed + 2 + args.length + keywords.length := by omega
    exact congrArg (fun n => some (n, 1)) hcount
  · rw [if_neg hplain]
    extract_lets rest
    have hcall (u : PUnit) : (rest u).Turns S 3 1 := by
      unfold rest
      split_ifs
      · exact turns_emit rfl
      · refine ((turns_buildMapping rfl (sound_mappingParts (by simp) ?_)).push 3).seq ?_
        · exact sound_keywordItems hkeywords
        · exact turns_emit rfl
    split
    · split
      · exact ((hargs _ (mem_singleton_self _)).loadUnderStar.push 2).bind hcall
      · exact hsequence.bind hcall
    · exact hsequence.bind hcall

theorem turns_loadCall (hfunc : func.Sound S) (hargs : ∀ c ∈ args, c.Sound S)
    (hkeywords : ∀ k ∈ keywords, k.value.Sound S) :
    (loadCall loc func args keywords).Turns S 0 1 := by
  unfold loadCall
  apply (still_checkKeywords [] keywords).turns.seq
  refine still_calledMember?.turns.bind fun attr? => ?_
  split
  · rename_i loadMethod attr hmethod hattr
    apply (hfunc.loadMethod _ hmethod).seq
    apply (turns_loadArguments hargs hkeywords).seq
    refine turns_emit ?_
    have hcount : args.length + keywords.length + 2 = 2 + args.length + keywords.length := by omega
    exact congrArg (fun n => some (n, 1)) hcount
  · apply still_warnCaller.turns.seq
    apply (turns_emit rfl).seq
    apply (hfunc.load.push 1).seq
    exact turns_callWith hargs hkeywords

end

end Bytecode
