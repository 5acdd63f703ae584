import Bytecode.Proofs.Lowering.Instructions

/-!
# Names and suspension

What the instructions around names, and those around the points of suspension, take and leave.
-/

namespace Bytecode.Gen

variable {S : Setting} {n k b : Nat} {H : List OpenHandler} {K : List (Label × Shape)}
  {U : List Label} {loc : Location} {op : Opcode} {name : String}

/-! ### Tables -/

theorem turns_emitConst (c : Constant) : (emitConst c loc).Turns S 0 1 :=
  (still_constantIndex c).turns.bind fun _ => turns_emit rfl

theorem turns_emitNone : (emitNone loc).Turns S 0 1 := turns_emitConst _

theorem turns_emitName (h : ∀ arg, op.arity? arg = some (n, k)) (hop : S.Permits op) :
    (emitName op name loc).Turns S n k :=
  (still_nameIndex name).turns.bind fun _ => turns_permitted (h _) hop

theorem turns_emitFullName (h : ∀ arg, op.plainArity? arg = some (n, k)) :
    (emitFullName op name loc).Turns S n k :=
  (still_mangled name).turns.bind fun _ => (still_nameIndex _).turns.bind fun _ => turns_emit (h _)

theorem turns_emitAttr (attr : String) (asMethod : Bool) :
    (emitAttr attr asMethod loc).Turns S 1 (if asMethod then 2 else 1) := by
  refine (still_mangled attr).turns.bind fun full => ?_
  refine (still_nameIndex full).turns.bind fun i => turns_emit ?_
  show some (1, 1 + (2 * i + if asMethod then 1 else 0) % 2) = _
  split_ifs <;> simp [Nat.add_mod]

/-! ### Names -/

theorem turns_loadName (h : S.Names name) : (loadName name loc).Turns S 0 1 := by
  cases S with
  | composed T here => exact fun _ _ _ _ _ => .of_composes (.loadName h)
  | shaped =>
    unfold loadName
    split_ifs
    · exact still_stripsAsserts.turns.bind fun _ => turns_emitConst _
    · refine (still_mangled name).turns.bind fun full => still_info.turns.bind fun u => ?_
      cases u.access full with
      | slot => exact (still_localIndex full).turns.bind fun _ => turns_permitted rfl trivial
      | global =>
        refine (still_nameIndex full).turns.bind fun i => turns_permitted ?_ trivial
        show some (0, 1 + 2 * i % 2) = _
        simp
      | cell =>
        refine still_kind.turns.bind fun kind => (still_cellIndex full).turns.bind fun _ => ?_
        split_ifs <;> exact turns_permitted rfl trivial
      | named => exact turns_emitName (fun _ => rfl) trivial

/-- What is taken from the stack when a target is used. -/
def operands : TargetUse → Nat
  | .store => 1
  | .delete => 0

theorem turns_changeName (use : TargetUse) (h : S.Names name) :
    (changeName use name loc).Turns S (operands use) 0 := by
  cases S with
  | composed T here => exact fun _ _ _ _ _ => .of_composes (.changeName h)
  | shaped =>
    have harity : ∀ access arg, (change use access).arity? arg = some (operands use, 0) := by
      intro access arg
      cases use <;> cases access <;> rfl
    unfold changeName
    split_ifs
    · exact (fails_refuse _ _).turns
    · refine (still_mangled name).turns.bind fun full => still_info.turns.bind fun u => ?_
      cases u.access full with
      | slot =>
        exact (still_localIndex full).turns.bind fun _ => turns_permitted (harity _ _) trivial
      | cell =>
        exact (still_cellIndex full).turns.bind fun _ => turns_permitted (harity _ _) trivial
      | global | named => exact turns_emitName (harity _) trivial

theorem turns_storeName (h : S.Names name) : (storeName name loc).Turns S 1 0 :=
  turns_changeName .store h

theorem turns_deleteName (h : S.Names name) : (deleteName name loc).Turns S 0 0 :=
  turns_changeName .delete h

theorem turns_unbindName (h : S.Names name) : (unbindName name loc).Turns S 0 0 :=
  turns_emitNone.seq ((turns_storeName h).seq (turns_deleteName h))

/-! ### Suspension -/

theorem turns_emitYield : (emitYield loc).Turns S 1 1 := by
  refine still_info.turns.bind fun u => ?_
  extract_lets rest
  have hrest (v : PUnit) : (rest v).Turns S 1 1 :=
    (turns_emit rfl).seq ((turns_emit (n := 0) rfl).above 1)
  split_ifs
  · exact (turns_emit rfl).bind hrest
  · exact hrest ()

theorem turns_sendLoop (resume : Nat) : (sendLoop resume loc).Turns S 2 1 := by
  intro b H K U hb
  have hb₂ : lowest H ≤ b + 2 := Nat.le_add_right_of_le hb
  apply Leads.label ⟨b + 2, H⟩
  intro send hsend
  apply Leads.label ⟨b + 3, H⟩
  intro fail hfail
  apply Leads.label ⟨b + 2, H⟩
  intro exit hexit
  apply (leads_bindLabel hsend (exit :: fail :: U)).seq
  apply (leads_jump rfl hb fun _ => rfl).seq
  apply (leads_setupFinally hb₂).seq
  -- The value that is yielded is one that the handler counts on.
  apply (leads_emit (b := b + 1) (n := 1) rfl (by simp)).seq
  apply (leads_popBlock).seq
  apply ((turns_emit (n := 0) rfl).leads hb₂).seq
  apply (leads_leap ⟨b + 3, H⟩ hb₂).seq
  apply (leads_bindLabel hfail (exit :: U)).seq
  apply ((turns_emit rfl).leads hb).seq
  apply (leads_bindFirst hexit).seq
  exact (turns_emit rfl).leads hb

theorem turns_delegate : (delegate loc).Turns S 1 1 :=
  (turns_emitNone.above 1).seq (turns_sendLoop 2)

theorem turns_awaitTop : (awaitTop loc).Turns S 1 1 :=
  (turns_emitNone.above 1).seq (turns_sendLoop 3)

theorem turns_awaitValue (source : Nat) : (awaitValue source loc).Turns S 1 1 :=
  (turns_emit rfl).seq turns_awaitTop

theorem leads_awaitNext {atEnd : Label} (hb : lowest H ≤ b)
    (hl : (atEnd, ⟨b + 2, H⟩) ∈ K := by simp) :
    (awaitNext atEnd loc).Leads S ⟨⟨b + 1, H⟩, K, U⟩ ⟨⟨b + 2, H⟩, K, U⟩ := by
  apply (leads_setupFinally (Nat.le_add_right_of_le hb) (by simpa using hl)).seq
  apply (leads_emit (n := 1) (k := 2) rfl (by simp)).seq
  apply (turns_awaitTop.leads (by simp)).seq
  exact leads_popBlock (Nat.le_succ _)

end Bytecode.Gen
