import Bytecode.Proofs.Lowering.Statements

/-!
# Warnings as errors

Two compilations that differ only in whether warnings are errors go in lockstep up to the first
warning. Where there is none they end alike, and where there is one it is the error.
-/

namespace Bytecode

/-- A result after some warnings, where warnings are errors: the first one stops it. -/
def escalate {α : Type} (a : α) : List Warning → Result α
  | [] => .ok a
  | w :: _ => .error w.toError

theorem Result.bind_congr_left {α β : Type} {r r' : Result α} {f : α → Result β} (h : r = r') :
    r >>= f = r' >>= f :=
  congrArg (· >>= f) h

namespace Gen

variable {α β : Type} {m : Gen α} {f : α → Gen β}

/-! ### Generators that do not warn -/

/-- The generator does not warn, and does not care whether warnings are errors. -/
structure Calm (m : Gen α) : Prop where
  same : ∀ c s b, m (c.escalated b) s = m c s
  silent : ∀ c s a s', m c s = .ok (a, s') → s'.warnings = s.warnings

theorem Calm.bind (hm : m.Calm) (hf : ∀ a, (f a).Calm) : (m >>= f).Calm where
  same c s b := by
    show (m (c.escalated b) s).bind (fun p => f p.1 (c.escalated b) p.2) =
      (m c s).bind fun p => f p.1 c p.2
    rw [hm.same]
    exact congrArg _ (funext fun p => (hf p.1).same c p.2 b)
  silent c s b s' h := by
    obtain ⟨a, t, hm', hf'⟩ := bind_eq_ok.mp h
    exact ((hf a).silent _ _ _ _ hf').trans (hm.silent _ _ _ _ hm')

/-- A generator that makes a value, and perhaps a change that leaves the warnings alone. -/
theorem Calm.of_ok {g : GenContext → GenState → α} {t : GenState → GenState}
    (hg : ∀ c s b, g (c.escalated b) s = g c s) (ht : ∀ s, (t s).warnings = s.warnings)
    (hm : ∀ c s, m c s = .ok (g c s, t s)) : m.Calm where
  same c s b := by rw [hm, hm, hg]
  silent c s a s' h := by
    obtain ⟨-, rfl⟩ := Prod.mk.inj (Except.ok.inj ((hm c s).symm.trans h))
    exact ht s

theorem Calm.of_error {e : GenContext → CompileError} (he : ∀ c b, e (c.escalated b) = e c)
    (hm : ∀ c s, m c s = .error (e c)) : m.Calm where
  same c s b := by rw [hm, hm, he]
  silent c s a s' h := by cases (hm c s).symm.trans h

theorem Calm.pure (a : α) : (Pure.pure a : Gen α).Calm :=
  .of_ok (g := fun _ _ => a) (fun _ _ _ => rfl) (fun _ => rfl) fun _ _ => rfl

variable (name : String) (loc : Location)

theorem calm_fault (e : Fault) : (fault e : Gen α).Calm :=
  .of_error (e := fun _ => .internal e) (fun _ _ => rfl) fun _ _ => rfl

theorem calm_exceed (l : Limit) : (exceed l : Gen α).Calm :=
  .of_error (e := fun _ => .limit l) (fun _ _ => rfl) fun _ _ => rfl

theorem calm_refuse (e : SourceFault) : (refuse e loc : Gen α).Calm :=
  .of_error (e := fun c => .source e c.options.file loc) (fun _ _ => rfl) fun _ _ => rfl

theorem calm_read {f : GenContext → Gen α} (hf : ∀ c, (f c).Calm)
    (hc : ∀ c b, f (c.escalated b) = f c) : (read >>= f : Gen α).Calm where
  same c s b := by
    show f (c.escalated b) (c.escalated b) s = f c c s
    rw [hc, (hf c).same]
  silent c s a s' h := (hf c).silent c s a s' h

theorem calm_ask {f : GenContext → α} (hf : ∀ c b, f (c.escalated b) = f c) :
    (read >>= fun c => Pure.pure (f c) : Gen α).Calm :=
  calm_read (fun _ => .pure _) fun c b => congrArg _ (hf c b)

theorem calm_info : info.Calm :=
  calm_ask fun _ _ => rfl

theorem calm_get : (get : Gen GenState).Calm :=
  .of_ok (g := fun _ s => s) (fun _ _ _ => rfl) (fun _ => rfl) fun _ _ => rfl

theorem calm_lift (r : Result α) : (liftM r : Gen α).Calm := by
  cases r with
  | ok a => exact .of_ok (g := fun _ _ => a) (fun _ _ _ => rfl) (fun _ => rfl) fun _ _ => rfl
  | error e => exact .of_error (e := fun _ => e) (fun _ _ => rfl) fun _ _ => rfl

theorem calm_modifyUnit (f : UnitState → UnitState) : (modifyUnit f).Calm :=
  .of_ok (g := fun _ _ => ()) (t := fun s => { s with unit := f s.unit }) (fun _ _ _ => rfl)
    (fun _ => rfl) fun _ _ => rfl

theorem calm_editGraph (f : Graph → Result Graph) : (editGraph f).Calm :=
  calm_get.bind fun _ => (calm_lift _).bind fun _ => calm_modifyUnit _

theorem calm_newLabel : newLabel.Calm :=
  calm_get.bind fun _ => (calm_modifyUnit _).bind fun _ => .pure _

theorem calm_constantIndex (c : Constant) : (constantIndex c).Calm :=
  calm_get.bind fun _ => (calm_modifyUnit _).bind fun _ => .pure _

theorem calm_nameIndex : (nameIndex name).Calm :=
  calm_get.bind fun _ => (calm_modifyUnit _).bind fun _ => .pure _

theorem calm_localIndex : (localIndex name).Calm :=
  calm_get.bind fun _ => (calm_modifyUnit _).bind fun _ => .pure _

theorem calm_cellIndex : (cellIndex name).Calm := by
  refine calm_info.bind fun u => ?_
  split
  · exact .pure _
  · exact calm_fault _

theorem calm_addCode (code : CodeObject) : (addCode code).Calm :=
  .of_ok (g := fun _ s => .code s.codes.size code.name)
    (t := fun s => { s with codes := s.codes.push code }) (fun _ _ _ => rfl) (fun _ => rfl)
    fun _ _ => rfl

theorem calm_childUnit (scope : ScopeId) (kind : UnitKind) (line : Int) :
    (childUnit scope kind name line).Calm := by
  refine calm_read (fun c => ?_) fun _ _ => rfl
  split
  · exact calm_fault _
  · exact calm_info.bind fun _ => calm_ask fun _ _ => rfl

theorem calm_stripsAsserts : stripsAsserts.Calm :=
  calm_ask fun _ _ => rfl

theorem calm_mangled : (mangled name).Calm :=
  calm_info.bind fun _ => .pure _

theorem calm_emit (op : Opcode) (arg : Nat) : (emit op arg loc).Calm :=
  calm_editGraph _

theorem calm_emitConst (c : Constant) : (emitConst c loc).Calm :=
  (calm_constantIndex c).bind fun _ => calm_emit _ _ _

theorem calm_emitName (op : Opcode) : (emitName op name loc).Calm :=
  (calm_nameIndex name).bind fun _ => calm_emit _ _ _

theorem calm_loadName : (loadName name loc).Calm := by
  unfold loadName
  split
  · exact calm_stripsAsserts.bind fun _ => calm_emitConst _ _
  · refine (calm_mangled name).bind fun full => calm_info.bind fun u => ?_
    split
    · exact (calm_localIndex _).bind fun _ => calm_emit _ _ _
    · exact (calm_nameIndex _).bind fun _ => calm_emit _ _ _
    · exact (calm_info.bind fun _ => .pure _).bind fun _ =>
        (calm_cellIndex _).bind fun _ => calm_emit _ _ _
    · exact calm_emitName _ _ _

theorem calm_changeName (use : TargetUse) : (changeName use name loc).Calm := by
  unfold changeName
  split
  · exact calm_refuse _ _
  · refine (calm_mangled name).bind fun full => calm_info.bind fun u => ?_
    split
    · exact (calm_localIndex _).bind fun _ => calm_emit _ _ _
    · exact calm_emitName _ _ _
    · exact (calm_cellIndex _).bind fun _ => calm_emit _ _ _
    · exact calm_emitName _ _ _

theorem calm_convertStop : convertStop.Calm :=
  calm_newLabel.bind fun _ => (calm_editGraph _).bind fun _ => (calm_emitConst _ _).bind fun _ =>
    (calm_emit _ _ _).bind fun _ => (calm_editGraph _).bind fun _ =>
    (calm_emit _ _ _).bind fun _ => calm_emit _ _ _

theorem calm_frame : frame.Calm where
  same _ _ _ := rfl
  silent _ _ _ _ h := by
    cases h
    rfl

theorem calm_assembleUnit : assembleUnit.Calm :=
  calm_frame.bind fun _ => calm_get.bind fun _ =>
    calm_read (fun _ => (calm_lift _).bind fun _ => calm_lift _) fun _ _ => rfl

/-! ### Lockstep -/

/-- The generator runs as it does without escalation up to its first warning. The results without
escalation are as `post` says. -/
structure Lockstep (m : Gen α) (c : GenContext) (post : α → Prop) : Prop where
  ok : ∀ s a s', m (c.escalated false) s = .ok (a, s') → post a ∧
    ∃ ws, s'.warnings = s.warnings ++ ws ∧ m (c.escalated true) s = escalate (a, s') ws
  error : ∀ s e, m (c.escalated false) s = .error e → m (c.escalated true) s = .error e ∨
    ∃ w : Warning, m (c.escalated true) s = .error w.toError

variable {c : GenContext} {post : α → Prop} {post' : β → Prop}

theorem Calm.lockstep (hm : m.Calm)
    (h : ∀ s a s', m (c.escalated false) s = .ok (a, s') → post a) : m.Lockstep c post where
  ok s a s' hrun := by
    refine ⟨h s a s' hrun, [], ?_, ?_⟩
    · rw [hm.silent _ _ _ _ hrun, List.append_nil]
    · rw [hm.same] at hrun ⊢
      exact hrun
  error s e hrun := by
    rw [hm.same] at hrun ⊢
    exact .inl hrun

theorem Calm.goes (hm : m.Calm) : m.Lockstep c fun _ => True :=
  hm.lockstep fun _ _ _ _ => trivial

theorem bind_of_ok {s t : GenState} {a : α} (h : m c s = .ok (a, t)) : (m >>= f) c s = f a c t := by
  show (m c s).bind (fun p => f p.1 c p.2) = _
  rw [h]
  rfl

theorem bind_of_error {s : GenState} {e : CompileError} (h : m c s = .error e) :
    (m >>= f) c s = .error e := by
  show (m c s).bind (fun p => f p.1 c p.2) = _
  rw [h]
  rfl

theorem Lockstep.bind (hm : m.Lockstep c post) (hf : ∀ a, post a → (f a).Lockstep c post') :
    (m >>= f).Lockstep c post' where
  ok s b s' hrun := by
    obtain ⟨a, t, hm', hf'⟩ := bind_eq_ok.mp hrun
    obtain ⟨ha, ws, hws, hm''⟩ := hm.ok s a t hm'
    obtain ⟨hb, vs, hvs, hf''⟩ := (hf a ha).ok t b s' hf'
    refine ⟨hb, ws ++ vs, by rw [hvs, hws, List.append_assoc], ?_⟩
    cases ws with
    | nil => exact (bind_of_ok hm'').trans hf''
    | cons w ws => exact bind_of_error hm''
  error s e hrun := by
    rcases bind_eq_error hrun with hrun | ⟨a, t, hm', hf'⟩
    · rcases hm.error s e hrun with hsame | ⟨w, hw⟩
      · exact .inl (bind_of_error hsame)
      · exact .inr ⟨w, bind_of_error hw⟩
    · obtain ⟨ha, ws, hws, hm''⟩ := hm.ok s a t hm'
      cases ws with
      | nil =>
        rw [bind_of_ok hm'']
        exact (hf a ha).error t e hf'
      | cons w ws => exact .inr ⟨w, bind_of_error hm''⟩

theorem lockstep_warn (caution : Caution) :
    (warn caution loc).Lockstep c fun _ => True where
  ok s a s' hrun := by
    cases hrun
    exact ⟨trivial, [⟨caution, c.options.file, loc⟩], rfl, rfl⟩
  error s e hrun := by cases hrun

theorem lockstep_unitCode {start : Location} {body : Gen Unit}
    (h : body.Lockstep c fun _ => True) : (unitCode start body).Lockstep c fun _ => True := by
  refine (calm_emit _ _ _).goes.bind fun _ _ => h.bind fun _ _ => Calm.goes ?_
  refine calm_info.bind fun u => ?_
  extract_lets finish
  have hend : (finish ()).Calm := (calm_emitConst _ _).bind fun _ => calm_emit _ _ _
  split
  · exact calm_convertStop.bind fun _ => hend
  · exact hend

theorem lockstep_inUnit {u : UnitInfo} {body : Gen Unit}
    (h : body.Lockstep { c with unit := u } fun _ => True) :
    (inUnit u body).Lockstep c fun _ => True := by
  have hunit : (do unitCode (.atLine u.firstLine) body; assembleUnit :
      Gen CodeObject).Lockstep { c with unit := u } fun _ => True :=
    (lockstep_unitCode h).bind fun _ _ => calm_assembleUnit.goes
  constructor
  case ok =>
    intro s a s' hrun
    rw [inUnit_apply] at hrun ⊢
    obtain ⟨⟨code, t⟩, hcode, hret⟩ := Result.bind_eq_ok.mp hrun
    cases hret
    obtain ⟨-, ws, hws, hagain⟩ := hunit.ok _ _ _ hcode
    refine ⟨trivial, ws, hws, ?_⟩
    cases ws <;> exact Result.bind_congr_left hagain
  case error =>
    intro s e hrun
    rw [inUnit_apply] at hrun ⊢
    rcases Result.bind_eq_error.mp hrun with hcode | ⟨_, _, hret⟩
    · rcases hunit.error _ _ hcode with hsame | ⟨w, hw⟩
      · exact .inl (Result.bind_congr_left hsame)
      · exact .inr ⟨w, Result.bind_congr_left hw⟩
    · cases hret

/-- Without mentions or code objects to account for, every site is in lockstep. -/
theorem Composed.lockstep {scopes : ScopeViews} {here : Spot}
    (h : m.Composed ⟨scopes, fun _ => True, fun _ => True⟩ here post) (howns : ∀ l, here.owns l)
    (hc : here.Met scopes c) : m.Lockstep c post := by
  induction h generalizing c with
  | pure h => exact (Calm.pure _).lockstep fun _ _ _ hrun => by cases hrun; exact h
  | bind _ _ ihm ihf => exact (ihm howns hc).bind fun a ha => ihf a ha howns hc
  | weaken _ h ih =>
    have hm := ih howns hc
    exact ⟨fun s a s' hrun => ⟨h a (hm.ok s a s' hrun).1, (hm.ok s a s' hrun).2⟩, hm.error⟩
  | fault => exact (calm_fault _).lockstep fun _ _ _ hrun => by cases hrun
  | exceed => exact (calm_exceed _).lockstep fun _ _ _ hrun => by cases hrun
  | refuse => exact (calm_refuse _ _).lockstep fun _ _ _ hrun => by cases hrun
  | warn => exact lockstep_warn _ _
  | ask hf =>
    refine (calm_ask hf).lockstep fun s a s' hrun => ⟨c.escalated false, hc.unit, ?_⟩
    cases hrun
    rfl
  | newLabel => exact calm_newLabel.lockstep fun _ l _ _ => howns l
  | bindLabel | emit | emitPseudo | emitJump =>
    exact (calm_editGraph _).goes
  | constantIndex => exact (calm_constantIndex _).goes
  | nameIndex => exact (calm_nameIndex _).goes
  | cellIndex => exact (calm_cellIndex _).goes
  | loadName => exact (calm_loadName _ _).goes
  | changeName => exact (calm_changeName _ _ _).goes
  | loadArgument => exact (calm_emit _ _ _).goes
  | childUnit hclass =>
    refine (calm_childUnit _ _ _ _).lockstep fun s u s' hrun => ?_
    rw [(calm_childUnit _ _ _ _).same] at hrun
    exact (childUnit_eq_ok hc hclass hrun).2
  | inUnit hu _ _ ih => exact lockstep_inUnit (ih (fun _ => trivial) ⟨hu, hc.scopes⟩)
  | addCode => exact (calm_addCode _).goes

end Gen

/-! ### Modules -/

open Gen

/-- Without escalation the compilation of a module goes as with it up to the first warning. -/
theorem ScopedModule.lockstep_compile (options : CompileOptions) (m : ScopedModule) :
    (do lowerModule m.body; assembleUnit : Gen CodeObject).Lockstep
      ⟨options, m.scopes, moduleUnit options m.scopes⟩ fun _ => True := by
  have hbody := (composes_lowerBody (T := ⟨m.scopes, fun _ => True, fun _ => True⟩) m.body
    fun _ _ => trivial).lockstep (fun _ => trivial) (met_module options m.scopes)
  exact (lockstep_unitCode hbody).bind fun _ _ => calm_assembleUnit.goes

def CompiledModule.ofRun (r : CodeObject × GenState) : CompiledModule :=
  ⟨r.1, r.2.codes, r.2.warnings⟩

theorem ScopedModule.compile_eq (options : CompileOptions) (m : ScopedModule) :
    m.compile options = (do lowerModule m.body; assembleUnit : Gen CodeObject)
      ⟨options, m.scopes, moduleUnit options m.scopes⟩ {} >>= fun r => pure (.ofRun r) :=
  rfl

theorem ScopedModule.compile_escalated_ok {options : CompileOptions} {m : ScopedModule}
    {r : CompiledModule}
    (h : m.compile { options with warningsAsErrors := false } = .ok r) :
    m.compile { options with warningsAsErrors := true } = escalate r r.warnings := by
  rw [compile_eq] at h ⊢
  obtain ⟨⟨code, s⟩, hrun, hret⟩ := Result.bind_eq_ok.mp h
  cases hret
  obtain ⟨-, ws, hws, hagain⟩ := (lockstep_compile options m).ok _ _ _ hrun
  have hwarnings : (CompiledModule.ofRun (code, s)).warnings = ws := hws
  rw [hwarnings]
  cases ws <;> exact Result.bind_congr_left hagain

theorem ScopedModule.compile_escalated_error {options : CompileOptions} {m : ScopedModule}
    {e : CompileError}
    (h : m.compile { options with warningsAsErrors := false } = .error e) :
    m.compile { options with warningsAsErrors := true } = .error e ∨
      ∃ w : Warning, m.compile { options with warningsAsErrors := true } = .error w.toError := by
  rw [compile_eq] at h ⊢
  rcases Result.bind_eq_error.mp h with hrun | ⟨_, _, hret⟩
  · rcases (lockstep_compile options m).error _ _ hrun with hsame | ⟨w, hw⟩
    · exact .inl (Result.bind_congr_left hsame)
    · exact .inr ⟨w, Result.bind_congr_left hw⟩
  · cases hret

/-- Compilations that differ only in whether warnings are errors. Without a warning they make the
same module, and else the first warning is the error. One that fails without escalation fails with
it, in the same way or by a warning. -/
theorem compile_escalated (options : CompileOptions) (body : Body Unit) :
    match compile { options with warningsAsErrors := false } body with
    | .ok m =>
      compile { options with warningsAsErrors := true } body =
        match m.warnings with
        | [] => .ok m
        | w :: _ => .error (.caution w.caution w.file w.location)
    | .error e =>
      compile { options with warningsAsErrors := true } body = .error e ∨
        ∃ w : Warning, compile { options with warningsAsErrors := true } body =
          .error (.caution w.caution w.file w.location) := by
  have hcompile : ∀ b, compile { options with warningsAsErrors := b } body =
      ScopedModule.ofBody options.file body >>=
        fun m => m.compile { options with warningsAsErrors := b } := fun _ => rfl
  rw [hcompile, hcompile]
  cases ScopedModule.ofBody options.file body with
  | error e => exact .inl rfl
  | ok source =>
    show match source.compile { options with warningsAsErrors := false } with
      | .ok m => source.compile { options with warningsAsErrors := true } = _
      | .error e => _
    split
    next m hm =>
      refine (source.compile_escalated_ok hm).trans ?_
      cases m.warnings <;> rfl
    next e he => exact source.compile_escalated_error he

end Bytecode
