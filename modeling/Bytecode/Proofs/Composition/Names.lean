import Bytecode.Proofs.Assembly.Operations
import Bytecode.Proofs.Lowering.Statements
import Bytecode.Proofs.Scope.Supply

/-!
# Names of functions

The walk that finds the scopes of a module and the lowering of the module agree: every scope that a
node opens is there, and every name that the code of a function accesses has an entry in the scope
of that function. So no function looks a name up in a namespace.
-/

namespace Bytecode

open List ScopedModule Operation

variable {code : CodeObject} {source : ScopedModule} {name : String} {s : GenState}

def Operation.isVariable : Operation → Bool
  | .real op => op.isVariable
  | .pseudo _ => false

/-- Whether the operation has no place in a function: it looks a name up in a namespace, or extends
an operand. -/
def Operation.isForeign : Operation → Bool
  | .real .loadName | .real .storeName | .real .deleteName | .real .extendedArg => true
  | _ => false

namespace Operation

variable {op : Operation}

theorem isForeign_of_isIntroduced (h : op.isIntroduced) : op.isForeign = false := by
  unfold isForeign
  split <;> first | rfl | cases h

theorem isForeign_of_hasTarget (h : op.hasTarget) : op.isForeign = false := by
  unfold isForeign
  split <;> first | rfl | cases h

theorem isVariable_of_hasTarget (h : op.hasTarget) : op.isVariable = false := by
  cases op with
  | pseudo op => rfl
  | real op =>
    show op.isVariable = false
    unfold Opcode.isVariable
    split <;> first | rfl | cases h

end Operation

namespace Graph.Draft

variable {g k : Graph} {i j : Instr} {l : Label} {id : BlockId}

theorem mem_instrs_addInstr (hg : g.Draft) (hj : j ∈ ((g.addInstr i).block id).instrs) :
    j = i ∨ j ∈ (g.block id).instrs := by
  have hopen : ∀ h : Graph, (∀ id, (h.block id).instrs = (g.block id).instrs) →
      j ∈ ((h.modify h.current fun b => { b with instrs := b.instrs ++ [i] }).block id).instrs →
      j = i ∨ j ∈ (g.block id).instrs := by
    intro h hsame hj
    rw [block_modify] at hj
    split at hj
    · rcases mem_append.mp hj with hj | hj
      · exact .inr (hsame id ▸ hj)
      · exact .inl (mem_singleton.mp hj)
    · exact .inr (hsame id ▸ hj)
  unfold Graph.addInstr at hj
  split at hj
  · exact hopen _ hg.instrs_appendBlock hj
  · exact hopen _ (fun _ => rfl) hj

theorem instrs_bindLabel (hg : g.Draft) (h : g.bindLabel l = .ok k) :
    (k.block id).instrs = (g.block id).instrs := by
  have hname : ∀ {h : Graph}, h.Draft →
      ((h.nameCurrent l).block id).instrs = (h.block id).instrs := by
    intro h hh
    rw [block_nameCurrent hh.size]
    split <;> rfl
  obtain ⟨rfl, _⟩ | ⟨_, ⟨_, _, rfl⟩ | rfl⟩ := bindLabel_eq_ok h
  · rfl
  · exact hname hg
  · exact (hname hg.appendBlock).trans (hg.instrs_appendBlock id)

theorem prepend (hg : g.Draft) (hi : i.target = none ∧ i.handler = none)
    (hop : i.op.isTerminator = false) :
    (g.modify id fun b => { b with instrs := i :: b.instrs }).Draft where
  toChained := hg.toChained.modify _ fun _ => rfl
  bound l b hl := by
    rw [size_modify]
    exact hg.bound l b hl
  ended b := by
    rw [block_modify]
    split
    · exact terminatorsLast_cons.mpr ⟨fun _ => hop, hg.ended b⟩
    · exact hg.ended b
  fresh b j hj := by
    rw [block_modify] at hj
    split at hj
    · rcases mem_cons.mp hj with rfl | hj
      · exact hi
      · exact hg.fresh b j hj
    · exact hg.fresh b j hj

end Graph.Draft

namespace UnitState

variable {t t' : UnitState} {u : UnitInfo} {i : Instr}

def accessed? (t : UnitState) (u : UnitInfo) (i : Instr) : Option String :=
  match i.op with
  | .real .loadFast | .real .loadFastCheck | .real .storeFast | .real .deleteFast =>
    t.locals[i.arg]?
  | .real .loadGlobal => t.names[i.arg / 2]?
  | .real .storeGlobal | .real .deleteGlobal | .real .loadName | .real .storeName
  | .real .deleteName => t.names[i.arg]?
  | .real .loadDeref | .real .loadClassderef | .real .storeDeref | .real .deleteDeref =>
    (u.cells ++ u.frees)[i.arg]?
  | _ => none

/-- The instruction accesses a name with an entry in the scope of the unit, or none. -/
structure Names (t : UnitState) (u : UnitInfo) (i : Instr) : Prop where
  native : i.op.isForeign = false
  entered : i.op.isVariable → ∃ n, t.accessed? u i = some n ∧ (u.scope.lookup n).isSome

theorem accessed?_mono (hlocals : t.locals <+: t'.locals) (hnames : t.names <+: t'.names)
    {n : String} (h : t.accessed? u i = some n) : t'.accessed? u i = some n := by
  have hget : ∀ {xs ys : List String} {k : Nat}, xs <+: ys → xs[k]? = some n → ys[k]? = some n := by
    rintro xs _ k ⟨rest, rfl⟩ hk
    rwa [getElem?_append_left (List.getElem?_eq_some_iff.mp hk).1]
  unfold accessed? at h ⊢
  split at h
  all_goals first | exact hget hlocals h | exact hget hnames h | exact h

theorem Names.mono (h : t.Names u i) (hlocals : t.locals <+: t'.locals)
    (hnames : t.names <+: t'.names) : t'.Names u i where
  native := h.native
  entered hi := by
    obtain ⟨n, hn, hentry⟩ := h.entered hi
    exact ⟨n, accessed?_mono hlocals hnames hn, hentry⟩

theorem Names.regraph (h : t.Names u i) (g : Graph) :
    ({ t with graph := g } : UnitState).Names u i :=
  ⟨h.native, h.entered⟩

/-- The unit is in the middle of its construction. The argument of a comprehension is its first
variable. -/
structure Proper (t : UnitState) (u : UnitInfo) : Prop where
  draft : t.graph.Draft
  names : u.kind.isFunctionLike → ∀ id, ∀ i ∈ (t.graph.block id).instrs, t.Names u i
  argument : u.kind = .comprehension → t.locals.head? = some ".0" ∧ (u.scope.lookup ".0").isSome

namespace Proper

theorem start {locals : List String} (h : u.kind = .comprehension →
    locals.head? = some ".0" ∧ (u.scope.lookup ".0").isSome) :
    ({ locals := locals } : UnitState).Proper u where
  draft := .empty
  names _ id := by rcases id with _ | id <;> exact fun i hi => by cases hi
  argument := h

theorem widen (h : t.Proper u) (hgraph : t'.graph = t.graph) (hlocals : t.locals <+: t'.locals)
    (hnames : t.names <+: t'.names) : t'.Proper u where
  draft := hgraph ▸ h.draft
  names hkind id i hi := (h.names hkind id i (hgraph ▸ hi)).mono hlocals hnames
  argument hkind := by
    obtain ⟨hhead, hentry⟩ := h.argument hkind
    obtain ⟨rest, hrest⟩ := hlocals
    refine ⟨?_, hentry⟩
    rw [← hrest, head?_append, hhead]
    rfl

theorem regroup {g : Graph} (h : t.Proper u) (hg : g.Draft)
    (hinstrs : ∀ id, ∀ i ∈ (g.block id).instrs, ∃ b, i ∈ (t.graph.block b).instrs) :
    ({ t with graph := g } : UnitState).Proper u where
  draft := hg
  names hkind id i hi := by
    obtain ⟨b, hb⟩ := hinstrs id i hi
    exact (h.names hkind b i hb).regraph _
  argument := h.argument

theorem addInstr (h : t.Proper u) (hfresh : i.target = none ∧ i.handler = none)
    (hi : u.kind.isFunctionLike → t.Names u i) :
    ({ t with graph := t.graph.addInstr i } : UnitState).Proper u where
  draft := h.draft.addInstr hfresh
  names hkind id j hj := by
    rcases h.draft.mem_instrs_addInstr hj with rfl | hj
    · exact (hi hkind).regraph _
    · exact (h.names hkind id j hj).regraph _
  argument := h.argument

theorem prepend (h : t.Proper u) (hfresh : i.target = none ∧ i.handler = none)
    (hop : i.op.isTerminator = false) (hi : u.kind.isFunctionLike → t.Names u i) :
    ({ t with graph := t.graph.modify t.graph.entry fun b =>
        { b with instrs := i :: b.instrs } } : UnitState).Proper u where
  draft := h.draft.prepend hfresh hop
  names hkind id j hj := by
    rw [Graph.block_modify] at hj
    split at hj
    · rcases mem_cons.mp hj with rfl | hj
      · exact (hi hkind).regraph _
      · exact (h.names hkind id j hj).regraph _
    · exact (h.names hkind id j hj).regraph _
  argument := h.argument

end Proper

end UnitState

/-! ### Runs of generators -/

/-- The unit is in the middle of its construction, and the code objects are as they should be. -/
structure Terms.Sound (T : Terms) (c : GenContext) (s : GenState) : Prop where
  unit : s.unit.Proper c.unit
  codes : ∀ code ∈ s.codes, T.codes code

namespace Gen

variable {α β : Type} {T : Terms} {c : GenContext} {m : Gen α} {f : α → Gen β}
  {pre : UnitState → Prop} {post : α → UnitState → Prop} {post' : β → UnitState → Prop}
  {loc : Location} {op : Opcode} {arg : Nat}

/-- A run from a unit of which `pre` holds keeps what is sound, and its result and the unit after it
are as `post` says. It does not stop for want of a scope. -/
structure Runs (T : Terms) (c : GenContext) (pre : UnitState → Prop) (m : Gen α)
    (post : α → UnitState → Prop) : Prop where
  ok : ∀ s a s', T.Sound c s → pre s.unit → m c s = .ok (a, s') → T.Sound c s' ∧ post a s'.unit
  found : ∀ s, T.Sound c s → pre s.unit → Result.FindsScopes (m c s)

namespace Runs

theorem pure {a : α} (h : ∀ t, pre t → post a t) : Runs T c pre (Pure.pure a) post where
  ok s b s' hs hpre hrun := by
    cases hrun
    exact ⟨hs, h _ hpre⟩
  found s _ _ := nofun

theorem bind (hm : Runs T c pre m post) (hf : ∀ a, Runs T c (post a) (f a) post') :
    Runs T c pre (m >>= f) post' where
  ok s b s' hs hpre hrun := by
    obtain ⟨a, t, hm', hf'⟩ := bind_eq_ok.mp hrun
    obtain ⟨ht, ha⟩ := hm.ok s a t hs hpre hm'
    exact (hf a).ok t b s' ht ha hf'
  found s hs hpre hrun := by
    rcases bind_eq_error hrun with hm' | ⟨a, t, hm', hf'⟩
    · exact hm.found s hs hpre hm'
    · obtain ⟨ht, ha⟩ := hm.ok s a t hs hpre hm'
      exact (hf a).found t ht ha hf'

theorem weaken {pre' : UnitState → Prop} {post' : α → UnitState → Prop} (hm : Runs T c pre m post)
    (hpre : ∀ t, pre' t → pre t) (hpost : ∀ a t, post a t → post' a t) :
    Runs T c pre' m post' where
  ok s a s' hs hpre' hrun := by
    obtain ⟨hs', ha⟩ := hm.ok s a s' hs (hpre _ hpre') hrun
    exact ⟨hs', hpost _ _ ha⟩
  found s hs hpre' := hm.found s hs (hpre _ hpre')

theorem forget (hm : Runs T c pre m post) : Runs T c pre m fun _ _ => True :=
  hm.weaken (fun _ h => h) fun _ _ _ => trivial

theorem stop (h : ∀ s, ∃ e, m c s = .error e ∧ e ≠ .internal .noScope) : Runs T c pre m post where
  ok s a s' _ _ hrun := by
    obtain ⟨e, he, _⟩ := h s
    cases he.symm.trans hrun
  found s _ _ hrun := by
    obtain ⟨e, he, hne⟩ := h s
    exact hne (Except.error.inj (he.symm.trans hrun))

theorem ask {g : GenContext → α} :
    Runs T c pre (read >>= fun c => Pure.pure (g c)) fun a t => a = g c ∧ pre t where
  ok s a s' hs hpre hrun := by
    cases hrun
    exact ⟨hs, rfl, hpre⟩
  found s _ _ := nofun

theorem assume {p : Prop} (h : p → Runs T c pre m post) :
    Runs T c (fun t => p ∧ pre t) m post where
  ok s a s' hs hpre hrun := (h hpre.1).ok s a s' hs hpre.2 hrun
  found s hs hpre := (h hpre.1).found s hs hpre.2

theorem info : Runs T c pre Gen.info fun u t => u = c.unit ∧ pre t :=
  ask

theorem kind : Runs T c pre Gen.kind fun k t => k = c.unit.kind ∧ pre t :=
  ask

theorem mangled :
    Runs T c pre (Gen.mangled name) fun n t => n = mangle c.unit.className name ∧ pre t :=
  ask

end Runs

/-! ### Instructions -/

theorem runs_editGraph {edit : Graph → Result Graph}
    (hedit : ∀ t g, pre t → t.Proper c.unit → edit t.graph = .ok g →
      ({ t with graph := g } : UnitState).Proper c.unit)
    (hfound : ∀ g, (edit g).FindsScopes) : Runs T c pre (editGraph edit) fun _ _ => True where
  ok s a s' hs hpre hrun := by
    rw [editGraph_apply] at hrun
    obtain ⟨g, hg, hret⟩ := Result.bind_eq_ok.mp hrun
    cases hret
    exact ⟨⟨hedit _ g hpre hs.unit hg, hs.codes⟩, trivial⟩
  found s _ _ := by
    rw [editGraph_apply]
    exact .bind (hfound _) fun _ => .ok _

theorem runs_addOp {op : Operation}
    (h : ∀ t, pre t → t.Proper c.unit → c.unit.kind.isFunctionLike →
      t.Names c.unit { op := op, arg := arg, loc := loc }) :
    Runs T c pre (editGraph (·.addOp op arg loc)) fun _ _ => True := by
  refine runs_editGraph (fun t g hpre ht hg => ?_) fun g => ?_
  · unfold Graph.addOp at hg
    split at hg <;> cases hg
    exact ht.addInstr ⟨rfl, rfl⟩ (h t hpre ht)
  · unfold Graph.addOp
    split
    · exact .fault nofun
    · exact .ok _

theorem runs_emitJump {op : Operation} {l : Label} :
    Runs T c pre (emitJump op l loc) fun _ _ => True := by
  refine runs_editGraph (fun t g _ ht hg => ?_) fun g => ?_
  · unfold Graph.addJump at hg
    split at hg
    · cases hg
    next hop =>
      have htarget : op.hasTarget := by simpa using hop
      split at hg <;> cases hg
      refine ht.addInstr ⟨rfl, rfl⟩ fun _ =>
      ⟨isForeign_of_hasTarget htarget, fun hvar => ?_⟩
      rw [isVariable_of_hasTarget htarget] at hvar
      cases hvar
  · unfold Graph.addJump
    split
    · exact .fault nofun
    · split
      · exact .fault nofun
      · exact .ok _

theorem runs_bindLabel {l : Label} : Runs T c pre (bindLabel l) fun _ _ => True := by
  refine runs_editGraph (fun t g _ ht hg => ?_) fun g => ?_
  · refine ht.regroup (ht.draft.bindLabel hg) fun id i hi => ⟨id, ?_⟩
    rwa [ht.draft.instrs_bindLabel hg] at hi
  · unfold Graph.bindLabel
    split
    · exact .fault nofun
    · exact .ok _
    · exact .ok _

theorem runs_newLabel : Runs T c pre newLabel fun _ _ => True where
  ok s l s' hs _ hrun := by
    cases hrun
    exact ⟨⟨hs.unit.regroup hs.unit.draft.addLabel fun id i hi => ⟨id, hi⟩, hs.codes⟩, trivial⟩
  found s _ _ := nofun

theorem runs_plain (h : op.isReserved → ¬c.unit.kind.isFunctionLike) :
    Runs T c pre (emit op arg loc) fun _ _ => True := by
  refine runs_addOp fun t _ _ hkind => ?_
  have hplain : op.isReserved = false := by
    cases hop : op.isReserved with
    | false => rfl
    | true => exact absurd hkind (h hop)
  obtain ⟨hvar, hext⟩ : op.isVariable = false ∧ op ≠ .extendedArg := by
    simpa [Opcode.isReserved] using hplain
  refine ⟨?_, fun hv => ?_⟩
  · show isForeign (.real op) = false
    unfold isForeign
    split <;> first | rfl | simp_all [Opcode.isVariable]
  · cases hvar.symm.trans hv

theorem runs_emitPseudo {op : PseudoOp} : Runs T c pre (emitPseudo op arg loc) fun _ _ => True :=
  runs_addOp fun _ _ _ _ => ⟨rfl, nofun⟩

/-! ### Tables -/

theorem runs_constantIndex {k : Constant} : Runs T c pre (constantIndex k) fun _ _ => True where
  ok s i s' hs _ hrun := by
    cases hrun
    exact ⟨⟨hs.unit.widen rfl (List.prefix_refl _) (List.prefix_refl _), hs.codes⟩, trivial⟩
  found s _ _ := nofun

theorem runs_nameIndex : Runs T c pre (nameIndex name) fun i t => t.names[i]? = some name where
  ok s i s' hs _ hrun := by
    cases hrun
    obtain ⟨hgrown, hget⟩ := intern_spec s.unit.names name
    exact ⟨⟨hs.unit.widen rfl (List.prefix_refl _) hgrown, hs.codes⟩, hget⟩
  found s _ _ := nofun

theorem runs_localIndex : Runs T c pre (localIndex name) fun i t => t.locals[i]? = some name where
  ok s i s' hs _ hrun := by
    cases hrun
    obtain ⟨hgrown, hget⟩ := intern_spec s.unit.locals name
    exact ⟨⟨hs.unit.widen rfl hgrown (List.prefix_refl _), hs.codes⟩, hget⟩
  found s _ _ := nofun

theorem runs_cellIndex :
    Runs T c pre (cellIndex name) fun i _ =>
      (c.unit.cells ++ c.unit.frees)[i]? = some name := by
  refine .bind .info fun u => .assume ?_
  rintro rfl
  split
  next i hi =>
    obtain ⟨hlt, heq, _⟩ := idxOf?_eq_some_iff.mp hi
    exact .pure fun _ _ => List.getElem?_eq_some_iff.mpr ⟨hlt, by simpa using heq⟩
  next => exact .stop fun s => ⟨_, rfl, nofun⟩

theorem runs_emitConst {k : Constant} : Runs T c pre (emitConst k loc) fun _ _ => True :=
  .bind runs_constantIndex fun _ => runs_plain nofun

/-! ### Names -/

theorem access_ne_named {u : UnitInfo} {n : String} (hkind : u.kind.isFunctionLike)
    (h : (u.scope.lookup n).isSome) : u.access n ≠ .named := by
  obtain ⟨x, hx⟩ := Option.isSome_iff_exists.mp h
  unfold UnitInfo.access
  rw [ScopeView.resolution?, hx]
  cases hres : x.resolution <;> simp [hres, hkind]

/-- The full form of the name has an entry in the scope of the unit, if that is a function. -/
def HasEntry (c : GenContext) (name : String) : Prop :=
  c.unit.kind.isFunctionLike → (c.unit.scope.lookup (mangle c.unit.className name)).isSome

variable {name : String} {loc : Location} {n : String}

section

variable (h : c.unit.kind.isFunctionLike → (c.unit.scope.lookup n).isSome)
include h

theorem runs_slot (hop : op ∈ [.loadFast, .storeFast, .deleteFast]) :
    Runs T c pre (do emit op (← localIndex n) loc) fun _ _ => True := by
  refine .bind runs_localIndex fun i => runs_addOp fun t ht _ hkind => ?_
  simp only [mem_cons, not_mem_nil, or_false] at hop
  rcases hop with rfl | rfl | rfl <;> exact ⟨rfl, fun _ => ⟨n, ht, h hkind⟩⟩

theorem runs_cell (hop : op ∈ [.loadDeref, .loadClassderef, .storeDeref, .deleteDeref]) :
    Runs T c pre (do emit op (← cellIndex n) loc) fun _ _ => True := by
  refine .bind runs_cellIndex fun i => runs_addOp fun t ht _ hkind => ?_
  simp only [mem_cons, not_mem_nil, or_false] at hop
  rcases hop with rfl | rfl | rfl | rfl <;> exact ⟨rfl, fun _ => ⟨n, ht, h hkind⟩⟩

theorem runs_global (hop : op ∈ [.storeGlobal, .deleteGlobal]) :
    Runs T c pre (emitName op n loc) fun _ _ => True := by
  refine .bind runs_nameIndex fun i => runs_addOp fun t ht _ hkind => ?_
  simp only [mem_cons, not_mem_nil, or_false] at hop
  rcases hop with rfl | rfl <;> exact ⟨rfl, fun _ => ⟨n, ht, h hkind⟩⟩

theorem runs_loadGlobal :
    Runs T c pre (do emit .loadGlobal (2 * (← nameIndex n)) loc) fun _ _ => True := by
  refine .bind runs_nameIndex fun i => runs_addOp fun t ht _ hkind =>
    ⟨rfl, fun _ => ⟨n, ?_, h hkind⟩⟩
  show t.names[2 * i / 2]? = some n
  rwa [Nat.mul_div_cancel_left i (by decide)]

/-- A namespace is looked up only where there is no entry, and so in no function. -/
theorem runs_named (haccess : c.unit.access n = .named) :
    Runs T c pre (emitName op n loc) fun _ _ => True :=
  .bind runs_nameIndex fun _ => runs_plain fun _ hkind =>
    access_ne_named hkind (h hkind) haccess

end

theorem runs_loadName (h : HasEntry c name) : Runs T c pre (loadName name loc) fun _ _ => True := by
  unfold loadName
  split
  · exact .bind .ask fun _ => runs_emitConst
  · refine .bind .mangled fun full => .assume ?_
    rintro rfl
    refine .bind .info fun u => .assume ?_
    rintro rfl
    split
    next => exact runs_slot h (by decide)
    next => exact runs_loadGlobal h
    next =>
      refine .bind .kind fun k => .assume fun _ => ?_
      dsimp only
      split <;> exact runs_cell h (by decide)
    next haccess => exact runs_named h haccess

theorem runs_changeName {use : TargetUse} (h : HasEntry c name) :
    Runs T c pre (changeName use name loc) fun _ _ => True := by
  unfold changeName
  split
  · exact .stop fun s => ⟨_, rfl, nofun⟩
  · refine .bind .mangled fun full => .assume ?_
    rintro rfl
    refine .bind .info fun u => .assume ?_
    rintro rfl
    split
    next => exact runs_slot h (by cases use <;> decide)
    next => exact runs_global h (by cases use <;> decide)
    next => exact runs_cell h (by cases use <;> decide)
    next haccess => exact runs_named h haccess

theorem runs_loadArgument (h : c.unit.kind = .comprehension) :
    Runs T c pre (loadArgument loc) fun _ _ => True := by
  refine runs_addOp fun t _ ht _ => ⟨rfl, fun _ => ⟨".0", ?_, (ht.argument h).2⟩⟩
  show t.locals[0]? = some ".0"
  rw [← head?_eq_getElem?]
  exact (ht.argument h).1

/-! ### Units -/

theorem runs_convertStop : Runs T c pre convertStop fun _ _ => True := by
  refine .bind runs_newLabel fun handler =>
    .bind (runs_editGraph (fun t g _ ht hg => ?_) fun _ => .ok _)
    fun _ => .bind runs_emitConst fun _ => .bind (runs_plain nofun) fun _ => .bind runs_bindLabel
    fun _ => .bind (runs_plain nofun) fun _ => runs_plain nofun
  cases hg
  exact ht.prepend ⟨rfl, rfl⟩ rfl fun _ => ⟨rfl, nofun⟩

theorem runs_unitCode {start : Location} {body : Gen Unit}
    (h : Runs T c (fun _ => True) body fun _ _ => True) :
    Runs T c (fun _ => True) (unitCode start body) fun _ _ => True := by
  have hend : Runs T c (fun _ => True) (do emitNone .none; emit .returnValue 0 .none : Gen Unit)
      fun _ _ => True :=
    .bind runs_emitConst fun _ => runs_plain nofun
  refine .bind (runs_plain nofun) fun _ => .bind h fun _ => .bind .info fun u => .assume fun _ => ?_
  dsimp only
  split
  · exact .bind runs_convertStop fun _ => hend
  · exact hend

theorem lift_apply (r : Result α) (c : GenContext) (s : GenState) :
    (liftM r : Gen α) c s = r >>= fun a => .ok (a, s) := by
  cases r <;> rfl

theorem assembleUnit_eq_ok {s' : GenState} (h : assembleUnit c s = .ok (code, s')) :
    s' = s ∧ ∃ f shape g constants,
      f.flags.optimized = c.unit.flags.optimized ∧
      s.unit.graph.optimizeUnit c.options.passConfig shape s.unit.constants = .ok (g, constants) ∧
      assemble g constants f = .ok code := by
  obtain ⟨f, _, hframe, h⟩ := bind_eq_ok.mp h
  cases hframe
  obtain ⟨_, _, hget, h⟩ := bind_eq_ok.mp h
  cases hget
  obtain ⟨_, _, hread, h⟩ := bind_eq_ok.mp h
  cases hread
  obtain ⟨⟨g, constants⟩, _, hopt, h⟩ := bind_eq_ok.mp h
  rw [lift_apply] at hopt
  obtain ⟨_, hpasses, hret⟩ := Result.bind_eq_ok.mp hopt
  cases hret
  dsimp only at h
  rw [lift_apply] at h
  obtain ⟨_, hassemble, hret⟩ := Result.bind_eq_ok.mp h
  cases hret
  exact ⟨rfl, _, _, g, constants, rfl, hpasses, hassemble⟩

theorem assembleUnit_findsScopes (c : GenContext) (s : GenState) :
    Result.FindsScopes (assembleUnit c s) := by
  intro h
  rcases bind_eq_error h with h | ⟨f, _, hframe, h⟩
  · cases h
  cases hframe
  rcases bind_eq_error h with h | ⟨_, _, hget, h⟩
  · cases h
  cases hget
  rcases bind_eq_error h with h | ⟨_, _, hread, h⟩
  · cases h
  cases hread
  rcases bind_eq_error h with h | ⟨⟨g, constants⟩, _, hopt, h⟩
  · rw [lift_apply] at h
    exact Result.FindsScopes.bind (Graph.optimizeUnit_findsScopes _ _ _ _) (fun _ => .ok _) h
  · dsimp only at h
    rw [lift_apply] at h
    exact Result.FindsScopes.bind (assemble_findsScopes _ _ _) (fun _ => .ok _) h

theorem runs_warn {caution : Caution} : Runs T c pre (warn caution loc) fun _ _ => True where
  ok s a s' hs _ hrun := by
    obtain ⟨_, _, hread, hrun⟩ := bind_eq_ok.mp hrun
    cases hread
    split at hrun <;> cases hrun
    exact ⟨⟨hs.unit, hs.codes⟩, trivial⟩
  found s _ _ hrun := by
    rcases bind_eq_error hrun with hrun | ⟨_, _, hread, hrun⟩
    · cases hrun
    cases hread
    dsimp only at hrun
    split at hrun <;> cases hrun

theorem runs_addCode (h : T.codes code) :
    Runs T c pre (addCode code) fun _ _ => True where
  ok s a s' hs _ hrun := by
    cases hrun
    refine ⟨⟨hs.unit, fun code' hcode' => ?_⟩, trivial⟩
    rcases Array.mem_push.mp hcode' with hcode' | rfl
    · exact hs.codes _ hcode'
    · exact h
  found s _ _ := nofun

theorem runs_childUnit {here inner : Site} {scopes : ScopeViews} {line : Int}
    (hc : here.Met scopes c)
    (hclass : inner.className = if inner.kind = .classBody then some name else here.className)
    (h : inner.scope < scopes.size) :
    Runs T c pre (childUnit inner.scope inner.kind name line) fun u _ => inner.Suits scopes u where
  ok s u s' hs _ hrun := by
    obtain ⟨rfl, hu⟩ := childUnit_eq_ok hc hclass hrun
    exact ⟨hs, hu⟩
  found s _ _ hrun := by
    rcases bind_eq_error hrun with hrun | ⟨_, _, hread, hrun⟩
    · cases hrun
    cases hread
    rw [← hc.scopes] at h
    simp only [Array.getElem?_eq_getElem h] at hrun
    cases hrun

/-- A unit of its own gives a code object if that is as it should be for every such unit. -/
theorem runs_inUnit {u : UnitInfo} {body : Gen Unit}
    (hstart : ({ locals := u.scope.params } : UnitState).Proper u)
    (hbody : Runs T { c with unit := u } (fun _ => True) body fun _ _ => True)
    (hcode : ∀ code s, T.Sound { c with unit := u } s →
      assembleUnit { c with unit := u } s = .ok (code, s) → T.codes code) :
    Runs T c pre (inUnit u body) fun code _ => T.codes code := by
  have hunit : Runs T { c with unit := u } (fun _ => True)
      (unitCode (.atLine u.firstLine) body) fun _ _ => True := runs_unitCode hbody
  have hsound : ∀ s : GenState, T.Sound c s →
      T.Sound { c with unit := u } { s with unit := { locals := u.scope.params } } :=
    fun s hs => ⟨hstart, hs.codes⟩
  constructor
  case ok =>
    intro s code s' hs _ hrun
    rw [inUnit_apply] at hrun
    obtain ⟨⟨_, t⟩, hinner, hret⟩ := Result.bind_eq_ok.mp hrun
    cases hret
    obtain ⟨_, t₁, hlower, hassemble⟩ := bind_eq_ok.mp hinner
    have ht₁ := (hunit.ok _ _ _ (hsound s hs) trivial hlower).1
    obtain ⟨rfl, -⟩ := assembleUnit_eq_ok hassemble
    exact ⟨⟨hs.unit, ht₁.codes⟩, hcode _ _ ht₁ hassemble⟩
  case found =>
    intro s hs _
    rw [inUnit_apply]
    refine .bind (fun hrun => ?_) fun _ => .ok _
    rcases bind_eq_error hrun with hlower | ⟨_, t₁, -, hassemble⟩
    · exact hunit.found _ (hsound s hs) trivial hlower
    · exact assembleUnit_findsScopes _ t₁ hassemble

end Gen

/-! ### Modules -/

theorem Site.Suits.view {site : Site} {scopes : ScopeTable} {u : UnitInfo}
    (h : site.Suits scopes u) : u.scope = (scopes.scope site.scope).view := by
  rw [h.scope, ScopeViews.scope, Array.getElem?_map, ScopeTable.scope]
  cases scopes[site.scope]? <;> rfl

namespace ScopedModule

variable {source : ScopedModule}

/-- The code object is that of a unit of the module, at the end of its construction. -/
def Makes (source : ScopedModule) (code : CodeObject) : Prop :=
  ∃ (site : Site) (context : GenContext) (s : GenState),
    .scope site ∈ mentionsBody .module source.body ∧ site.Met source.scopes context ∧
    s.unit.Proper context.unit ∧ Gen.assembleUnit context s = .ok (code, s)

/-- What lowering may take for granted: everything that the tree mentions is entered. -/
def terms (source : ScopedModule) : Terms where
  scopes := source.scopes
  holds x := source.scopes.Entered x ∧ ∀ site, x = .scope site →
    x ∈ mentionsBody .module source.body
  codes := source.Makes

end ScopedModule

namespace Gen

variable {c : GenContext}

theorem hasEntry_of_holds {here : Site} (hc : here.Met source.scopes c)
    (h : source.terms.holds (.name here name)) : HasEntry c name := by
  intro hkind
  have hentry := h.1 (hc.unit.kind ▸ hkind)
  rw [← hc.unit.className] at hentry
  exact hc.unit.view ▸ hentry

/-- What is put together from the primitives keeps the unit proper and finds every scope. -/
theorem Composed.runs {α : Type} {here : Spot} {m : Gen α} {post : α → Prop}
    (h : m.Composed source.terms here post) (howns : ∀ l, here.owns l)
    (hc : here.Met source.scopes c) : Runs source.terms c (fun _ => True) m fun a _ => post a := by
  induction h generalizing c with
  | pure h => exact .pure fun _ _ => h
  | bind _ _ ihm ihf =>
    have hm := ihm howns hc
    refine .bind (hm.weaken (fun _ h => h) fun a t ha => ⟨ha, trivial⟩) fun a =>
      .assume fun ha => ?_
    exact ihf a ha howns hc
  | weaken _ h ih => exact (ih howns hc).weaken (fun _ h => h) fun a _ => h a
  | fault h => exact .stop fun s => ⟨_, rfl, fun he => h (CompileError.internal.inj he)⟩
  | exceed => exact .stop fun s => ⟨_, rfl, nofun⟩
  | refuse => exact .stop fun s => ⟨_, rfl, nofun⟩
  | warn => exact runs_warn
  | ask hf => exact Runs.ask.weaken (fun _ h => h) fun a _ h => ⟨c, hc.unit, h.1⟩
  | newLabel => exact runs_newLabel.weaken (fun _ h => h) fun l _ _ => howns l
  | bindLabel => exact runs_bindLabel
  | emit h => exact runs_plain fun hop hkind => h hop (hc.unit.kind ▸ hkind)
  | emitPseudo => exact runs_emitPseudo
  | emitJump => exact runs_emitJump
  | constantIndex => exact runs_constantIndex
  | nameIndex => exact runs_nameIndex.forget
  | cellIndex => exact runs_cellIndex.forget
  | loadName h => exact runs_loadName (hasEntry_of_holds hc h)
  | changeName h => exact runs_changeName (hasEntry_of_holds hc h)
  | loadArgument h => exact runs_loadArgument (hc.unit.kind.trans h)
  | childUnit hclass h => exact runs_childUnit hc hclass (h.1.1.trans_eq Array.size_map.symm)
  | @inUnit here inner u body hu h _ ih =>
    have hinner : inner.Met source.scopes { c with unit := u } := ⟨hu, hc.scopes⟩
    refine runs_inUnit (.start fun hkind => ?_) (ih (fun _ => trivial) hinner)
      fun code s hs hcode => ⟨inner, _, s, h.2 inner rfl, hinner, hs.unit, hcode⟩
    rw [hu.view]
    exact h.1.2 (hu.kind ▸ hkind)
  | addCode h => exact runs_addCode h

/-- The code of a function looks no name up in a namespace. -/
theorem decode_assembleUnit (hs : s.unit.Proper c.unit) (hkind : c.unit.kind.isFunctionLike)
    (h : assembleUnit c s = .ok (code, s)) :
    ∃ ds, decode code.code = .ok ds ∧ ∀ d ∈ ds, (real d.op).isForeign = false := by
  obtain ⟨-, f, shape, g, constants, -, hopt, hcode⟩ := assembleUnit_eq_ok h
  have huses : s.unit.graph.Uses (·.isForeign = false) :=
    fun id _ i hi => (hs.names hkind id i hi).native
  obtain ⟨hg, hnodup⟩ := huses.optimizeUnit (fun _ => isForeign_of_isIntroduced) hs.draft hopt
  exact hg.decode_assemble (fun _ => isForeign_of_isIntroduced) nofun hnodup hcode

theorem flags_assembleUnit (h : assembleUnit c s = .ok (code, s)) :
    code.flags.optimized = c.unit.flags.optimized := by
  obtain ⟨-, f, _, _, _, hflags, -, hcode⟩ := assembleUnit_eq_ok h
  obtain ⟨a, -, ha⟩ := exists_of_assemble hcode
  rw [(Arrangement.toCode_spec ha).2.2.1, hflags]

end Gen

open Gen

namespace ScopedModule

/-- A module all of whose mentions are entered finds every scope that it opens, and its code objects
are those of its units. -/
theorem compile_makes (options : CompileOptions)
    (h : ∀ x ∈ mentionsBody .module source.body, source.scopes.Entered x) :
    (source.compile options).FindsScopes ∧
      ∀ m, source.compile options = .ok m → ∀ code ∈ m.table, source.Makes code := by
  have hholds : source.terms.Allows
      (.name .module "__doc__" :: mentionsBody .module source.body) := by
    rintro x (_ | ⟨_, hx⟩)
    · exact ⟨nofun, nofun⟩
    · exact ⟨h x hx, fun _ _ => hx⟩
  have hmet := met_module options source.scopes
  have hbody := (composes_lowerBody source.body hholds).runs (fun _ => trivial) hmet
  have hmodule : Runs source.terms ⟨options, source.scopes, moduleUnit options source.scopes⟩
      (fun _ => True) (lowerModule source.body) fun _ _ => True := runs_unitCode hbody
  have hstart : source.terms.Sound ⟨options, source.scopes, moduleUnit options source.scopes⟩ {} :=
    ⟨.start nofun, by simp⟩
  constructor
  · refine .bind (fun hrun => ?_) fun _ => .ok _
    rcases bind_eq_error hrun with hlower | ⟨_, s, -, hassemble⟩
    · exact hmodule.found _ hstart trivial hlower
    · exact assembleUnit_findsScopes _ s hassemble
  · intro m hm
    obtain ⟨⟨code, s⟩, hrun, hret⟩ := Result.bind_eq_ok.mp hm
    cases hret
    obtain ⟨_, t, hlower, hassemble⟩ := bind_eq_ok.mp hrun
    obtain ⟨rfl, -⟩ := assembleUnit_eq_ok hassemble
    exact (hmodule.ok _ _ _ hstart trivial hlower).1.codes

end ScopedModule

/-- Compilation never misses the scope of a node. Where it succeeds, all that the tree mentions is
entered in the scopes, and each code object inside of the module is that of a unit which the tree
opens. If the unit is that of a function, then each name that its instructions access has an entry
in the scope of just that unit, and no instruction of the code looks a name up in a namespace. -/
theorem compile_names_entered (options : CompileOptions) (body : Body Unit) :
    match compile options body with
    | .error e => e ≠ .internal .noScope
    | .ok m => ∃ source, ofBody options.file body = .ok source ∧
      (∀ x ∈ mentionsBody .module source.body, source.scopes.Entered x) ∧
      ∀ code ∈ m.table, ∃ (site : Site) (context : GenContext) (s : GenState),
        .scope site ∈ mentionsBody .module source.body ∧ site.Met source.scopes context ∧
        assembleUnit context s = .ok (code, s) ∧
        code.flags.optimized = site.kind.isFunctionLike ∧
        (site.kind.isFunctionLike →
          (∀ id, ∀ i ∈ (s.unit.graph.block id).instrs, i.op.isVariable →
            ∃ name, s.unit.accessed? context.unit i = some name ∧
              ((source.scopes.scope site.scope).lookup name).isSome) ∧
          ∃ ds, decode code.code = .ok ds ∧
            ∀ d ∈ ds, d.op ≠ .loadName ∧ d.op ≠ .storeName ∧ d.op ≠ .deleteName) := by
  have hcompile : compile options body =
      ofBody options.file body >>= fun source => source.compile options := rfl
  split
  next e he =>
    rintro rfl
    rcases Result.bind_eq_error.mp (hcompile ▸ he) with hwalk | ⟨source, hwalk, hrun⟩
    · exact ofBody_findsScopes _ _ hwalk
    · exact (compile_makes options (entered hwalk)).1 hrun
  next m hm =>
    obtain ⟨source, hwalk, hrun⟩ := Result.bind_eq_ok.mp (hcompile ▸ hm)
    have hentered := entered hwalk
    refine ⟨source, hwalk, hentered, fun code hcode => ?_⟩
    obtain ⟨site, context, s, hsite, hmet, hs, hassemble⟩ :=
      (compile_makes options hentered).2 m hrun code hcode
    refine ⟨site, context, s, hsite, hmet, hassemble, ?_, fun hkind => ⟨?_, ?_⟩⟩
    · rw [flags_assembleUnit hassemble, hmet.unit.optimized, hmet.unit.kind]
    · intro id i hi hop
      have hentered := (hs.names (hmet.unit.kind ▸ hkind) id i hi).entered hop
      rw [hmet.unit.view] at hentered
      exact hentered
    · obtain ⟨ds, hds, hnative⟩ := decode_assembleUnit hs (hmet.unit.kind ▸ hkind) hassemble
      refine ⟨ds, hds, fun d hd => ?_⟩
      have := hnative d hd
      refine ⟨?_, ?_, ?_⟩ <;> intro hop <;> rw [hop] at this <;> cases this

end Bytecode
