import Bytecode.Proofs.Scope.Supply

/-!
# Captured variables

A variable of a function is a cell exactly if a scope inside the function takes it: one that uses
the name, or declares it nonlocal, without a function in between that has a variable of the name. A
name that a scope only uses is free exactly if a function around the scope has a variable of it.
-/

namespace Bytecode

open List Scope ScopedModule

namespace Scope

/-- The scope has a variable of the name: it gives the name a value, and does not say that the
variable is from elsewhere. -/
def binds (s : Scope) (n : String) : Bool :=
  (s.lookup n).any fun x =>
    x.usage.isBinding && !x.usage.declaredGlobal && !x.usage.declaredNonlocal

/-- The scope itself takes the name from around it, because it uses the name or says so. -/
def takes (s : Scope) (n : String) : Bool :=
  (s.lookup n).any fun x =>
    x.resolution = .free && (x.usage.used || x.usage.declaredNonlocal)

variable {s : Scope} {outer needed : List String} {n : String}

theorem mem_ownFree : n ∈ s.ownFree ↔ ∃ x ∈ s.symbols, x.name = n ∧ x.resolution = .free := by
  simp only [ownFree, mem_names_filter, decide_eq_true_eq]

/-- What is true of an entry of a settled scope: it is true of the entry before, or of that of a
name which is handed through. -/
theorem Placed.any_lookup_settle (hs : s.Placed outer) (P : Symbol → Bool) :
    ((s.settle outer needed).lookup n).any P ↔
      (∃ x ∈ s.symbols, x.name = n ∧ P (s.settleSymbol needed x)) ∨
        n ∈ s.handedThrough outer needed ∧ P { name := n, resolution := .free, loc := s.loc } := by
  simp only [Option.any_eq_true]
  constructor
  · rintro ⟨x, hx, hP⟩
    obtain ⟨hmem, rfl⟩ := exists_of_lookup hx
    rcases mem_settle.mp hmem with ⟨y, hy, rfl⟩ | ⟨m, hm, rfl⟩
    · exact .inl ⟨y, hy, (name_settleSymbol y).symm, hP⟩
    · exact .inr ⟨hm, hP⟩
  · have hfound : ∀ x ∈ (s.settle outer needed).symbols,
        (s.settle outer needed).lookup x.name = some x := fun x hx =>
      lookup_eq_some (nodup_settle hs.names) hx
    rintro (⟨x, hx, rfl, hP⟩ | ⟨hn, hP⟩)
    · refine ⟨_, ?_, hP⟩
      rw [← @name_settleSymbol s needed x]
      exact hfound _ (mem_settle.mpr (.inl ⟨x, hx, rfl⟩))
    · exact ⟨_, hfound _ (mem_settle.mpr (.inr ⟨n, hn, rfl⟩)), hP⟩

/-- The uses of a name that do not depend on scopes inside. -/
theorem usage_settleSymbol (s : Scope) (needed : List String) (x : Symbol) :
    ∃ b, (s.settleSymbol needed x).usage = { x.usage with freeThroughClass := b } := by
  rcases s.settleSymbol_cases needed x with h | ⟨_, _, _, h⟩ | ⟨_, _, _, h⟩ <;> exact ⟨_, by rw [h]⟩

theorem Placed.binds_settle (hs : s.Placed outer) :
    (s.settle outer needed).binds n ↔ n ∈ s.localNames := by
  rw [binds, hs.any_lookup_settle, mem_localNames]
  constructor
  · rintro (⟨x, hx, rfl, hP⟩ | ⟨_, hP⟩)
    · obtain ⟨b, hb⟩ := s.usage_settleSymbol needed x
      rw [hb] at hP
      refine ⟨x, hx, rfl, ?_⟩
      have hP : (x.usage.isBinding ∧ x.usage.declaredGlobal = false) ∧
        x.usage.declaredNonlocal = false := by simpa [Usage.isBinding] using hP
      rcases Symbol.resolve_cases (hs.resolved x hx) with h | h | h | h <;> simp_all
    · cases hP
  · rintro ⟨x, hx, rfl, hlocal⟩
    obtain ⟨b, hb⟩ := s.usage_settleSymbol needed x
    refine .inl ⟨x, hx, rfl, ?_⟩
    rw [hb]
    rcases Symbol.resolve_cases (hs.resolved x hx) with h | h | h | h <;> simp_all [Usage.isBinding]

theorem free_settleSymbol (x : Symbol) :
    (s.settleSymbol needed x).resolution = .free ↔ x.resolution = .free := by
  rcases s.settleSymbol_cases needed x with h | ⟨_, _, _, h⟩ | ⟨_, _, _, h⟩ <;> simp_all

theorem Placed.takes_settle (hs : s.Placed outer) :
    (s.settle outer needed).takes n ↔ n ∈ s.ownFree := by
  rw [takes, hs.any_lookup_settle, mem_ownFree]
  constructor
  · rintro (⟨x, hx, rfl, hP⟩ | ⟨_, hP⟩)
    · simp only [Bool.and_eq_true, decide_eq_true_eq, free_settleSymbol] at hP
      exact ⟨x, hx, rfl, hP.1⟩
    · cases hP
  · rintro ⟨x, hx, rfl, hres⟩
    obtain ⟨b, hb⟩ := s.usage_settleSymbol needed x
    have hrecorded := hs.recorded x hx
    refine .inl ⟨x, hx, rfl, ?_⟩
    simp only [Bool.and_eq_true, decide_eq_true_eq, free_settleSymbol, hres, hb, true_and]
    rcases Symbol.resolve_cases (hs.resolved x hx) with h | h | h | h <;>
      simp_all [Usage.isRecorded]
    grind

/-- A variable of a function is a cell if scopes inside need it. -/
theorem Placed.cell_settle (hs : s.Placed outer) (hkind : s.kind = .function) :
    (s.settle outer needed).resolution? n = some .cell ↔ n ∈ s.localNames ∧ n ∈ needed := by
  rw [resolution?_eq_some (nodup_settle hs.names), mem_localNames]
  constructor
  · rintro ⟨x, hx, rfl, hcell⟩
    rcases mem_settle.mp hx with ⟨y, hy, rfl⟩ | ⟨m, _, rfl⟩
    · rcases s.settleSymbol_cases needed y with h | ⟨h, _⟩ | ⟨_, hmem, hlocal, h⟩
      · rw [h] at hcell
        rcases Symbol.resolve_cases (hs.resolved y hy) with h | h | h | h <;> simp_all
      · cases hkind.symm.trans h
      · rw [name_settleSymbol]
        exact ⟨⟨y, hy, rfl, hlocal⟩, hmem⟩
    · cases hcell
  · rintro ⟨⟨x, hx, rfl, hlocal⟩, hmem⟩
    refine ⟨_, mem_settle.mpr (.inl ⟨x, hx, rfl⟩), name_settleSymbol x, ?_⟩
    simp [settleSymbol, hmem, hkind, hlocal]

theorem mem_offered_iff (hn : n ≠ "__class__") :
    n ∈ s.offered outer ↔ (s.isFunction ∧ n ∈ s.localNames) ∨ n ∈ outer := by
  unfold offered isFunction
  cases s.kind <;> simp [hn]

theorem mem_passedOn_iff (hn : n ≠ "__class__") :
    n ∈ s.passedOn needed ↔ ¬(s.isFunction ∧ n ∈ s.localNames) ∧ n ∈ needed := by
  unfold passedOn isFunction
  cases s.kind <;> simp [hn, and_comm]

end Scope

namespace ScopeTable

/-- One scope stands inside another, and the scopes between them are as `P` says. -/
inductive Inside (t : ScopeTable) (P : Scope → Prop) : ScopeId → ScopeId → Prop where
  | child {c p : ScopeId} (h : (t.scope c).parent = some p) : Inside t P c p
  | step {c m p : ScopeId} (h : (t.scope c).parent = some m) (hm : P (t.scope m))
    (hp : Inside t P m p) : Inside t P c p

variable {t : ScopeTable} {P : Scope → Prop} {d p : ScopeId}

/-- What stands inside a scope is a child of it, or stands inside of one. -/
theorem inside_iff : t.Inside P d p ↔
    ∃ c, (t.scope c).parent = some p ∧ (d = c ∨ P (t.scope c) ∧ t.Inside P d c) := by
  constructor
  · intro h
    induction h with
    | child h => exact ⟨_, h, .inl rfl⟩
    | step h hm _ ih =>
      obtain ⟨c, hc, rfl | ⟨hP, hin⟩⟩ := ih
      · exact ⟨_, hc, .inr ⟨hm, .child h⟩⟩
      · exact ⟨c, hc, .inr ⟨hP, .step h hm hin⟩⟩
  · rintro ⟨c, hc, rfl | ⟨hP, hin⟩⟩
    · exact .child hc
    · induction hin with
      | child h => exact .step h hP (.child hc)
      | step h hm _ ih => exact .step h hm (ih hc hP)

end ScopeTable

namespace Settled

variable {scopes table : ScopeTable} {ps : List PlacedScope} {id : Nat} {p : PlacedScope}
  {n : String}

theorem scope_spec (h : Settled scopes table ps) (hp : ps[id]? = some p) :
    (table.scope id).parent = p.scope.parent ∧
      ((table.scope id).isFunction ↔ p.scope.isFunction) ∧
      ∀ n, ((table.scope id).binds n ↔ n ∈ p.scope.localNames) ∧
        ((table.scope id).takes n ↔ n ∈ p.scope.ownFree) := by
  have hs := (h.placedAt id p hp).placed h.nested
  rw [(h.spec hp).1]
  exact ⟨rfl, .rfl, fun n => ⟨hs.binds_settle, hs.takes_settle⟩⟩

/-- The parent of a scope has a smaller number, and offers what the scope can take. -/
theorem parent_spec (h : Settled scopes table ps) (hp : ps[id]? = some p) {q : ScopeId}
    (hq : (table.scope id).parent = some q) :
    q < id ∧ ∃ o, ps[q]? = some o ∧ id ∈ o.scope.children ∧ p.outer = o.scope.offered o.outer := by
  rw [(h.scope_spec hp).1, (h.scope_eq hp).2.1] at hq
  have hpos : 0 < id := by
    rcases Nat.eq_zero_or_pos id with rfl | hpos
    · cases h.nested.root.symm.trans hq
    · exact hpos
  obtain ⟨-, q', hlt, hq', hmem⟩ := h.nested.parent id hpos (h.lt_size hp)
  obtain rfl : q' = q := Option.some.inj (hq'.symm.trans hq)
  obtain ⟨o, ho, houter⟩ :=
    (h.placedAt id p hp).parent q' hlt ((h.scope_eq hp).2.1.trans hq)
  have ho : ps[q']? = some o := by simpa using ho
  exact ⟨hlt, o, ho, (h.scope_eq ho).2.2 ▸ hmem, houter⟩

theorem exists_placed (h : Settled scopes table ps) (hid : table.scope id ≠ .root) :
    ∃ p, ps[id]? = some p := by
  refine ⟨_, getElem?_eq_getElem (Nat.lt_of_not_le fun hle => hid ?_)⟩
  rw [ScopeTable.scope, Array.getElem?_eq_none (h.size ▸ hle)]
  rfl

/-- A scope can take a name from around it if a function around it has a variable of the name. -/
theorem mem_outer_iff (h : Settled scopes table ps) (hp : ps[id]? = some p)
    (hn : n ≠ "__class__") : n ∈ p.outer ↔ ∃ f, table.Inside (fun _ => True) id f ∧
      (table.scope f).isFunction ∧ (table.scope f).binds n := by
  induction id using Nat.strongRecOn generalizing p with
  | _ id ih =>
    cases hparent : (table.scope id).parent with
    | none =>
      rw [(h.placedAt id p hp).root ((h.scope_spec hp).1.symm.trans hparent)]
      refine iff_of_false not_mem_nil fun ⟨f, hin, _⟩ => ?_
      cases hin with
      | child h | step h => cases hparent.symm.trans h
    | some q =>
      obtain ⟨hlt, o, ho, -, houter⟩ := h.parent_spec hp hparent
      have ho' := h.scope_spec ho
      rw [houter, mem_offered_iff hn, ih q hlt ho, ← ho'.2.1, ← (ho'.2.2 n).1]
      constructor
      · rintro (hbinds | ⟨f, hin, hbinds⟩)
        · exact ⟨q, .child hparent, hbinds⟩
        · exact ⟨f, .step hparent trivial hin, hbinds⟩
      · rintro ⟨f, hin, hbinds⟩
        cases hin with
        | child h =>
          obtain rfl := Option.some.inj (hparent.symm.trans h)
          exact .inl hbinds
        | step h _ hin =>
          obtain rfl := Option.some.inj (hparent.symm.trans h)
          exact .inr ⟨f, hin, hbinds⟩

/-- Scopes inside need a name if one of them takes it, and no function in between has a variable of
the name. -/
theorem mem_neededBy_iff (h : Settled scopes table ps) (hp : ps[id]? = some p)
    (hn : n ≠ "__class__") : n ∈ (settleFrom ps 0).neededBy p.scope ↔
      ∃ d, table.Inside (fun s => ¬(s.isFunction ∧ s.binds n)) d id ∧ (table.scope d).takes n := by
  -- Scopes inside have greater numbers.
  induction hk : ps.length - id using Nat.strongRecOn generalizing id p with
  | _ k ih =>
    have hchild : ∀ c q, ps[c]? = some q → id < c →
        (n ∈ ((settleFrom ps 0).needs.lookup c).getD [] ↔ (table.scope c).takes n ∨
          ¬((table.scope c).isFunction ∧ (table.scope c).binds n) ∧
            ∃ d, table.Inside (fun s => ¬(s.isFunction ∧ s.binds n)) d c ∧
              (table.scope d).takes n) := by
      intro c q hq hlt
      have hbound := (List.getElem?_eq_some_iff.mp hq).1
      have hq' := h.scope_spec hq
      rw [(h.spec hq).2, Option.getD_some, needs, mem_eraseDups, mem_append,
        mem_passedOn_iff hn, ih (ps.length - c) (by omega) hq rfl, ← hq'.2.1,
        ← (hq'.2.2 n).1, ← (hq'.2.2 n).2]
    rw [SettledScopes.neededBy, mem_flatMap]
    constructor
    · rintro ⟨c, hc, hneeds⟩
      obtain ⟨hlt, q, hq, hparent⟩ := h.child hp hc
      have hparent : (table.scope c).parent = some id := (h.scope_spec hq).1.trans hparent
      rcases (hchild c q hq hlt).mp hneeds with htakes | ⟨hP, d, hin, htakes⟩
      · exact ⟨c, .child hparent, htakes⟩
      · exact ⟨d, ScopeTable.inside_iff.mpr ⟨c, hparent, .inr ⟨hP, hin⟩⟩, htakes⟩
    · rintro ⟨d, hin, htakes⟩
      obtain ⟨c, hparent, hd⟩ := ScopeTable.inside_iff.mp hin
      obtain ⟨q, hq⟩ := h.exists_placed fun hroot => by
        rw [hroot] at hparent
        cases hparent
      obtain ⟨hlt, o, ho, hmem, -⟩ := h.parent_spec hq hparent
      obtain rfl := Option.some.inj (ho.symm.trans hp)
      refine ⟨c, hmem, (hchild c q hq hlt).mpr ?_⟩
      rcases hd with rfl | ⟨hP, hin⟩
      · exact .inl htakes
      · exact .inr ⟨hP, d, hin, htakes⟩

end Settled

/-- Which variables are captured. In a function a name is a cell if and only if the function has a
variable of the name, and a scope inside takes it without a function in between that has one. A name
that a scope uses, and does nothing else with, is free if and only if a function around the scope
has a variable of the name. The name of the class itself is apart from this. -/
theorem ScopedModule.cell_iff_taken {file : String} {body : Body Unit} {m : ScopedModule}
    (h : ofBody file body = .ok m) {n : String} (hn : n ≠ "__class__") :
    (∀ f, (m.scopes.scope f).isFunction →
      ((m.scopes.scope f).resolution? n = some .cell ↔ (m.scopes.scope f).binds n ∧
        ∃ d, m.scopes.Inside (fun s => ¬(s.isFunction ∧ s.binds n)) d f ∧
          (m.scopes.scope d).takes n)) ∧
    ∀ d x, (m.scopes.scope d).lookup n = some x → x.usage.used → ¬x.usage.isBinding →
      ¬x.usage.declaredGlobal → ¬x.usage.declaredNonlocal →
      (x.resolution = .free ↔ ∃ f, m.scopes.Inside (fun _ => True) d f ∧
        (m.scopes.scope f).isFunction ∧ (m.scopes.scope f).binds n) := by
  obtain ⟨scopes, ps, hs, -⟩ := settled h
  refine ⟨fun f hf => ?_, fun d x hx hused hbinding hglobal hnonlocal => ?_⟩
  · obtain ⟨p, hp⟩ := hs.exists_placed fun hroot => by
      rw [hroot] at hf
      cases hf
    have hplaced := (hs.placedAt f p hp).placed hs.nested
    have hkind : p.scope.kind = .function := by
      simpa [isFunction] using (hs.scope_spec hp).2.1.mp hf
    rw [((hs.scope_spec hp).2.2 n).1, ← hs.mem_neededBy_iff hp hn, (hs.spec hp).1]
    exact hplaced.cell_settle hkind
  · obtain ⟨p, hp⟩ := hs.exists_placed fun hroot => by
      rw [hroot] at hx
      cases hx
    have hplaced := (hs.placedAt d p hp).placed hs.nested
    rw [← hs.mem_outer_iff hp hn]
    rw [(hs.spec hp).1] at hx
    obtain ⟨hmem, rfl⟩ := exists_of_lookup hx
    rcases mem_settle.mp hmem with ⟨y, hy, rfl⟩ | ⟨m, _, rfl⟩
    · obtain ⟨b, hb⟩ := p.scope.usage_settleSymbol ((settleFrom ps 0).neededBy p.scope) y
      rw [hb] at hbinding hglobal hnonlocal
      have hbinding : ¬y.usage.isBinding := hbinding
      rw [free_settleSymbol, name_settleSymbol]
      rcases Symbol.resolve_cases (hplaced.resolved y hy) with h | h | h | h <;> simp_all
    · cases hused

/-- The inner function of the sample takes the parameter of the outer one. -/
theorem ScopedModule.cell_iff_taken_sampleModule :
    ∃ m, ofBody "" sampleModule = .ok m ∧ (m.scopes.scope 1).isFunction ∧
      (m.scopes.scope 1).resolution? "base" = some .cell ∧ (m.scopes.scope 1).binds "base" ∧
      ∃ d, m.scopes.Inside (fun s => ¬(s.isFunction ∧ s.binds "base")) d 1 ∧
        (m.scopes.scope d).takes "base" := by
  obtain ⟨m, hm, hcell⟩ := Result.exists_of_any (x := ofBody "" sampleModule)
    (p := fun m => (m.scopes.scope 1).isFunction ∧
      (m.scopes.scope 1).resolution? "base" = some .cell) (by decide +kernel)
  obtain ⟨hfunction, hcell⟩ := of_decide_eq_true hcell
  exact ⟨m, hm, hfunction, hcell, ((cell_iff_taken hm (by decide)).1 1 hfunction).mp hcell⟩

end Bytecode
