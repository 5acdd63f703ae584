import Bytecode.Proofs.Matching.Alternatives

/-!
# Patterns and their code

The code of every pattern tests the subject as the pattern means. Where the pattern matches, what it
captures waits below everything else, and where it does not, the chain of pops takes off everything
above the base.
-/

namespace Bytecode

open Gen

section

variable {c : GenContext} {site : Site}

mutual

theorem tried_pattern (hc : site.Met c.scopes c) : (q : Pattern ScopeId) → q.Tried c
  | .value _ e => fun _ => tries_testValue hc e
  | .singleton _ k => fun _ => tries_testSingleton k
  | .sequence _ patterns => fun _ => tries_testSequence (tried_patterns hc patterns)
  | .mapping _ keys patterns rest => fun _ =>
    tries_testMapping hc (tried_patterns hc patterns) keys rest
  | .classPattern _ cls patterns attrs attrPatterns => fun _ =>
    tries_testClass hc (tried_patterns hc patterns) (tried_patterns hc attrPatterns) cls attrs
  | .star _ name => fun _ => tries_capture name
  | .capture _ none name => fun irrefutable => tries_testAnything name irrefutable
  | .capture _ (some pattern) name => fun irrefutable =>
    tries_testAs (tried_pattern hc pattern irrefutable) name
  | .alternatives _ patterns => fun _ => tries_testAlternatives (tried_patterns hc patterns)

theorem tried_patterns (hc : site.Met c.scopes c) :
    (qs : List (Pattern ScopeId)) → ∀ q ∈ qs, q.Tried c
  | [], _, hq => nomatch hq
  | r :: rs, q, hq => by
    rcases List.mem_cons.mp hq with heq | hq
    · exact heq ▸ tried_pattern hc r
    · exact tried_patterns hc rs q hq

end

end

/-- The code of a pattern keeps the stack exact. It is entered with the subject on top of `work`,
the values that wait, and the base. Where the pattern matches, its captures wait as well, in the
order of their names, and everything else is as it was; and there is no other way through the code.
Where it does not, control leaves for the exit of just the values that are above the base then, and
the chain of pops leads from there to the base. -/
theorem lowerPattern_exact {c : GenContext} {site : Site} (hc : site.Met c.scopes c)
    (q : Pattern ScopeId) (irrefutable : Bool) {p p' : PatternState} {s s' : GenState}
    (hp : Awaits p.failures s.unit)
    (hrun : (lowerPattern q).test irrefutable p c s = .ok (p', s')) :
    p'.stores = p.stores ++ q.captures ∧ p'.onTop = p.onTop ∧ Awaits p'.failures s'.unit ∧
    (∃ ps, s.unit.Extends s'.unit (transcript ps) ∧ (∀ x ∈ ps, x.Faithful c) ∧
      ∀ (V : Type) (D : Interpretation V) (consts : List Constant),
        s'.unit.constants <+: consts → ∀ (v : V) (work waiting base : List V),
        work.length = p.onTop → waiting.length = p.stores.length →
        (∀ bs, D.matcher q v (some bs) → bs.map Prod.fst = q.captures ∧
          Crosses D consts ps (.here (v :: work ++ waiting ++ base))
            (.here (work ++ (waiting ++ bs.values) ++ base))) ∧
        (D.matcher q v none → ∃ y, Crosses D consts ps (.here (v :: work ++ waiting ++ base)) y ∧
          Fails p'.failures base y) ∧
        ∀ y, Crosses D consts ps (.here (v :: work ++ waiting ++ base)) y →
          (∃ bs, D.matcher q v (some bs) ∧ y = .here (work ++ (waiting ++ bs.values) ++ base)) ∨
            D.matcher q v none ∧ Fails p'.failures base y) ∧
    ∀ (loc : Location) (t t' : GenState), Awaits p'.failures t.unit →
      p'.emitFailures loc c t = .ok ((), t') →
      ∃ chain, t.unit.Extends t'.unit (transcript chain) ∧
        ∀ (V : Type) (D : Interpretation V) consts base x y, Fails p'.failures base x →
          (Crosses D consts chain x y ↔ y = .here base) := by
  obtain ⟨hnames, ps, htested, honTop, henacts⟩ := tried_pattern hc q irrefutable hp hrun
  refine ⟨htested.stores, honTop, htested.awaits,
    ⟨ps, htested.grown.grows, htested.faithful, fun V D consts hconsts v work waiting base hwork
      hwaiting => ?_⟩, fun loc t t' ht hchain => ?_⟩
  · have hlength : (work ++ waiting).length = p.depth := by
      rw [List.length_append, hwork, hwaiting, PatternState.depth]
    have h := henacts V D consts hconsts base v (work ++ waiting) hlength
    simp only [List.cons_append, List.append_assoc] at h ⊢
    obtain ⟨hsound, hreaches, hfails⟩ := h
    simp only [List.cons_append, List.append_assoc] at hsound hreaches hfails
    exact ⟨fun bs hbs => ⟨hnames V D v bs hbs, hreaches bs hbs⟩, hfails, hsound⟩
  · refine ⟨_, (PatternState.extends_emitFailures ht hchain).1, fun V D consts base x y hx => ?_⟩
    obtain ⟨l, above, hl, rfl⟩ := hx
    exact crosses_popChain ht.nodup hl

namespace Sample

/-- A pair, or a pair in a sequence of its own the other way round, where the whole has a name. -/
def nestedPair : Pattern ScopeId :=
  let name (id : String) : Pattern ScopeId := .capture (.ofLine 1) none (some id)
  let pair := Pattern.sequence (.ofLine 1) [name "x", name "y"]
  let other := Pattern.sequence (.ofLine 1) [.sequence (.ofLine 1) [name "y", name "x"]]
  .capture (.ofLine 1) (some (.alternatives (.ofLine 1) [pair, other])) (some "all")

def moduleContext : GenContext where
  options := {}
  scopes := #[]
  unit :=
    { kind := .module
      scope := .root
      name := "<module>"
      qualifiedName := "<module>" }

theorem met_moduleContext : Site.Met ⟨0, none, .module⟩ moduleContext.scopes moduleContext :=
  ⟨⟨rfl, rfl, rfl, rfl⟩, rfl⟩

end Sample

/-- The pattern is lowered where a name waits below another value. -/
theorem lowerPattern_exact_nestedPair : ∃ p' s',
    (lowerPattern Sample.nestedPair).test true { stores := ["z"], onTop := 1 }
      Sample.moduleContext {} = .ok (p', s') ∧
    p'.stores = ["z", "x", "y", "all"] ∧ p'.onTop = 1 ∧ Awaits p'.failures s'.unit := by
  have hok : ((lowerPattern Sample.nestedPair).test true { stores := ["z"], onTop := 1 }
      Sample.moduleContext {}).isOk := by
    decide +kernel
  obtain ⟨⟨p', s'⟩, hrun⟩ := Result.exists_of_isOk hok
  obtain ⟨hstores, honTop, hawaits, -⟩ :=
    lowerPattern_exact Sample.met_moduleContext _ _ (.nil .empty) hrun
  exact ⟨p', s', hrun, hstores, honTop, hawaits⟩

end Bytecode
