import Bytecode.Proofs.Lowering.Resolution
import Bytecode.Proofs.Lowering.Statements

/-!
# Units

The code of a scope begins with an empty stack and no handler, and does not run off its end. A unit
that can be suspended is protected by a handler that is opened before all else; its body is laid out
with that handler at the bottom.
-/

namespace Bytecode

open Gen Nat

/-! ### The end of a unit -/

section

variable {context : GenContext} {s s' : GenState} {entry : Shape} {T : Label → Shape}
  {H : List OpenHandler}

theorem reached_start {start : Location} (hs : s.unit.graph = {})
    (hrun : emit .resume 0 start context s = .ok ((), s')) (hH : lowest H ≤ 0)
    (T : Label → Shape) : Place.Reached ⟨⟨0, H⟩, [], []⟩ ⟨0, H⟩ T s'.unit.graph := by
  have hgraph : s'.unit.graph = ({} : Graph).addInstr ⟨.real .resume, 0, none, start, none⟩ := by
    have hedit := editGraph_eq_ok hrun
    rw [hs] at hedit
    exact (Except.ok.inj hedit).symm
  rw [hgraph]
  refine ⟨fun _ => ⟨0, H⟩, rfl, Graph.Laid.initial rfl rfl ?_⟩
  exact .plain ⟨rfl, rfl, nofun, hH⟩ rfl (.plain (e := 0) nofun nofun rfl rfl) rfl

theorem exists_laid_return (hH : lowest H ≤ 0)
    (hrun : (do emitNone .none; emit .returnValue 0 .none : Gen Unit) context s = .ok ((), s'))
    (hp : Place.Reached ⟨⟨0, H⟩, [], []⟩ entry T s.unit.graph) :
    ∃ T' E, E 0 = entry ∧ s'.unit.graph.Laid T' E (fun _ => False) [] [] := by
  obtain ⟨_, t, hnone, hreturn⟩ := bind_eq_ok.mp hrun
  have hleads := (turns_emitNone (S := .shaped)).leads hH _ _ _ _ hnone _ _ hp
  obtain ⟨T', _, rfl, E, hentry, hlaid⟩ := hleads
  have hgraph : s'.unit.graph =
      t.unit.graph.addInstr ⟨.real .returnValue, 0, none, .none, none⟩ := by
    have hedit := editGraph_eq_ok hreturn
    exact (Except.ok.inj hedit).symm
  have hsuits : (Instr.mk (.real .returnValue) 0 none .none none).Suits ⟨1, H⟩ :=
    ⟨rfl, rfl, nofun, le_succ_of_le hH⟩
  obtain ⟨E', hentry', hlaid'⟩ := hlaid.addInstr (i := ⟨.real .returnValue, 0, none, .none, none⟩)
    rfl nofun (Shaped.exit hsuits rfl rfl)
  exact ⟨T', E', hentry'.trans hentry, hgraph ▸ hlaid'⟩

/-- The handler of a whole unit is opened before its first instruction, and its code stands behind
a return of the body. -/
theorem reached_convertStop (hrun : convertStop context s = .ok ((), s'))
    (hp : Place.Reached ⟨⟨0, [⟨s.unit.graph.labels.size, 0, true⟩]⟩, [], []⟩
      ⟨0, [⟨s.unit.graph.labels.size, 0, true⟩]⟩ T s.unit.graph) :
    ∃ T', Place.Reached ⟨⟨0, []⟩, [], []⟩ ⟨0, []⟩ T' s'.unit.graph := by
  obtain ⟨handler, t, hlabel, hrun⟩ := bind_eq_ok.mp hrun
  obtain ⟨T₁, E, hentry, hlaid⟩ := reached_newLabel ⟨2, []⟩ hlabel hp
  obtain ⟨hhandler, -⟩ := newLabel_eq_ok hlabel
  rw [← hhandler] at hentry hlaid
  obtain ⟨_, t', hprepend, hrun⟩ := bind_eq_ok.mp hrun
  have hgraph : t'.unit.graph = t.unit.graph.modify t.unit.graph.entry fun b =>
      { b with instrs := { op := .pseudo .setupCleanup, arg := handler } :: b.instrs } := by
    have hedit := editGraph_eq_ok hprepend
    exact (Except.ok.inj hedit).symm
  obtain ⟨hshape, huse⟩ := hlaid.known (handler, ⟨2, []⟩) (List.mem_cons_self ..)
  have hopens : Shaped Instr.label? (fun l => some (T₁ l)) (· = E 0)
      [{ op := .pseudo .setupCleanup, arg := handler }] ⟨0, []⟩ := by
    rw [hentry]
    exact .branch (u := ⟨2, []⟩) ⟨rfl, rfl, nofun, le_refl 0⟩ rfl ⟨2, rfl, rfl, rfl⟩
      (congrArg some hshape) (.guard rfl rfl rfl) rfl
  have hlaid' := hlaid.prepend rfl (fun l hl => by cases hl; exact huse) hopens
  rw [← hgraph] at hlaid'
  have hrest : (do
      emitNone .none
      emit .returnValue 0 .none
      bindLabel handler
      emitIntrinsic .stopToError .none
      emit .reraise 1 .none : Gen Unit).Leads .shaped
      ⟨⟨0, [⟨handler, 0, true⟩]⟩, [(handler, ⟨2, []⟩)], [handler]⟩ ⟨⟨0, []⟩, [], []⟩ := by
    apply (turns_emitNone.leads (le_refl 0)).seq
    apply (ends_return.leads (le_refl 0) ⟨2, []⟩).seq
    apply (leads_bindLabel (by trivial) [] (by simp) (by simp)).seq
    apply ((turns_emit (n := 1) (k := 1) rfl).leads (b := 1) (H := []) (zero_le 1)).seq
    exact (((ends_emitReraise 1).above 1).leads (le_refl 0) ⟨0, []⟩).weaken (.refl _)
      ⟨rfl, List.nil_subset _, List.Subset.refl _⟩
  obtain ⟨T₂, _, rfl, hp₂⟩ := hrest _ _ _ _ hrun _ _ ⟨_, rfl, hlaid'⟩
  exact ⟨T₂, hp₂⟩

theorem exists_laid_unitCode {start : Location} {body : Gen Unit} (hbody : body.Balanced .shaped)
    (hs : s.unit.graph = {}) (hrun : unitCode start body context s = .ok ((), s')) :
    ∃ T E, E 0 = ⟨0, []⟩ ∧ s'.unit.graph.Laid T E (fun _ => False) [] [] := by
  obtain ⟨_, t, hstart, hrun⟩ := bind_eq_ok.mp hrun
  obtain ⟨_, t', hbody', hrun⟩ := bind_eq_ok.mp hrun
  obtain ⟨u, t'', hinfo, hrun⟩ := bind_eq_ok.mp hrun
  obtain ⟨rfl, rfl⟩ := Prod.mk.inj (Except.ok.inj hinfo)
  dsimp only at hrun
  have hlays : ∀ H, lowest H ≤ 0 → ∃ T, Place.Reached ⟨⟨0, H⟩, [], []⟩ ⟨0, H⟩ T t'.unit.graph := by
    intro H hH
    have hfirst := reached_start hs hstart hH fun _ => ⟨0, []⟩
    obtain ⟨T, _, rfl, hp⟩ := hbody H hH _ _ _ _ hbody' _ _ hfirst
    exact ⟨T, hp⟩
  split at hrun
  · obtain ⟨_, t'', hconvert, hrun⟩ := bind_eq_ok.mp hrun
    obtain ⟨T, hp⟩ := hlays [⟨t'.unit.graph.labels.size, 0, true⟩] (le_refl 0)
    obtain ⟨T', hp'⟩ := reached_convertStop hconvert hp
    exact exists_laid_return (H := []) (le_refl 0) hrun hp'
  · obtain ⟨T, hp⟩ := hlays [] (le_refl 0)
    exact exists_laid_return (H := []) (le_refl 0) hrun hp

end

/-! ### Scopes -/

/-- What is lowered to a unit of its own: the body of a scope. -/
inductive ScopeBody where
  | module (body : Body ScopeId)
  | classBody (loc : Location) (body : Body ScopeId)
  | function (body : Body ScopeId)
  | lambda (loc : Location) (value : Expr ScopeId)
  | comprehension (loc : Location) (element : Element (Expr ScopeId))
      (generators : List (Generator (Expr ScopeId)))

namespace ScopeBody

/-- The code of the body, which a unit puts between its start and its end. -/
def code : ScopeBody → Gen Unit
  | module body => BodyCode.lower ⟨body, lowerBody body⟩
  | classBody loc body => lowerClassBody loc ⟨body, lowerBody body⟩
  | function body => BodyCode.lowerFunction ⟨body, lowerBody body⟩
  | lambda loc value => lambdaBody loc (lowerExpr value)
  | comprehension loc element generators =>
    comprehensionBody loc (lowerElement element) (lowerGenerators generators)

def targeted : ScopeBody → Bool
  | module body | classBody _ body | function body => Stmt.allTargeted body
  | lambda _ _ | comprehension _ _ _ => true

theorem balanced_code {b : ScopeBody} (h : b.targeted) : b.code.Balanced .shaped := by
  cases b with
  | module body => exact balanced_lower (sound_body body .shaped trivial h) trivial
  | classBody loc body =>
    have hnames : ∀ n ∈ classNames, Setting.Names .shaped n := fun _ _ => trivial
    exact balanced_lowerClassBody (sound_body body .shaped trivial h) hnames loc
  | function body => exact balanced_lowerFunction (sound_body body .shaped trivial h)
  | lambda loc value =>
    exact fun _ hH => (turns_lambdaBody (sound_expr value .shaped trivial)).leads hH
  | comprehension loc element generators =>
    have hgenerators := sound_generators generators .shaped trivial
    refine fun _ hH => (turns_comprehensionBody (sound_element element .shaped trivial) trivial
      (fun g hg => (hgenerators g hg).1) fun g hg => ?_).leads hH
    exact (hgenerators g (List.mem_of_mem_tail hg)).2

end ScopeBody

/-- Whatever is lowered with whatever scopes and options, the graph of a scope is balanced: all its
labels have their blocks, on every path each instruction finds what it takes and what its handler
counts on, no handler is closed that is not open, and a block is always entered with the same stack
and the same handlers. -/
theorem unitCode_balanced {b : ScopeBody} (hb : b.targeted) {start : Location}
    {context : GenContext} {s s' : GenState} (hs : s.unit.graph = {})
    (hrun : unitCode start b.code context s = .ok ((), s')) :
    (∀ id, ∀ i ∈ (s'.unit.graph.block id).instrs, i.op.hasTarget →
      (s'.unit.graph.labelBlock? i.arg).isSome) ∧
    ∃ r, s'.unit.graph.resolveLabels = .ok r ∧ r.Sound 0 ∧
      ∀ id shape shape', r.Visits 0 id (r.block id).instrs shape →
        r.Visits 0 id (r.block id).instrs shape' → shape = shape' := by
  obtain ⟨T, E, hentry, hlaid⟩ := exists_laid_unitCode (ScopeBody.balanced_code hb) hs hrun
  refine ⟨fun id i hi hop => ?_, ?_⟩
  · by_contra hnone
    have huse := (hlaid.uses hi).2 i.arg (if_pos hop)
    cases huse.2 (Option.not_isSome_iff_eq_none.mp hnone)
  · obtain ⟨r, types, hr, htyped⟩ := hlaid.exists_typed hentry
    refine ⟨r, hr, htyped.sound, fun id shape shape' hvisit hvisit' => ?_⟩
    exact Option.some.inj ((htyped.enters hvisit).symm.trans (htyped.enters hvisit'))

namespace Sample

/-- A loop that is left from inside of a protected region, whose final body runs on the way out. -/
def guardedReturn : ScopeBody :=
  let name (line : Int) (id : String) : Expr ScopeId := .name (.ofLine line) id
  let final := Stmt.assign (.ofLine 4) [name 4 "y"] (.constant (.ofLine 4) (.int 1))
  let region := Stmt.tryBlock (.ofLine 2) [.returns (.ofLine 3) (some (name 3 "x"))] [] [] [final]
  .function [.forLoop (.ofLine 1) (name 1 "x") (name 1 "xs") [region] [] false]

def generatorContext : GenContext where
  options := {}
  scopes := #[]
  unit :=
    { kind := .function
      scope := .root
      name := "f"
      qualifiedName := "f"
      flags := { generator := true } }

end Sample

/-- The loop is lowered without an error, and its graph is balanced. -/
theorem unitCode_balanced_guardedReturn : Sample.guardedReturn.targeted ∧
    ∃ s', unitCode (.ofLine 1) Sample.guardedReturn.code Sample.generatorContext {} = .ok ((), s') ∧
      ∃ r, s'.unit.graph.resolveLabels = .ok r ∧ r.Sound 0 := by
  have hok : (unitCode (.ofLine 1) Sample.guardedReturn.code Sample.generatorContext {}).isOk := by
    decide +kernel
  obtain ⟨⟨⟨⟩, s'⟩, hrun⟩ := Result.exists_of_isOk hok
  obtain ⟨-, r, hr, hsound, -⟩ := unitCode_balanced rfl rfl hrun
  exact ⟨rfl, s', hrun, r, hr, hsound⟩

end Bytecode
