import Bytecode.Lowering.Comprehension
import Bytecode.Proofs.Result

/-!
# Composition of generators

Every generator of lowering is put together from a few primitives. What holds of the primitives, and
is kept when generators run one after the other, holds of all code. What lowering needs of the tree
is said by mentions: names that the code of a scope accesses, and scopes that are opened.
-/

namespace Bytecode

def Opcode.isVariable : Opcode → Bool
  | loadFast | loadFastCheck | storeFast | deleteFast | loadGlobal | storeGlobal | deleteGlobal
  | loadDeref | loadClassderef | storeDeref | deleteDeref | loadName | storeName | deleteName =>
    true
  | _ => false

/-- Whether a function may have the opcode only as an access to one of its names, or not at all. -/
def Opcode.isReserved (op : Opcode) : Bool :=
  op.isVariable || op = .extendedArg

/-- Where lowering is: in the unit of a scope, inside of a class or not. -/
structure Site where
  scope : ScopeId
  className : Option String
  kind : UnitKind
deriving DecidableEq

/-- What a tree needs in order to be lowered. -/
inductive Mention where
  /-- The code of a site accesses a name. -/
  | name (site : Site) (name : String)
  /-- A site is opened. -/
  | scope (site : Site)
deriving DecidableEq

structure Site.Suits (site : Site) (scopes : ScopeViews) (u : UnitInfo) : Prop where
  kind : u.kind = site.kind
  className : u.className = site.className
  scope : u.scope = scopes.scope site.scope
  optimized : u.flags.optimized = u.kind.isFunctionLike

structure Site.Met (site : Site) (scopes : ScopeViews) (c : GenContext) : Prop where
  unit : site.Suits scopes c.unit
  scopes : c.scopes = scopes

/-- What lowering takes for granted: the scopes, what holds of mentions, and what holds of finished
code objects. -/
structure Terms where
  scopes : ScopeViews
  holds : Mention → Prop
  codes : CodeObject → Prop

namespace Terms

def Allows (T : Terms) (xs : List Mention) : Prop :=
  ∀ x ∈ xs, T.holds x

variable {T : Terms} {x : Mention} {xs ys : List Mention}

theorem Allows.head (h : T.Allows (x :: xs)) : T.holds x :=
  h x (List.mem_cons_self ..)

theorem Allows.tail (h : T.Allows (x :: xs)) : T.Allows xs :=
  fun y hy => h y (List.mem_cons_of_mem _ hy)

theorem Allows.left (h : T.Allows (xs ++ ys)) : T.Allows xs :=
  fun y hy => h y (List.mem_append_left _ hy)

theorem Allows.right (h : T.Allows (xs ++ ys)) : T.Allows ys :=
  fun y hy => h y (List.mem_append_right _ hy)

end Terms

def Terms.free (scopes : ScopeViews) : Terms :=
  ⟨scopes, fun _ => True, fun _ => True⟩

/-- A site with the labels that the code there may bind. -/
structure Spot extends Site where
  owns : Label → Prop

def Site.toSpot (site : Site) : Spot :=
  ⟨site, fun _ => True⟩

def GenContext.escalated (c : GenContext) (b : Bool) : GenContext :=
  { c with options := { c.options with warningsAsErrors := b } }

namespace Gen

section

variable {α β : Type} {m : Gen α} {f : α → Gen β} {c : GenContext} {s s' : GenState}

theorem bind_eq_ok {b : β} :
    (m >>= f) c s = .ok (b, s') ↔ ∃ a t, m c s = .ok (a, t) ∧ f a c t = .ok (b, s') := by
  constructor
  · intro h
    obtain ⟨⟨a, t⟩, hm, hf⟩ := Result.bind_eq_ok.mp h
    exact ⟨a, t, hm, hf⟩
  · rintro ⟨a, t, hm, hf⟩
    exact Result.bind_eq_ok.mpr ⟨(a, t), hm, hf⟩

theorem bind_eq_error {e : CompileError} (h : (m >>= f) c s = .error e) :
    m c s = .error e ∨ ∃ a t, m c s = .ok (a, t) ∧ f a c t = .error e := by
  rcases Result.bind_eq_error.mp h with hm | ⟨⟨a, t⟩, hm, hf⟩
  · exact .inl hm
  · exact .inr ⟨a, t, hm, hf⟩

end

theorem editGraph_apply (edit : Graph → Result Graph) (c : GenContext) (s : GenState) :
    editGraph edit c s = (do
      let g ← edit s.unit.graph
      return ((), { s with unit := { s.unit with graph := g } }) : Result (Unit × GenState)) := by
  show (liftM (edit s.unit.graph) >>= fun g => modifyUnit fun u => { u with graph := g } :
    Gen Unit) c s = _
  cases edit s.unit.graph <;> rfl

/-- A table with an element interned begins as before, and has the element at the given place. -/
theorem intern_spec {α : Type} [DecidableEq α] (xs : List α) (x : α) :
    xs <+: (intern xs x).1 ∧ (intern xs x).1[(intern xs x).2]? = some x := by
  unfold intern
  split
  next i hi =>
    obtain ⟨hlt, heq, _⟩ := List.idxOf?_eq_some_iff.mp hi
    exact ⟨List.prefix_refl _, List.getElem?_eq_some_iff.mpr ⟨hlt, by simpa using heq⟩⟩
  next => exact ⟨List.prefix_append _ _, by simp⟩

/-- The generator is put together from primitives, and its result is as `post` says. -/
inductive Composed (T : Terms) : Spot → {α : Type} → Gen α → (α → Prop) → Prop where
  | pure {here : Spot} {α : Type} {post : α → Prop} {a : α} (h : post a) :
    Composed T here (Pure.pure a) post
  | bind {here : Spot} {α β : Type} {m : Gen α} {f : α → Gen β} {mid : α → Prop}
    {post : β → Prop} (hm : Composed T here m mid)
    (hf : ∀ a, mid a → Composed T here (f a) post) : Composed T here (m >>= f) post
  | weaken {here : Spot} {α : Type} {m : Gen α} {post post' : α → Prop}
    (hm : Composed T here m post) (h : ∀ a, post a → post' a) : Composed T here m post'
  | fault {here : Spot} {α : Type} {post : α → Prop} {e : Fault} (h : e ≠ .noScope) :
    Composed T here (fault e) post
  | exceed {here : Spot} {α : Type} {post : α → Prop} {l : Limit} : Composed T here (exceed l) post
  | refuse {here : Spot} {α : Type} {post : α → Prop} {e : SourceFault} {loc : Location} :
    Composed T here (refuse e loc) post
  | warn {here : Spot} {c : Caution} {loc : Location} :
    Composed T here (warn c loc) fun _ => True
  | ask {here : Spot} {α : Type} {f : GenContext → α} (hf : ∀ c b, f (c.escalated b) = f c) :
    Composed T here (read >>= fun c => Pure.pure (f c)) fun a =>
      ∃ c : GenContext, here.Suits T.scopes c.unit ∧ a = f c
  | newLabel {here : Spot} : Composed T here newLabel here.owns
  | bindLabel {here : Spot} {l : Label} (h : here.owns l) :
    Composed T here (bindLabel l) fun _ => True
  | emit {here : Spot} {op : Opcode} {arg : Nat} {loc : Location}
    (h : op.isReserved → ¬here.kind.isFunctionLike) :
    Composed T here (emit op arg loc) fun _ => True
  | emitPseudo {here : Spot} {op : PseudoOp} {arg : Nat} {loc : Location} :
    Composed T here (emitPseudo op arg loc) fun _ => True
  | emitJump {here : Spot} {op : Operation} {l : Label} {loc : Location} :
    Composed T here (emitJump op l loc) fun _ => True
  | constantIndex {here : Spot} {c : Constant} : Composed T here (constantIndex c) fun _ => True
  | nameIndex {here : Spot} {name : String} : Composed T here (nameIndex name) fun _ => True
  | cellIndex {here : Spot} {name : String} : Composed T here (cellIndex name) fun _ => True
  | loadName {here : Spot} {name : String} {loc : Location} (h : T.holds (.name here.toSite name)) :
    Composed T here (loadName name loc) fun _ => True
  | changeName {here : Spot} {use : TargetUse} {name : String} {loc : Location}
    (h : T.holds (.name here.toSite name)) : Composed T here (changeName use name loc) fun _ => True
  | loadArgument {here : Spot} {loc : Location} (h : here.kind = .comprehension) :
    Composed T here (loadArgument loc) fun _ => True
  | childUnit {here : Spot} {inner : Site} {name : String} {line : Int}
    (hclass : inner.className = if inner.kind = .classBody then some name else here.className)
    (h : T.holds (.scope inner)) :
    Composed T here (childUnit inner.scope inner.kind name line) (inner.Suits T.scopes)
  | inUnit {here : Spot} {inner : Site} {u : UnitInfo} {body : Gen Unit}
    (hu : inner.Suits T.scopes u) (h : T.holds (.scope inner))
    (hbody : Composed T inner.toSpot body fun _ => True) :
    Composed T here (inUnit u body) T.codes
  | addCode {here : Spot} {c : CodeObject} (h : T.codes c) :
    Composed T here (addCode c) fun _ => True

/-- The generator is put together from primitives. -/
abbrev Composes {α : Type} (T : Terms) (here : Spot) (m : Gen α) : Prop :=
  Composed T here m fun _ => True

namespace Composed

variable {T : Terms} {here : Spot} {α β : Type} {m : Gen α} {f : α → Gen β} {post : α → Prop}
  {post' : β → Prop}

theorem forget (h : m.Composed T here post) : m.Composes T here :=
  h.weaken fun _ _ => trivial

theorem stop (hm : m.Composed T here fun _ => False) : (m >>= f).Composed T here post' :=
  hm.bind fun _ h => h.elim

theorem info : Gen.info.Composed T here (here.Suits T.scopes) :=
  (ask fun _ _ => rfl).weaken fun _ ⟨_, hc, hu⟩ => hu ▸ hc

theorem kind : Gen.kind.Composed T here (· = here.kind) :=
  .bind .info fun _ hu => .pure hu.kind

end Composed

theorem childUnit_eq_ok {site inner : Site} {scopes : ScopeViews} {c : GenContext} {name : String}
    {line : Int} {u : UnitInfo} {s s' : GenState} (hc : site.Met scopes c)
    (hclass : inner.className = if inner.kind = .classBody then some name else site.className)
    (h : childUnit inner.scope inner.kind name line c s = .ok (u, s')) :
    s' = s ∧ inner.Suits scopes u := by
  obtain ⟨_, _, hread, h⟩ := bind_eq_ok.mp h
  cases hread
  cases hscope : c.scopes[inner.scope]? with
  | none =>
    simp only [hscope] at h
    cases h
  | some scope =>
    simp only [hscope] at h
    cases h
    refine ⟨rfl, rfl, ?_, ?_, ?_⟩
    · rw [hclass, ← hc.unit.className]
    · rw [← hc.scopes, ScopeViews.scope, hscope]
      rfl
    · show (unitFlags _ _ inner.kind).optimized = inner.kind.isFunctionLike
      unfold unitFlags
      split <;> simp_all [Features.codeFlags]

theorem inUnit_apply (u : UnitInfo) (body : Gen Unit) (c : GenContext) (s : GenState) :
    inUnit u body c s = (do
      let (code, t) ← (do unitCode (.atLine u.firstLine) body; assembleUnit : Gen CodeObject)
        { c with unit := u } { s with unit := { locals := u.scope.params } }
      return (code, { t with unit := s.unit }) : Result (CodeObject × GenState)) :=
  rfl

end Gen

end Bytecode
