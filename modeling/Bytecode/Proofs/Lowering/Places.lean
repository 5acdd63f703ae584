import Bytecode.Proofs.Composition.Generators
import Bytecode.Proofs.Lowering.Construction

/-!
# Places in generated code

A generator leads from one place of the code to another. A place tells the shape in which control
gets there, the shapes of the labels in use, and which of them wait for their block. What leads from
place to place is put together along the structure of generators, so that their code is balanced by
the way it is made.

Along the same structure generators are put together from primitives. Both are shown by one walk
over the generators, for a setting that tells which of the two it is.
-/

namespace Bytecode

open List Except Prod

/-- What is known where generation stands. -/
structure Place where
  shape : Shape
  known : List (Label × Shape)
  pending : List Label

/-- The graph stands at the place. Its entry has the given shape, and its labels those of `T`. -/
def Place.Reached (p : Place) (entry : Shape) (T : Label → Shape) (g : Graph) : Prop :=
  ∃ E, E 0 = entry ∧ g.Laid T E (· = p.shape) p.known p.pending

/-- A place knows no more than another, and lets no fewer labels wait. -/
structure Place.LE (p q : Place) : Prop where
  shape : q.shape = p.shape
  known : q.known ⊆ p.known
  pending : p.pending ⊆ q.pending

theorem Place.LE.refl (p : Place) : p.LE p :=
  ⟨rfl, Subset.refl _, Subset.refl _⟩

theorem Place.Reached.mono {p q : Place} {entry : Shape} {T : Label → Shape} {g : Graph}
    (h : p.Reached entry T g) (hle : p.LE q) : q.Reached entry T g := by
  obtain ⟨E, hentry, hlaid⟩ := h
  exact ⟨E, hentry, hlaid.mono (fun s hs => hs.trans hle.shape.symm) hle.known hle.pending⟩

/-- What is shown of code: that control keeps to shapes in it, or that it is put together from
primitives. -/
inductive Setting where
  | shaped
  | composed (T : Terms) (here : Spot)

namespace Setting

variable {S : Setting} {P : Terms → Spot → Prop} {inner : Site → Site}

/-- What code has to meet in order to be put together from primitives. -/
def Grants (S : Setting) (P : Terms → Spot → Prop) : Prop :=
  match S with
  | shaped => True
  | composed T here => P T here

/-- What code has to meet in order that control keeps to shapes. -/
def Needs (S : Setting) (P : Prop) : Prop :=
  match S with
  | shaped => P
  | composed _ _ => True

theorem grants_of (h : ∀ T here, P T here) : S.Grants P := by
  cases S with
  | shaped => trivial
  | composed T here => exact h T here

theorem Grants.imp {Q : Terms → Spot → Prop} (h : S.Grants P)
    (himp : ∀ T here, P T here → Q T here) : S.Grants Q := by
  cases S with
  | shaped => trivial
  | composed T here => exact himp T here h

def inside (S : Setting) (inner : Site → Site) : Setting :=
  match S with
  | shaped => shaped
  | composed T here => composed T (inner here.toSite).toSpot

theorem grants_inside (h : ∀ T site, P T (inner site).toSpot) : (S.inside inner).Grants P := by
  cases S with
  | shaped => trivial
  | composed T here => exact h T here.toSite

theorem needs_of {P : Prop} (h : P) : S.Needs P := by
  cases S with
  | shaped => exact h
  | composed T here => trivial

theorem Needs.imp {P Q : Prop} (h : S.Needs P) (himp : P → Q) : S.Needs Q := by
  cases S with
  | shaped => exact himp h
  | composed T here => trivial

theorem Needs.left {a b : Bool} (h : S.Needs (a && b)) : S.Needs a :=
  h.imp fun h => (Bool.and_eq_true_iff.mp h).1

theorem Needs.right {a b : Bool} (h : S.Needs (a && b)) : S.Needs b :=
  h.imp fun h => (Bool.and_eq_true_iff.mp h).2

theorem Needs.inside {P : Prop} (h : S.Needs P) : (S.inside inner).Needs P := by
  cases S with
  | shaped => exact h
  | composed T here => trivial

def Owns (S : Setting) (l : Label) : Prop :=
  S.Grants fun _ here => here.owns l

def Names (S : Setting) (name : String) : Prop :=
  S.Grants fun T here => T.holds (.name here.toSite name)

def Permits (S : Setting) (op : Opcode) : Prop :=
  S.Grants fun _ here => op.isReserved → ¬here.kind.isFunctionLike

def Allows (S : Setting) (mentions : Site → List Mention) : Prop :=
  S.Grants fun T here => T.Allows (mentions here.toSite)

section

variable {x : Site → Mention} {xs ys : Site → List Mention}

theorem Allows.head (h : S.Allows fun site => x site :: xs site) :
    S.Grants fun T here => T.holds (x here.toSite) :=
  h.imp fun _ _ h => h.head

theorem Allows.tail (h : S.Allows fun site => x site :: xs site) : S.Allows xs :=
  h.imp fun _ _ h => h.tail

theorem Allows.left (h : S.Allows fun site => xs site ++ ys site) : S.Allows xs :=
  h.imp fun _ _ h => h.left

theorem Allows.right (h : S.Allows fun site => xs site ++ ys site) : S.Allows ys :=
  h.imp fun _ _ h => h.right

theorem Allows.inside (h : S.Allows fun site => xs (inner site)) : (S.inside inner).Allows xs := by
  cases S with
  | shaped => trivial
  | composed T here => exact h

end

end Setting

namespace Gen

variable {α β : Type} {S : Setting} {m : Gen α} {f : α → Gen β} {p q r : Place}
  {context : GenContext} {s s' : GenState} {P : α → Terms → Spot → Prop} {post : α → Place → Prop}
  {post' : β → Place → Prop} {edit : Graph → Result Graph} {l : Label}

/-! ### Runs -/

theorem editGraph_eq_ok {a : Unit} (h : editGraph edit context s = .ok (a, s')) :
    edit s.unit.graph = .ok s'.unit.graph := by
  rw [editGraph_apply] at h
  obtain ⟨g, hg, h⟩ := Result.bind_eq_ok.mp h
  cases h
  exact hg

theorem newLabel_eq_ok (h : newLabel context s = .ok (l, s')) :
    l = s.unit.graph.labels.size ∧ s'.unit.graph = s.unit.graph.addLabel.1 := by
  cases h
  exact ⟨rfl, rfl⟩

def Quiet (m : Gen α) : Prop :=
  ∀ context s a s', m context s = .ok (a, s') → s'.unit.graph = s.unit.graph

/-- A run of the generator that begins at the one place gets to a place of which `post` holds. -/
def Reaches (m : Gen α) (p : Place) (post : α → Place → Prop) : Prop :=
  ∀ context s a s', m context s = .ok (a, s') → ∀ entry T,
    p.Reached entry T s.unit.graph → ∃ T' q, post a q ∧ q.Reached entry T' s'.unit.graph

/-- The generator adds no code, and its result is as `P` says. -/
def Still (S : Setting) (m : Gen α) (P : α → Terms → Spot → Prop) : Prop :=
  match S with
  | .shaped => m.Quiet
  | .composed T here => m.Composed T here (P · T here)

def Fails (S : Setting) (m : Gen α) : Prop :=
  match S with
  | .shaped => ∀ context s a s', m context s ≠ .ok (a, s')
  | .composed T here => m.Composed T here fun _ => False

/-- A run of the generator that begins at the one place gets to a place of which `post` holds, or
the generator is put together from primitives. -/
def Yields (S : Setting) (m : Gen α) (p : Place) (post : α → Place → Prop) : Prop :=
  match S with
  | .shaped => m.Reaches p post
  | .composed T here => m.Composed T here fun a => ∃ q, post a q

def Leads (S : Setting) (m : Gen α) (p q : Place) : Prop :=
  m.Yields S p fun _ r => r = q

/-! ### Putting generators together -/

theorem Yields.bind {mid : α → Place → Prop} (hm : m.Yields S p mid)
    (hf : ∀ a q, mid a q → (f a).Yields S q post') : (m >>= f).Yields S p post' := by
  cases S with
  | shaped =>
    intro context s b s' hrun entry T hp
    obtain ⟨a, t, hm', hf'⟩ := bind_eq_ok.mp hrun
    obtain ⟨T', q, hmid, hq⟩ := hm _ _ _ _ hm' _ _ hp
    exact hf a q hmid _ _ _ _ hf' _ _ hq
  | composed T here => exact .bind hm fun a ⟨q, hq⟩ => hf a q hq

theorem Leads.bind (hm : m.Leads S p q) (hf : ∀ a, (f a).Yields S q post') :
    (m >>= f).Yields S p post' := by
  apply Yields.bind hm
  rintro a _ rfl
  exact hf a

theorem Leads.seq {m : Gen Unit} {f : Unit → Gen β} (hm : m.Leads S p q)
    (hf : (f ()).Yields S q post') : (m >>= f).Yields S p post' :=
  hm.bind fun _ => hf

theorem Leads.composes {T : Terms} {here : Spot} (h : m.Leads (.composed T here) p q) :
    m.Composes T here :=
  Composed.forget h

theorem Leads.of_composes {T : Terms} {here : Spot} (h : m.Composes T here) :
    m.Leads (.composed T here) p q :=
  h.weaken fun _ _ => ⟨q, rfl⟩

/-- What is put together from primitives may count on the result. -/
theorem Still.bindGiven (hm : m.Still S P)
    (hf : ∀ a, S.Grants (P a) → (f a).Yields S p post') :
    (m >>= f).Yields S p post' := by
  cases S with
  | shaped =>
    intro context s b s' hrun entry T hp
    obtain ⟨a, t, hm', hf'⟩ := bind_eq_ok.mp hrun
    exact hf a trivial _ _ _ _ hf' _ _ (hm _ _ _ _ hm' ▸ hp)
  | composed T here => exact Composed.bind hm hf

theorem Still.bind (hm : m.Still S P) (hf : ∀ a, (f a).Yields S p post') :
    (m >>= f).Yields S p post' :=
  hm.bindGiven fun a _ => hf a

theorem Still.leads (hm : m.Still S P) : m.Leads S p p := by
  cases S with
  | shaped =>
    intro context s a s' hrun entry T hp
    exact ⟨T, p, rfl, hm _ _ _ _ hrun ▸ hp⟩
  | composed T here => exact .of_composes (Composed.forget hm)

theorem Quiet.andThen (hm : m.Quiet) (hf : ∀ a, (f a).Quiet) : (m >>= f).Quiet := by
  intro context s b s' hrun
  obtain ⟨a, t, hm', hf'⟩ := bind_eq_ok.mp hrun
  exact (hf a _ _ _ _ hf').trans (hm _ _ _ _ hm')

theorem Quiet.pure (a : α) : (Pure.pure a : Gen α).Quiet := by
  intro context s b s' hrun
  cases hrun
  rfl

theorem Still.andThen {P' : β → Terms → Spot → Prop} (hm : m.Still S P)
    (hf : ∀ a, (f a).Still S P') : (m >>= f).Still S P' := by
  cases S with
  | shaped => exact Quiet.andThen hm hf
  | composed T here => exact Composed.bind hm fun a _ => hf a

theorem Still.pure (a : α) : (Pure.pure a : Gen α).Still S fun _ _ _ => True := by
  cases S with
  | shaped => exact Quiet.pure a
  | composed T here => exact Composed.pure trivial

theorem still_mapM {γ : Type} {f : γ → Gen α} (h : ∀ x, (f x).Still S fun _ _ _ => True)
    (xs : List γ) : (xs.mapM f).Still S fun _ _ _ => True := by
  induction xs with
  | nil => exact .pure _
  | cons x xs ih =>
    rw [mapM_cons]
    exact (h x).andThen fun _ => ih.andThen fun _ => .pure _

/-- More may be known at the start, and less at the end. -/
theorem Yields.weaken {post' : α → Place → Prop} (h : m.Yields S q post) (hstart : p.LE q)
    (hend : ∀ a r, post a r → ∃ r', post' a r' ∧ r.LE r') : m.Yields S p post' := by
  cases S with
  | shaped =>
    intro context s a s' hrun entry T hp
    obtain ⟨T', r, hpost, hr⟩ := h _ _ _ _ hrun _ _ (hp.mono hstart)
    obtain ⟨r', hpost', hle⟩ := hend a r hpost
    exact ⟨T', r', hpost', hr.mono hle⟩
  | composed T here =>
    exact Composed.weaken h fun a ⟨r, hr⟩ => (hend a r hr).imp fun _ hpost => hpost.1

theorem Leads.weaken {p' q' : Place} (h : m.Leads S p' q') (hstart : p.LE p') (hend : q'.LE q) :
    m.Leads S p q := by
  refine Yields.weaken h hstart ?_
  rintro _ _ rfl
  exact ⟨q, rfl, hend⟩

theorem Yields.pure {a : α} (h : post a p) : (Pure.pure a : Gen α).Yields S p post := by
  cases S with
  | shaped =>
    intro context s b s' hrun entry T hp
    cases hrun
    exact ⟨T, p, h, hp⟩
  | composed T here => exact Composed.pure ⟨p, h⟩

theorem Yields.pure_of_le {a : α} (hle : p.LE q) (h : post a q) :
    (Pure.pure a : Gen α).Yields S p post :=
  (Yields.pure h).weaken hle fun _ r hr => ⟨r, hr, .refl r⟩

/-! ### Generators that add no code -/

theorem Fails.yields (hm : m.Fails S) : m.Yields S p post := by
  cases S with
  | shaped => exact fun _ _ _ _ hrun => absurd hrun (hm _ _ _ _)
  | composed T here => exact Composed.weaken hm fun _ h => h.elim

theorem Fails.still (hm : m.Fails S) : m.Still S P := by
  cases S with
  | shaped => exact fun _ _ _ _ hrun => absurd hrun (hm _ _ _ _)
  | composed T here => exact Composed.weaken hm fun _ h => h.elim

theorem Fails.bind (hm : m.Fails S) : (m >>= f).Fails S := by
  cases S with
  | shaped =>
    intro context s b s' hrun
    obtain ⟨a, t, hm', _⟩ := bind_eq_ok.mp hrun
    exact hm _ _ _ _ hm'
  | composed T here => exact Composed.stop hm

theorem fails_fault (e : Fault) (h : e ≠ .noScope := by simp) : (fault e : Gen α).Fails S := by
  cases S with
  | shaped => exact fun _ _ _ _ hrun => by cases hrun
  | composed T here => exact Composed.fault h

theorem fails_exceed (l : Limit) : (exceed l : Gen α).Fails S := by
  cases S with
  | shaped => exact fun _ _ _ _ hrun => by cases hrun
  | composed T here => exact Composed.exceed

theorem fails_refuse (e : SourceFault) (loc : Location) : (refuse e loc : Gen α).Fails S := by
  cases S with
  | shaped => exact fun _ _ _ _ hrun => by cases hrun
  | composed T here => exact Composed.refuse

theorem quiet_ask (f : GenContext → α) : (read >>= fun c => Pure.pure (f c) : Gen α).Quiet := by
  intro context s a s' hrun
  cases hrun
  rfl

theorem still_ask {f : GenContext → α} (hf : ∀ c b, f (c.escalated b) = f c) :
    (read >>= fun c => Pure.pure (f c) : Gen α).Still S fun _ _ _ => True := by
  cases S with
  | shaped => exact quiet_ask f
  | composed T here => exact Composed.forget (.ask hf)

theorem still_info : info.Still S fun _ _ _ => True := still_ask fun _ _ => rfl

theorem still_kind : kind.Still S fun k _ here => k = here.kind := by
  cases S with
  | shaped => exact Quiet.andThen (quiet_ask _) fun _ => .pure _
  | composed T here => exact Composed.kind

theorem still_mangled (name : String) : (mangled name).Still S fun _ _ _ => True :=
  still_info.andThen fun _ => .pure _

theorem still_defersAnnotations : defersAnnotations.Still S fun _ _ _ => True :=
  still_ask fun _ _ => rfl

theorem still_stripsAsserts : stripsAsserts.Still S fun _ _ _ => True := still_ask fun _ _ => rfl

theorem still_isImported (name : String) : (isImported name).Still S fun _ _ _ => True :=
  still_ask fun _ _ => rfl

theorem still_warn (c : Caution) (loc : Location) : (warn c loc).Still S fun _ _ _ => True := by
  cases S with
  | shaped =>
    intro context s a s' hrun
    obtain ⟨_, _, hread, hrun⟩ := bind_eq_ok.mp hrun
    cases hread
    split_ifs at hrun
    · cases hrun
    · cases hrun
      rfl
  | composed T here => exact Composed.warn

theorem still_constantIndex (c : Constant) : (constantIndex c).Still S fun _ _ _ => True := by
  cases S with
  | shaped =>
    intro context s a s' hrun
    cases hrun
    rfl
  | composed T here => exact Composed.constantIndex

theorem still_nameIndex (name : String) : (nameIndex name).Still S fun _ _ _ => True := by
  cases S with
  | shaped =>
    intro context s a s' hrun
    cases hrun
    rfl
  | composed T here => exact Composed.nameIndex

theorem still_localIndex (name : String) : (localIndex name).Still .shaped fun _ _ _ => True := by
  intro context s a s' hrun
  cases hrun
  rfl

theorem still_cellIndex (name : String) : (cellIndex name).Still S fun _ _ _ => True := by
  cases S with
  | shaped =>
    refine Still.andThen still_info fun u => ?_
    split
    · exact .pure _
    · exact (fails_fault _).still
  | composed T here => exact Composed.cellIndex

theorem still_addCode {c : CodeObject} (h : S.Grants fun T _ => T.codes c) :
    (addCode c).Still S fun _ _ _ => True := by
  cases S with
  | shaped =>
    intro context s a s' hrun
    cases hrun
    rfl
  | composed T here => exact Composed.addCode h

theorem still_childUnit {scope : ScopeId} {kind : UnitKind} {name : String} {line : Int}
    (inner : Site → Site) (hinner : ∀ site, inner site =
      ⟨scope, if kind = .classBody then some name else site.className, kind⟩)
    (hscope : S.Grants fun T here => T.holds (.scope (inner here.toSite))) :
    (childUnit scope kind name line).Still S fun u T here =>
      (inner here.toSite).Suits T.scopes u := by
  cases S with
  | shaped =>
    intro context s u s' hrun
    obtain ⟨_, _, hread, hrun⟩ := bind_eq_ok.mp hrun
    cases hread
    cases hfound : context.scopes[scope]? with
    | none =>
      simp only [hfound] at hrun
      cases hrun
    | some found =>
      simp only [hfound] at hrun
      cases hrun
      rfl
  | composed T here =>
    simp only [Setting.Grants, hinner] at hscope
    simp only [Still, hinner]
    exact Composed.childUnit rfl hscope

theorem still_inUnit (inner : Site → Site) {u : UnitInfo} {body : Gen Unit}
    (hu : S.Grants fun T here => (inner here.toSite).Suits T.scopes u)
    (hscope : S.Grants fun T here => T.holds (.scope (inner here.toSite)))
    (hbody : S.Grants fun T here => body.Composes T (inner here.toSite).toSpot) :
    (inUnit u body).Still S fun code T _ => T.codes code := by
  cases S with
  | shaped =>
    intro context s a s' hrun
    rw [inUnit_apply] at hrun
    obtain ⟨⟨code, t⟩, -, hrun⟩ := Result.bind_eq_ok.mp hrun
    cases hrun
    rfl
  | composed T here => exact Composed.inUnit hu hscope hbody

/-! ### Labels -/

section

variable {here there : Shape} {K : List (Label × Shape)} {U U' : List Label}

theorem reached_newLabel (shape : Shape) {entry : Shape} {T : Label → Shape}
    (hrun : newLabel context s = .ok (l, s'))
    (hp : Place.Reached ⟨here, K, U⟩ entry T s.unit.graph) :
    ∃ T', Place.Reached ⟨here, (l, shape) :: K, l :: U⟩ entry T' s'.unit.graph := by
  obtain ⟨rfl, hgraph⟩ := newLabel_eq_ok hrun
  obtain ⟨E, hentry, hlaid⟩ := hp
  have hknown : ∀ x ∈ (s.unit.graph.labels.size, shape) :: K, x ∈ K ∨
      x = (s.unit.graph.labels.size, shape) ∧
        s.unit.graph.labels.size ∈ s.unit.graph.labels.size :: U := by
    intro x hx
    rcases mem_cons.mp hx with rfl | hx
    · exact .inr ⟨rfl, mem_cons_self ..⟩
    · exact .inl hx
  have hlaid' := hlaid.addLabel shape hknown (subset_cons_self _ _)
  rw [← hgraph] at hlaid'
  exact ⟨_, E, hentry, hlaid'⟩

theorem Yields.label {f : Label → Gen β} (shape : Shape)
    (hf : ∀ l, S.Owns l → (f l).Yields S ⟨here, (l, shape) :: K, l :: U⟩ post') :
    (newLabel >>= f).Yields S ⟨here, K, U⟩ post' := by
  cases S with
  | shaped =>
    intro context s b s' hrun entry T hp
    obtain ⟨l, t, hlabel, hrun⟩ := bind_eq_ok.mp hrun
    obtain ⟨T', hp'⟩ := reached_newLabel shape hlabel hp
    exact hf l trivial _ _ _ _ hrun _ _ hp'
  | composed T spot => exact Composed.bind .newLabel hf

/-- A new label of the given shape, which gets its block on the way and is forgotten. -/
theorem Leads.label {f : Label → Gen β} (shape : Shape)
    (hf : ∀ l, S.Owns l →
      (f l).Leads S ⟨here, (l, shape) :: K, l :: U⟩ ⟨there, (l, shape) :: K, U'⟩) :
    (newLabel >>= f).Leads S ⟨here, K, U⟩ ⟨there, K, U'⟩ := by
  apply Yields.label shape
  intro l hl
  exact (hf l hl).weaken (.refl _) ⟨rfl, subset_cons_self _ _, Subset.refl _⟩

/-- Two new labels, where the shape of the first depends on the second. -/
theorem Leads.labels {f : Label → Label → Gen β} (first : Label → Shape) (second : Shape)
    (hf : ∀ a b, S.Owns a → S.Owns b →
      (f a b).Leads S ⟨here, (b, second) :: (a, first b) :: K, b :: a :: U⟩
        ⟨there, (b, second) :: (a, first b) :: K, U'⟩) :
    (newLabel >>= fun a => newLabel >>= fun b => f a b).Leads S ⟨here, K, U⟩ ⟨there, K, U'⟩ := by
  cases S with
  | shaped =>
    intro context s c s' hrun entry T hp
    obtain ⟨a, t, hlabel, hrun⟩ := bind_eq_ok.mp hrun
    obtain ⟨b, t', hlabel', hrun⟩ := bind_eq_ok.mp hrun
    obtain ⟨T₁, hp₁⟩ := reached_newLabel (first b) hlabel hp
    obtain ⟨T₂, hp₂⟩ := reached_newLabel second hlabel' hp₁
    obtain ⟨T₃, _, rfl, hp₃⟩ := hf a b trivial trivial _ _ _ _ hrun _ _ hp₂
    refine ⟨T₃, _, rfl, hp₃.mono ⟨rfl, ?_, Subset.refl _⟩⟩
    exact Subset.trans (subset_cons_self _ _) (subset_cons_self _ _)
  | composed T spot =>
    exact .of_composes <| .bind .newLabel fun a ha => .bind .newLabel fun b hb =>
      (hf a b ha hb).composes

theorem Yields.spareLabel {f : Label → Gen β} (hf : ∀ l, S.Owns l → (f l).Yields S p post') :
    (newLabel >>= f).Yields S p post' := by
  cases S with
  | shaped =>
    intro context s b s' hrun entry T hp
    obtain ⟨l, t, hlabel, hrun⟩ := bind_eq_ok.mp hrun
    obtain ⟨rfl, hgraph⟩ := newLabel_eq_ok hlabel
    obtain ⟨E, hentry, hlaid⟩ := hp
    have hlaid' := hlaid.addLabel p.shape (fun x hx => .inl hx) (Subset.refl _)
    rw [← hgraph] at hlaid'
    exact hf _ trivial _ _ _ _ hrun _ _ ⟨E, hentry, hlaid'⟩
  | composed T spot => exact Composed.bind .newLabel hf

theorem leads_bindLabel (hown : S.Owns l) (U' : List Label) (hl : (l, here) ∈ K := by simp)
    (hU : ∀ x ∈ U, x = l ∨ x ∈ U' := by simp +contextual) :
    (bindLabel l).Leads S ⟨here, K, U⟩ ⟨here, K, U'⟩ := by
  cases S with
  | shaped =>
    intro context s a s' hrun entry T hp
    obtain ⟨E, hentry, hlaid⟩ := hp
    have hbind := editGraph_eq_ok hrun
    obtain ⟨E', hentry', hlaid'⟩ := hlaid.bindLabel (hlaid.known _ hl).1 hbind hU
    exact ⟨T, _, rfl, E', hentry'.trans hentry, hlaid'⟩
  | composed T spot => exact .of_composes (.bindLabel hown)

theorem leads_bindFirst (hown : S.Owns l) (hl : (l, here) ∈ K := by simp) :
    (bindLabel l).Leads S ⟨here, K, l :: U⟩ ⟨here, K, U⟩ :=
  leads_bindLabel hown U hl

/-! ### Instructions -/

theorem leads_addInstr {i : Instr}
    (hcomposes : S.Grants fun T spot => (editGraph edit).Composes T spot)
    (hedit : ∀ {g h}, edit g = .ok h → h = g.addInstr i) (htarget : i.target = none)
    (hlabel : ∀ l, i.label? = some l → ∃ t, (l, t) ∈ K)
    (hi : ∀ T : Label → Shape, (∀ x ∈ K, T x.1 = x.2) →
      Shaped Instr.label? (fun l => some (T l)) (· = there) [i] here) :
    (editGraph edit).Leads S ⟨here, K, U⟩ ⟨there, K, U⟩ := by
  cases S with
  | composed T spot => exact .of_composes hcomposes
  | shaped =>
    intro context s a s' hrun entry T hp
    obtain ⟨E, hentry, hlaid⟩ := hp
    have hgraph := hedit (editGraph_eq_ok hrun)
    have huses : ∀ l, i.label? = some l → s.unit.graph.CanUse U l := by
      intro l hl
      obtain ⟨t, ht⟩ := hlabel l hl
      exact (hlaid.known _ ht).2
    obtain ⟨E', hentry', hlaid'⟩ :=
      hlaid.addInstr htarget huses (hi T fun x hx => (hlaid.known x hx).1)
    rw [hgraph]
    exact ⟨T, _, rfl, E', hentry'.trans hentry, hlaid'⟩

end

end Gen

end Bytecode
