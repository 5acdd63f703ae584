import Bytecode.Proofs.Assembly.Faults
import Bytecode.Proofs.Composition.Mentions
import Bytecode.Proofs.Scope.Nesting

/-!
# The walk through a tree

The walk through a tree opens scopes one inside another and enters names in them. Nothing is taken
away, and what the tree mentions is entered: every name that the code of a function accesses has an
entry in the scope of that function, and every node that opens a scope has one.
-/

namespace Bytecode

open List ScopeTable

variable {s : Scope}

namespace ScopeTable

variable {t t' t'' : ScopeTable} {x : Mention}

/-- What is mentioned is in the table. A comprehension has its argument as the first parameter. -/
def Entered (t : ScopeTable) : Mention → Prop
  | .name site name => site.kind.isFunctionLike →
    ((t.scope site.scope).lookup (mangle site.className name)).isSome
  | .scope site => site.scope < t.size ∧ (site.kind = .comprehension →
    (t.scope site.scope).params.head? = some ".0" ∧ ((t.scope site.scope).lookup ".0").isSome)

/-- The table has grown: scopes stay nested, and keep their kind, their names and the order of their
parameters. -/
structure Grows (t t' : ScopeTable) : Prop where
  nested : t.Nested → t'.Nested
  size : t.size ≤ t'.size
  kind : ∀ id < t.size, (t'.scope id).kind = (t.scope id).kind
  names : ∀ id n, ((t.scope id).lookup n).isSome → ((t'.scope id).lookup n).isSome
  params : ∀ id, (t.scope id).params <+: (t'.scope id).params

theorem Grows.refl (t : ScopeTable) : t.Grows t :=
  ⟨id, Nat.le_refl _, fun _ _ => rfl, fun _ _ h => h, fun _ => prefix_refl _⟩

theorem Grows.trans (h : t.Grows t') (h' : t'.Grows t'') : t.Grows t'' where
  nested := h'.nested ∘ h.nested
  size := Nat.le_trans h.size h'.size
  kind id hid := (h'.kind id (Nat.lt_of_lt_of_le hid h.size)).trans (h.kind id hid)
  names id n hn := h'.names id n (h.names id n hn)
  params id := (h.params id).trans (h'.params id)

theorem Entered.mono (hx : t.Entered x) (h : t.Grows t') : t'.Entered x := by
  cases x with
  | name site name => exact fun hkind => h.names _ _ (hx hkind)
  | scope site =>
    refine ⟨Nat.lt_of_lt_of_le hx.1 h.size, fun hkind => ?_⟩
    obtain ⟨hhead, hentry⟩ := hx.2 hkind
    obtain ⟨rest, hrest⟩ := h.params site.scope
    refine ⟨?_, h.names _ _ hentry⟩
    rw [← hrest, head?_append, hhead]
    rfl

theorem grows_modify (t : ScopeTable) (id : ScopeId) {f : Scope → Scope} (hf : Change f) :
    t.Grows (Array.modify t id f) where
  nested ht := ht.modify id hf
  size := by simp
  kind j _ := by
    rw [scope_modify]
    split
    · exact (hf.place _).1
    · rfl
  names j n hn := by
    rw [scope_modify]
    split
    · exact hf.names _ _ hn
    · exact hn
  params j := by
    rw [scope_modify]
    split
    · exact hf.params _
    · exact prefix_refl _

theorem grows_opened (t : ScopeTable) {p : Nat} (hp : p < t.size)
    (hs : t.Nested → (t.opened p s).Nested) : t.Grows (t.opened p s) where
  nested := hs
  size := by simp
  kind j hj := by rw [scope_opened_of_ne hp (Nat.ne_of_lt hj)]
  names j n hn := by
    by_cases hj : j = t.size
    · -- There is no scope at that place yet.
      rw [hj, scope, Array.getElem?_size] at hn
      cases hn
    · rw [scope_opened_of_ne hp hj]
      exact hn
  params j := by
    by_cases hj : j = t.size
    · rw [hj, scope, Array.getElem?_size]
      exact nil_prefix
    · simp only [scope_opened_of_ne hp hj, prefix_rfl]

end ScopeTable

theorem Scope.lookup_record_of_isSome {n : String} (h : (s.lookup n).isSome) (name : String)
    (usage : Usage) (loc : Location) : ((s.record name usage loc).lookup n).isSome := by
  rw [lookup_isSome_iff] at h ⊢
  unfold record
  dsimp only
  split
  · rw [map_map]
    obtain ⟨x, hx, rfl⟩ := mem_map.mp h
    refine mem_map.mpr ⟨x, hx, ?_⟩
    dsimp only [Function.comp]
    split <;> rfl
  · rw [map_append]
    exact mem_append_left _ h

theorem Scope.lookup_record_self (s : Scope) (name : String) (usage : Usage) (loc : Location) :
    ((s.record name usage loc).lookup name).isSome := by
  by_cases hknown : (s.lookup name).isSome
  · exact lookup_record_of_isSome hknown name usage loc
  · rw [lookup_isSome_iff]
    unfold record
    dsimp only
    rw [if_neg hknown, map_append]
    exact mem_append_right _ (mem_singleton_self _)

/-! ### Steps of the walk -/

theorem Site.not_isFunctionLike_classBody (id : ScopeId) (name : String) :
    ¬(Site.classBody id name).kind.isFunctionLike :=
  nofun

namespace Collect

variable {α β : Type} {site : Site} {known : List Mention} {w : Collect α} {F : α → List Mention}
  {G : β → List Mention} {c : CollectContext} {t t' : ScopeTable} {id : ScopeId}

variable {usage : Usage} {f : α → Collect β} {loc : Location}

theorem bind_eq_ok {b : β} : (w >>= f) c t = .ok (b, t') ↔
    ∃ a t₁, w c t = .ok (a, t₁) ∧ f a c t₁ = .ok (b, t') :=
  Result.bind_eq_ok.trans Prod.exists

theorem bind_eq_error {e : CompileError} (h : (w >>= f) c t = .error e) :
    w c t = .error e ∨ ∃ a t₁, w c t = .ok (a, t₁) ∧ f a c t₁ = .error e := by
  rcases Result.bind_eq_error.mp h with hw | ⟨⟨a, t₁⟩, hw, hf⟩
  · exact .inl hw
  · exact .inr ⟨a, t₁, hw, hf⟩

structure At (site : Site) (c : CollectContext) (t : ScopeTable) : Prop where
  current : c.current = site.scope
  className : c.className = site.className
  lt : site.scope < t.size
  kind : site.kind.isFunctionLike → (t.scope site.scope).kind = .function

theorem At.mono (h : At site c t) (hgrows : t.Grows t') : At site c t' where
  current := h.current
  className := h.className
  lt := Nat.lt_of_lt_of_le h.lt hgrows.size
  kind hkind := (hgrows.kind _ h.lt).trans (h.kind hkind)

/-- A walk at the site takes nothing away, and enters what its result mentions if what is known is
entered before. It does not stop for want of a scope. -/
structure Enlists (site : Site) (known : List Mention) (w : Collect α) (F : α → List Mention) :
    Prop where
  entered : ∀ c t a t', At site c t → (∀ x ∈ known, t.Entered x) → w c t = .ok (a, t') →
    t.Grows t' ∧ ∀ x ∈ F a, t'.Entered x
  found : ∀ c t, Result.FindsScopes (w c t)

theorem Enlists.pure {a : α} (h : F a ⊆ known := by simp) :
    Enlists site known (Pure.pure a) F where
  entered c t b t' _ hknown hrun := by
    cases hrun
    exact ⟨.refl t, fun x hx => hknown x (h hx)⟩
  found c t := nofun

/-- A step, of whose result something is known by other means. -/
theorem Enlists.bindOf {P : α → Prop} (hw : Enlists site [] w F)
    (hP : ∀ c t a t', w c t = .ok (a, t') → P a)
    (hf : ∀ a, P a → Enlists site (F a ++ known) (f a) G) : Enlists site known (w >>= f) G where
  entered c t b t' hc hknown hrun := by
    obtain ⟨a, t₁, hfirst, hrest⟩ := bind_eq_ok.mp hrun
    obtain ⟨hgrows, ha⟩ := hw.entered c t a t₁ hc (by simp) hfirst
    have hknown' : ∀ x ∈ F a ++ known, t₁.Entered x :=
      forall_mem_append.mpr ⟨ha, fun x hx => (hknown x hx).mono hgrows⟩
    obtain ⟨hgrows', hb⟩ :=
      (hf a (hP _ _ _ _ hfirst)).entered c t₁ b t' (hc.mono hgrows) hknown' hrest
    exact ⟨hgrows.trans hgrows', hb⟩
  found c t hrun := by
    rcases bind_eq_error hrun with hfirst | ⟨a, t₁, hfirst, hrest⟩
    · exact hw.found c t hfirst
    · exact (hf a (hP _ _ _ _ hfirst)).found c t₁ hrest

theorem Enlists.bind (hw : Enlists site [] w F) (hf : ∀ a, Enlists site (F a ++ known) (f a) G) :
    Enlists site known (w >>= f) G :=
  hw.bindOf (P := fun _ => True) (fun _ _ _ _ _ => trivial) fun a _ => hf a

/-- The last step of a walk, after which what was known still is. -/
theorem Enlists.last {G : α → List Mention} (hw : Enlists site [] w F)
    (h : ∀ a, G a ⊆ F a ++ known) : Enlists site known w G where
  entered c t a t' hc hknown hrun := by
    obtain ⟨hgrows, ha⟩ := hw.entered c t a t' hc (by simp) hrun
    have hknown' : ∀ x ∈ F a ++ known, t'.Entered x :=
      forall_mem_append.mpr ⟨ha, fun x hx => (hknown x hx).mono hgrows⟩
    exact ⟨hgrows, fun x hx => hknown' x (h a hx)⟩
  found := hw.found

/-- A last step whose result is put into another. -/
theorem Enlists.map {g : α → β} (hw : Enlists site [] w F)
    (h : ∀ a, G (g a) ⊆ F a ++ known := by simp) :
    Enlists site known (do return g (← w)) G :=
  .bind hw fun a => .pure (h a)

theorem Enlists.withNames {other : Site} (names : List String) (h : ¬other.kind.isFunctionLike)
    (hw : Enlists site (mentionsNames other names ++ known) w F) : Enlists site known w F where
  entered c t a t' hc hknown hrun := by
    refine hw.entered c t a t' hc (forall_mem_append.mpr ⟨fun x hx => ?_, hknown⟩) hrun
    obtain ⟨name, -, rfl⟩ := mem_map.mp hx
    exact fun hlike => absurd hlike h
  found := hw.found

theorem Enlists.forM {l : List α} {f : α → Collect PUnit} {g : α → List Mention}
    (hf : ∀ a, Enlists site [] (f a) fun _ => g a) :
    Enlists site [] (l.forM f) fun _ => l.flatMap g := by
  induction l with
  | nil => exact .pure (Subset.refl _)
  | cons a l ih =>
    refine .bind (hf a) fun _ => .last ih fun _ => ?_
    rw [flatMap_cons]
    exact append_subset.mpr ⟨by simp, by simp⟩

theorem Enlists.throw {e : CompileError} (he : e ≠ .internal .noScope) :
    Enlists site known (throw e : Collect α) F where
  entered c t a t' _ _ hrun := by cases hrun
  found c t hrun := he (Except.error.inj hrun)

theorem Enlists.read :
    Enlists site known (MonadReader.read : Collect CollectContext) fun _ => [] where
  entered c t a t' _ _ hrun := by
    cases hrun
    exact ⟨.refl t, by simp⟩
  found c t := nofun

theorem Enlists.get : Enlists site known (MonadState.get : Collect ScopeTable) fun _ => [] where
  entered c t a t' _ _ hrun := by
    cases hrun
    exact ⟨.refl t, by simp⟩
  found c t := nofun

theorem enlists_refuse {fault : SourceFault} :
    Enlists site known (refuse fault loc : Collect α) F :=
  .bind .read fun _ => .throw nofun

theorem enlists_scope : Enlists site known scope fun _ => [] :=
  .bind .get fun _ => .bind .read fun _ => .pure

theorem enlists_modifyScope (id : ScopeId) {f : Scope → Scope} (hf : Change f) :
    Enlists site known (modifyScope id f) fun _ => [] where
  entered c t a t' _ _ hrun := by
    cases hrun
    exact ⟨t.grows_modify id hf, by simp⟩
  found c t := nofun

theorem grows_record (t : ScopeTable) (id : ScopeId) (name : String)
    (husage : usage.isRecorded) (loc : Location) :
    t.Grows (Array.modify t id (·.record name usage loc)) := by
  refine t.grows_modify id ⟨fun _ => ⟨rfl, rfl, rfl⟩, fun s => s.nodup_record _ _ _,
    fun s => s.fresh_record _ husage _, fun s n hn => s.lookup_record_of_isSome hn _ _ _,
    fun s => ?_⟩
  unfold Scope.record
  dsimp only
  split
  · exact prefix_append _ _
  · exact prefix_refl _

theorem recordIn_eq_ok {name : String} {a : Unit}
    (h : recordIn id name usage loc c t = .ok (a, t')) :
    t' = Array.modify t id (·.record (mangle c.className name) usage loc) := by
  obtain ⟨_, _, hread, h⟩ := bind_eq_ok.mp h
  cases hread
  obtain ⟨_, _, hget, h⟩ := bind_eq_ok.mp h
  cases hget
  split at h <;> cases h
  rfl

theorem record_eq_ok {name : String} {a : Unit} (h : record name usage loc c t = .ok (a, t')) :
    t' = Array.modify t c.current (·.record (mangle c.className name) usage loc) := by
  obtain ⟨_, _, hread, h⟩ := bind_eq_ok.mp h
  cases hread
  exact recordIn_eq_ok h

theorem recordIn_found (id : ScopeId) (name : String) (usage : Usage) (loc : Location)
    (c : CollectContext) (t : ScopeTable) :
    Result.FindsScopes (recordIn id name usage loc c t) := by
  intro h
  rcases bind_eq_error h with h | ⟨_, _, hread, h⟩
  · cases h
  cases hread
  rcases bind_eq_error h with h | ⟨_, _, hget, h⟩
  · cases h
  cases hget
  dsimp only at h
  split at h <;> cases h

theorem enlists_recordIn (id : ScopeId) (name : String) (husage : usage.isRecorded)
    (loc : Location) :
    Enlists site known (recordIn id name usage loc) fun _ => [] where
  entered c t a t' _ _ hrun := by
    rw [recordIn_eq_ok hrun]
    exact ⟨grows_record t id _ husage _, by simp⟩
  found := recordIn_found id name usage loc

theorem enlists_record (name : String) (husage : usage.isRecorded) (loc : Location) :
    Enlists site known (record name usage loc) fun _ => [.name site name] where
  entered c t a t' hc _ hrun := by
    rw [record_eq_ok hrun]
    refine ⟨grows_record t _ _ husage _, ?_⟩
    rw [forall_mem_singleton]
    intro _
    rw [scope_modify, if_pos ⟨hc.current, hc.lt⟩, hc.className]
    exact Scope.lookup_record_self _ _ _ _
  found c t := recordIn_found c.current name usage loc c t

theorem enlists_assign (name : String) (loc : Location) :
    Enlists site known (assign name loc) fun _ => [.name site name] :=
  enlists_record name rfl loc

theorem enlists_assign? (name : Option String) (loc : Location) :
    Enlists site known (assign? name loc) fun _ => mentionsNames site name.toList := by
  cases name with
  | none => exact .pure (nil_subset _)
  | some name => exact enlists_assign name loc

theorem enlists_use (name : String) (loc : Location) :
    Enlists site [] (use name loc) fun _ => [.name site name] := by
  refine .bind (enlists_record name rfl loc) fun _ => .bind enlists_scope fun _ => ?_
  split
  · exact .last (enlists_record _ rfl _) fun _ => by simp
  · exact .pure

theorem enlists_parameters {ε : Type} (params : Parameters ε) :
    Enlists site [] (parameters params) fun _ => [] :=
  .last (.forM fun _ => enlists_record _ rfl _) fun _ => nil_subset _

theorem enlists_markGenerator (loc : Location) :
    Enlists site known (markGenerator loc) fun _ => [] := by
  refine .bind enlists_scope fun _ => ?_
  split
  · exact enlists_refuse
  · split
    · exact .bind .read fun _ => enlists_modifyScope _ (.flags (fun _ => true) (·.isCoroutine))
    · exact .pure (nil_subset _)

theorem enlists_markAwait : Enlists site known markAwait fun _ => [] := by
  refine .bind enlists_scope fun _ => ?_
  split
  · exact .bind .read fun _ => enlists_modifyScope _ (.flags (·.isGenerator) fun _ => true)
  · exact .pure (nil_subset _)

/-- An assignment inside of an expression is recorded in a comprehension as well as around it. -/
theorem enlists_assignNamed (name : String) (loc : Location) :
    Enlists site [] (assignNamed name loc) fun _ => [.name site name] := by
  refine .bind .read fun _ => .bind enlists_scope fun _ => ?_
  split
  · exact enlists_assign name loc
  · refine .bind .get fun _ => .bind .get fun _ => ?_
    split
    case h_1 => exact enlists_refuse
    all_goals
      exact .bind (enlists_record _ rfl _) fun _ =>
        .last (enlists_recordIn _ _ rfl _) fun _ => by simp

theorem enlists_declare (names : List String) (as : Declaration) (loc : Location) :
    Enlists site [] (declare names as loc) fun _ => [] := by
  refine .last (F := fun _ => names.flatMap fun _ => []) (.forM fun name => ?_) fun _ =>
    nil_subset _
  refine .bind enlists_scope fun _ => .bind .read fun _ => ?_
  dsimp only
  split
  · exact enlists_refuse
  · exact .last (enlists_record _ (by cases as <;> rfl) _) fun _ => nil_subset _

theorem enlists_annotate (name : String) (loc : Location) :
    Enlists site [] (annotate name loc) fun _ => [.name site name] := by
  refine .bind enlists_scope fun _ => .bind .read fun _ => ?_
  dsimp only
  split
  · split
    · exact enlists_refuse
    · split
      · exact enlists_refuse
      · exact enlists_record _ rfl _
  · exact enlists_record _ rfl _

theorem enlists_importModules (names : List Alias) :
    Enlists site [] (importModules names) fun _ =>
      mentionsNames site (names.map fun a => a.asName.getD (headPart a.name)) := by
  refine .last (.forM fun a => enlists_record _ rfl _) fun _ => ?_
  rw [mentionsNames, map_map, ← map_eq_flatMap]
  exact subset_append_left _ _

/-- Everything is imported only into a module, whose code finds names without entries. -/
theorem enlists_importFrom (names : List Alias) :
    Enlists site [] (importFrom names) fun _ =>
      mentionsNames site (names.map fun a => a.asName.getD a.name) := by
  have hone : ∀ a : Alias, Enlists site [] (do
      if a.name = "*" then
        if (← scope).kind ≠ .module then refuse .importStarInScope a.loc
      else record (a.asName.getD a.name) { imported := true } a.loc)
      fun _ => [.name site (a.asName.getD a.name)] := by
    intro a
    split
    · refine ⟨fun c t b t' hc _ hrun => ?_, fun c t hrun => ?_⟩
      · obtain ⟨s, t₁, hscope, hrun⟩ := bind_eq_ok.mp hrun
        cases hscope
        split at hrun
        · cases hrun
        next hmodule =>
          cases hrun
          refine ⟨.refl t, ?_⟩
          rw [forall_mem_singleton]
          intro hkind
          rw [hc.current, hc.kind hkind] at hmodule
          exact absurd hmodule (by simp)
      · rcases bind_eq_error hrun with hscope | ⟨s, t₁, hscope, hrun⟩
        · cases hscope
        · split at hrun <;> cases hrun
    · exact enlists_record _ rfl _
  refine .last (.forM hone) fun _ => ?_
  rw [mentionsNames, map_map, ← map_eq_flatMap]
  exact subset_append_left _ _

/-! ### Scopes inside -/

/-- A walk from a site enters the site of a scope that opens. -/
structure Opens (site : Site) (s : Scope) (enter : ScopeId → CollectContext → CollectContext)
    (inner : ScopeId → Site) : Prop where
  scope : ∀ id, (inner id).scope = id
  current : ∀ id c, (enter id c).current = id
  className : ∀ id c, c.className = site.className → (enter id c).className = (inner id).className
  kind : ∀ id, (inner id).kind.isFunctionLike → s.kind = .function
  nested : s.kind ≠ .module ∧ s.children = [] ∧ s.symbols = []

theorem opens_inner (kind : UnitKind) (hs : s.kind = .function)
    (hnested : s.kind ≠ .module ∧ s.children = [] ∧ s.symbols = []) :
    Opens site s (fun id c => { c with current := id }) fun id => site.inner id kind :=
  ⟨fun _ => rfl, fun _ _ => rfl, fun _ _ h => h, fun _ _ => hs, hnested⟩

theorem opens_class (name : String)
    (hnested : s.kind ≠ .module ∧ s.children = [] ∧ s.symbols = []) :
    Opens site s (fun id c => { c with current := id, className := some name })
      fun id => .classBody id name :=
  ⟨fun _ => rfl, fun _ _ => rfl, fun _ _ _ => rfl, fun _ => nofun, hnested⟩

section Inside

variable {s : Scope} {enter : ScopeId → CollectContext → CollectContext} {inner : ScopeId → Site}

theorem openScope_eq_ok (h : openScope s c t = .ok (id, t')) :
    id = t.size ∧ ∃ b, t' = t.opened c.current
      { s with parent := some c.current, isNested := b } := by
  cases h
  exact ⟨rfl, _, rfl⟩

theorem Opens.at_inner (h : Opens site s enter inner) (hc : At site c t)
    (hopen : openScope s c t = .ok (id, t')) :
    t.Grows t' ∧ At (inner id) (enter id c) t' ∧ (t'.scope id).params = s.params := by
  have hp : c.current < t.size := hc.current ▸ hc.lt
  obtain ⟨hkind, hchildren, hsymbols⟩ := h.nested
  obtain ⟨rfl, _, rfl⟩ := openScope_eq_ok hopen
  refine ⟨t.grows_opened hp fun ht => ht.opened hp hkind rfl hchildren hsymbols,
    ⟨?_, h.className _ c hc.className, ?_, fun hlike => ?_⟩, ?_⟩
  · rw [h.current, h.scope]
  · rw [h.scope, size_opened]
    exact Nat.lt_succ_self _
  · rw [h.scope, scope_opened_self hp]
    exact h.kind _ hlike
  · rw [scope_opened_self hp]

theorem Enlists.inside {f : ScopeId → Collect α} (hs : Opens site s enter inner)
    (hplain : ∀ id, (inner id).kind ≠ .comprehension)
    (hf : ∀ id, Enlists (inner id) (.scope (inner id) :: known) (f id) F) :
    Enlists site known (openScope s >>= fun id => withReader (enter id) (f id)) F where
  entered c t a t' hc hknown hrun := by
    obtain ⟨id, t₁, hopen, hrest⟩ := bind_eq_ok.mp hrun
    obtain ⟨hgrows, hinner, -⟩ := hs.at_inner hc hopen
    have hknown' : ∀ x ∈ Mention.scope (inner id) :: known, t₁.Entered x :=
      forall_mem_cons.mpr ⟨⟨hinner.lt, fun h => absurd h (hplain id)⟩,
        fun x hx => (hknown x hx).mono hgrows⟩
    obtain ⟨hgrows', ha⟩ := (hf id).entered _ t₁ a t' hinner hknown' hrest
    exact ⟨hgrows.trans hgrows', ha⟩
  found c t hrun := by
    rcases bind_eq_error hrun with hopen | ⟨id, t₁, -, hrest⟩
    · cases hopen
    · exact (hf id).found _ t₁ hrest

theorem mangle_argument (className : Option String) : mangle className ".0" = ".0" := by
  cases className with
  | none => rfl
  | some className =>
    have hpublic : isPrivateName ".0" = false := by decide
    simp [mangle, hpublic]

/-- A walk in the scope of a comprehension, which starts with its argument. -/
theorem Enlists.insideComprehension {f : ScopeId → Collect α} (hs : Opens site s enter inner)
    (hparams : s.params = [])
    (hf : ∀ id, Enlists (inner id) (.scope (inner id) :: known) (f id) F) :
    Enlists site known (openScope s >>= fun id => withReader (enter id) do
      record ".0" { parameter := true } loc
      f id) F where
  entered c t a t' hc hknown hrun := by
    obtain ⟨id, t₁, hopen, hrest⟩ := bind_eq_ok.mp hrun
    obtain ⟨hgrows, hinner, hempty⟩ := hs.at_inner hc hopen
    have hwalk : (do record ".0" { parameter := true } loc; f id : Collect α) (enter id c) t₁ =
        .ok (a, t') := hrest
    obtain ⟨_, t₂, hrecord, hrest⟩ := bind_eq_ok.mp hwalk
    have hadd := record_eq_ok hrecord
    rw [mangle_argument] at hadd
    subst hadd
    have hgrows₂ : t₁.Grows (Array.modify t₁ (enter id c).current
        (·.record ".0" { parameter := true } loc)) := grows_record t₁ _ _ rfl _
    have hargument : Entered (Array.modify t₁ (enter id c).current
        (·.record ".0" { parameter := true } loc)) (.scope (inner id)) := by
      refine ⟨Nat.lt_of_lt_of_le hinner.lt hgrows₂.size, fun _ => ?_⟩
      rw [scope_modify, if_pos ⟨hinner.current, hinner.lt⟩]
      refine ⟨?_, Scope.lookup_record_self _ _ _ _⟩
      show ((t₁.scope (inner id).scope).params ++ [".0"]).head? = some ".0"
      rw [hs.scope, hempty, hparams]
      rfl
    obtain ⟨hgrows₃, ha⟩ := (hf id).entered _ _ a t' (hinner.mono hgrows₂)
      (forall_mem_cons.mpr ⟨hargument, fun x hx => ((hknown x hx).mono hgrows).mono hgrows₂⟩)
      hrest
    exact ⟨(hgrows.trans hgrows₂).trans hgrows₃, ha⟩
  found c t hrun := by
    rcases bind_eq_error hrun with hopen | ⟨id, t₁, -, hrest⟩
    · cases hopen
    · have hwalk : (do record ".0" { parameter := true } loc; f id : Collect α) (enter id c) t₁ =
          .error (.internal .noScope) := hrest
      rcases bind_eq_error hwalk with hrecord | ⟨_, t₂, -, hrest⟩
      · exact recordIn_found _ _ _ _ _ t₁ hrecord
      · exact (hf id).found _ t₂ hrest

end Inside

end Collect

/-! ### The walk -/

open Collect

attribute [local simp] mentionsExpr mentionsExprs mentionsOptional mentionsOptionals
  mentionsKeywords mentionsParameter mentionsParameterList mentionsOptionalParameter
  mentionsGenerators mentionsElement mentionsPattern mentionsPatterns mentionsOptionalPattern
  mentionsWithItems mentionsStmt mentionsBody mentionsCases mentionsHandlers

mutual

theorem enlists_expr (asTarget : Bool) {site : Site} :
    ∀ e, Enlists site [] (collectExpr asTarget e) (mentionsExpr site)
  | .boolOp loc op values => .map (enlists_exprs false values)
  | .named loc target value => by
    rw [collectExpr]
    refine .bind (enlists_expr false value) fun _ => ?_
    split
    · exact .map (enlists_assignNamed _ _)
    · exact enlists_refuse
  | .binary loc left op right =>
    .bind (enlists_expr false left) fun _ =>
    .map (enlists_expr false right)
  | .unary loc op operand => .map (enlists_expr false operand)
  | .lambda loc _ params body =>
    .bind (enlists_collectParameters params) fun _ =>
    .inside (opens_inner .lambda rfl (by simp)) (fun _ => nofun) fun _ =>
    .bind (enlists_parameters _) fun _ =>
    .map (enlists_expr false body)
  | .conditional loc test body orElse =>
    .bind (enlists_expr false test) fun _ =>
    .bind (enlists_expr false body) fun _ =>
    .map (enlists_expr false orElse)
  | .dict loc keys values =>
    .bind (enlists_optionals keys) fun _ =>
    .map (enlists_exprs false values)
  | .set loc items => .map (enlists_exprs false items)
  | .list loc items | .tuple loc items => .map (enlists_exprs asTarget items)
  | .comprehension _ _ _ [] => .throw nofun
  | .comprehension loc _ element (⟨target, iter, conditions, isAsync⟩ :: generators) =>
    .bind (enlists_expr false iter) fun _ =>
    .insideComprehension (opens_inner .comprehension rfl (by simp)) rfl fun _ =>
    .bind (enlists_expr true target) fun _ =>
    .bind (enlists_exprs false conditions) fun _ =>
    .bind (enlists_generators generators) fun _ =>
    .map (enlists_element element) (by grind [mentionsExpr])
  | .await loc value =>
    .bind (enlists_expr false value) fun _ =>
    .map enlists_markAwait
  | .yield loc value =>
    .bind (enlists_optional value) fun _ =>
    .map (enlists_markGenerator _)
  | .yieldFrom loc value =>
    .bind (enlists_expr false value) fun _ =>
    .map (enlists_markGenerator _)
  | .compare loc left ops comparators =>
    .bind (enlists_expr false left) fun _ =>
    .map (enlists_exprs false comparators)
  | .call loc func args keywords =>
    .bind (enlists_expr false func) fun _ =>
    .bind (enlists_exprs false args) fun _ =>
    .map (enlists_keywords keywords)
  | .formatted loc value conversion spec =>
    .bind (enlists_expr false value) fun _ =>
    .map (enlists_optional spec)
  | .joined loc values => .map (enlists_exprs false values)
  | .constant loc value => .pure
  | .member loc value attr => .map (enlists_expr false value)
  | .subscript loc value index =>
    .bind (enlists_expr false value) fun _ =>
    .map (enlists_expr false index)
  | .starred loc value => .map (enlists_expr asTarget value)
  | .name loc id => by
    rw [collectExpr]
    split
    · exact .map (enlists_assign _ _)
    · exact .map (enlists_use _ _)
  | .slice loc lower upper step =>
    .bind (enlists_optional lower) fun _ =>
    .bind (enlists_optional upper) fun _ =>
    .map (enlists_optional step)

theorem enlists_exprs (asTarget : Bool) {site : Site} :
    ∀ es, Enlists site [] (collectExprs asTarget es) (mentionsExprs site)
  | [] => .pure
  | e :: es =>
    .bind (enlists_expr asTarget e) fun _ =>
    .map (enlists_exprs asTarget es)

theorem enlists_optional {site : Site} :
    ∀ e, Enlists site [] (collectOptional e) (mentionsOptional site)
  | none => .pure
  | some e => .map (enlists_expr false e)

theorem enlists_optionals {site : Site} :
    ∀ es, Enlists site [] (collectOptionals es) (mentionsOptionals site)
  | [] => .pure
  | e :: es =>
    .bind (enlists_optional e) fun _ =>
    .map (enlists_optionals es)

theorem enlists_keywords {site : Site} :
    ∀ keywords, Enlists site [] (collectKeywords keywords) (mentionsKeywords site)
  | [] => .pure
  | ⟨_, value, _⟩ :: keywords =>
    .bind (enlists_expr false value) fun _ =>
    .map (enlists_keywords keywords)

theorem enlists_parameter {site : Site} :
    ∀ p, Enlists site [] (collectParameter p) (mentionsParameter site)
  | ⟨_, hint, _⟩ => .map (enlists_optional hint)

theorem enlists_parameterList {site : Site} :
    ∀ ps, Enlists site [] (collectParameterList ps) (mentionsParameterList site)
  | [] => .pure
  | p :: ps =>
    .bind (enlists_parameter p) fun _ =>
    .map (enlists_parameterList ps)

theorem enlists_optionalParameter {site : Site} :
    ∀ p, Enlists site [] (collectOptionalParameter p) (mentionsOptionalParameter site)
  | none => .pure
  | some p => .map (enlists_parameter p)

theorem enlists_collectParameters {site : Site} :
    ∀ params, Enlists site [] (collectParameters params) (mentionsParameters site)
  | ⟨positionalOnly, positional, variadic, keywordOnly, keywordDefaults, keywordVariadic,
      defaults⟩ =>
    .bind (enlists_exprs false defaults) fun _ =>
    .bind (enlists_optionals keywordDefaults) fun _ =>
    .bind (enlists_parameterList positionalOnly) fun _ =>
    .bind (enlists_parameterList positional) fun _ =>
    .bind (enlists_parameterList keywordOnly) fun _ =>
    .bind (enlists_optionalParameter variadic) fun _ =>
    .map (enlists_optionalParameter keywordVariadic) (by grind [mentionsParameters])

theorem enlists_generators {site : Site} :
    ∀ generators, Enlists site [] (collectGenerators generators) (mentionsGenerators site)
  | [] => .pure
  | ⟨target, iter, conditions, _⟩ :: generators =>
    .bind (enlists_expr false iter) fun _ =>
    .bind (enlists_expr true target) fun _ =>
    .bind (enlists_exprs false conditions) fun _ =>
    .map (enlists_generators generators) (by grind [mentionsGenerators])

theorem enlists_element {site : Site} :
    ∀ element, Enlists site [] (collectElement element) (mentionsElement site)
  | .list item | .set item | .generator item => .map (enlists_expr false item)
  | .dict key value =>
    .bind (enlists_expr false key) fun _ =>
    .map (enlists_expr false value)

end

mutual

theorem enlists_pattern {site : Site} :
    ∀ p, Enlists site [] (collectPattern p) (mentionsPattern site)
  | .value _ value => .map (enlists_expr false value)
  | .singleton _ _ => .pure
  | .sequence _ patterns | .alternatives _ patterns => .map (enlists_patterns patterns)
  | .mapping _ keys patterns _ =>
    .bind (enlists_exprs false keys) fun _ =>
    .bind (enlists_patterns patterns) fun _ =>
    .map (enlists_assign? _ _)
  | .classPattern _ cls patterns _ attrPatterns =>
    .bind (enlists_expr false cls) fun _ =>
    .bind (enlists_patterns patterns) fun _ =>
    .map (enlists_patterns attrPatterns)
  | .star _ _ => .map (enlists_assign? _ _)
  | .capture _ pattern _ =>
    .bind (enlists_optionalPattern pattern) fun _ =>
    .map (enlists_assign? _ _)

theorem enlists_patterns {site : Site} :
    ∀ ps, Enlists site [] (collectPatterns ps) (mentionsPatterns site)
  | [] => .pure
  | p :: ps =>
    .bind (enlists_pattern p) fun _ =>
    .map (enlists_patterns ps)

theorem enlists_optionalPattern {site : Site} :
    ∀ p, Enlists site [] (collectOptionalPattern p) (mentionsOptionalPattern site)
  | none => .pure
  | some p => .map (enlists_pattern p)

end

theorem enlists_withItems {site : Site} :
    ∀ items, Enlists site [] (collectWithItems items) (mentionsWithItems site)
  | [] => .pure
  | ⟨context, target⟩ :: items => by
    have htarget : Enlists site [] (target.mapM (collectExpr true)) (mentionsOptional site) := by
      cases target with
      | none => exact .pure
      | some target =>
        exact .map (enlists_expr true target)
    exact .bind (enlists_expr false context) fun _ =>
      .bind htarget fun _ =>
      .map (enlists_withItems items)

theorem mentionsAnnotated_subset (site : Site) (target : Expr ScopeId) (hasValue simple : Bool) :
    mentionsAnnotated site target hasValue simple ⊆ mentionsExpr site target := by
  unfold mentionsAnnotated
  split
  · split
    · simp [mentionsExpr]
    · exact nil_subset _
  · exact Subset.refl _

theorem enlists_annotated {site : Site} (target : Expr Unit) (hasValue simple : Bool) :
    Enlists site [] (collectAnnotated target hasValue simple)
      (mentionsAnnotated site · hasValue simple) := by
  unfold collectAnnotated
  split
  · split
    · exact .map (enlists_annotate _ _) (by simp [mentionsAnnotated, *])
    · split
      · exact .map (enlists_assign _ _) (by simp [mentionsAnnotated, *])
      · exact .pure (by simp [mentionsAnnotated, *])
  · exact .last (enlists_expr true _) fun e =>
      Subset.trans (mentionsAnnotated_subset site e hasValue simple) (subset_append_left _ _)

theorem isSome_of_collectOptional {value : Option (Expr Unit)} {e : Option (Expr ScopeId)}
    {c : CollectContext} {t t' : ScopeTable} (h : collectOptional value c t = .ok (e, t')) :
    e.isSome = value.isSome := by
  cases value with
  | none =>
    cases h
    rfl
  | some value =>
    obtain ⟨_, _, -, hsome⟩ := Collect.bind_eq_ok.mp h
    cases hsome
    rfl

theorem enlists_updated {site : Site} (target : Expr Unit) :
    Enlists site [] (collectUpdated target) (mentionsExpr site) := by
  unfold collectUpdated
  split
  · exact .map (enlists_record _ rfl _)
  · exact enlists_expr true _

mutual

theorem enlists_stmt {site : Site} : ∀ s, Enlists site [] (collectStmt s) (mentionsStmt site)
  | .functionDef loc ⟨_, name, params, body, decorators, returns, isAsync⟩ =>
    .bind (enlists_assign _ _) fun _ =>
    .bind (enlists_collectParameters params) fun _ =>
    .bind (enlists_optional returns) fun _ =>
    .bind (enlists_exprs false decorators) fun _ =>
    .inside (opens_inner (if isAsync then .asyncFunction else .function) rfl (by simp))
      (fun _ => by cases isAsync <;> nofun) fun _ =>
    .bind (enlists_parameters _) fun _ =>
    .map (enlists_body _ body) (by grind [mentionsStmt, Site.function])
  | .classDef loc ⟨_, name, bases, keywords, body, decorators⟩ =>
    .bind (enlists_assign _ _) fun _ =>
    .bind (enlists_exprs false bases) fun _ =>
    .bind (enlists_keywords keywords) fun _ =>
    .bind (enlists_exprs false decorators) fun _ =>
    .inside (opens_class name (by simp)) (fun _ => nofun) fun id =>
    .bind (enlists_body _ body) fun _ =>
    .withNames classNames (Site.not_isFunctionLike_classBody id name)
      (.pure (by grind [mentionsStmt]))
  | .returns loc value => .map (enlists_optional value)
  | .delete loc targets => .map (enlists_exprs true targets)
  | .assign loc targets value =>
    .bind (enlists_expr false value) fun _ =>
    .map (enlists_exprs true targets)
  | .augment loc target op value =>
    .bind (enlists_updated target) fun _ =>
    .map (enlists_expr false value)
  | .annotate loc target hint value simple =>
    .bind (enlists_annotated target _ _) fun _ =>
    .bind (enlists_expr false hint) fun _ =>
    .bindOf (enlists_optional value) (fun _ _ _ _ => isSome_of_collectOptional)
      fun _ hsome => .pure (by simp [mentionsStmt, hsome])
  | .forLoop loc target iter body orElse isAsync =>
    .bind (enlists_expr true target) fun _ =>
    .bind (enlists_expr false iter) fun _ =>
    .bind (enlists_body _ body) fun _ =>
    .map (enlists_body _ orElse) (by grind [mentionsStmt])
  | .whileLoop loc test body orElse | .branch loc test body orElse =>
    .bind (enlists_expr false test) fun _ =>
    .bind (enlists_body _ body) fun _ =>
    .map (enlists_body _ orElse)
  | .withBlock loc items body isAsync =>
    .bind (enlists_withItems items) fun _ =>
    .map (enlists_body _ body)
  | .matchCases loc subject cases =>
    .bind (enlists_expr false subject) fun _ =>
    .map (enlists_cases cases)
  | .raise loc exception cause =>
    .bind (enlists_optional exception) fun _ =>
    .map (enlists_optional cause)
  | .tryBlock loc body handlers orElse finalBody =>
    .bind (enlists_body _ body) fun _ =>
    .bind (enlists_handlers handlers) fun _ =>
    .bind (enlists_body _ orElse) fun _ =>
    .map (enlists_body _ finalBody) (by grind [mentionsStmt])
  | .assertion loc test message =>
    .bind (enlists_expr false test) fun _ =>
    .map (enlists_optional message)
  | .importModules loc names => .map (enlists_importModules names)
  | .importFrom loc module names level => .map (enlists_importFrom names)
  | .globals loc names => .map (enlists_declare _ _ _)
  | .nonlocals loc names => by
    rw [collectStmt]
    refine .bind enlists_scope fun _ => ?_
    split
    · exact .bind (F := fun _ => []) enlists_refuse fun _ =>
        .map (enlists_declare _ _ _)
    · exact .map (enlists_declare _ _ _)
  | .expression loc value => .map (enlists_expr false value)
  | .pass loc | .breakLoop loc | .continueLoop loc => .pure

theorem enlists_body (site : Site) : ∀ ss, Enlists site [] (collectBody ss) (mentionsBody site)
  | [] => .pure
  | s :: ss =>
    .bind (enlists_stmt s) fun _ =>
    .map (enlists_body _ ss)

theorem enlists_cases {site : Site} :
    ∀ cases, Enlists site [] (collectCases cases) (mentionsCases site)
  | [] => .pure
  | ⟨pattern, guard, body⟩ :: cases =>
    .bind (enlists_pattern pattern) fun _ =>
    .bind (enlists_optional guard) fun _ =>
    .bind (enlists_body _ body) fun _ =>
    .map (enlists_cases cases) (by grind [mentionsCases])

theorem enlists_handlers {site : Site} :
    ∀ handlers, Enlists site [] (collectHandlers handlers) (mentionsHandlers site)
  | [] => .pure
  | ⟨type, _, body, _⟩ :: handlers =>
    .bind (enlists_optional type) fun _ =>
    .bind (enlists_assign? _ _) fun _ =>
    .bind (enlists_body _ body) fun _ =>
    .map (enlists_handlers handlers) (by grind [mentionsHandlers])

end

/-- The scopes of a module are nested, and what its tree mentions is entered in them. -/
theorem nested_entered_collect {file : String} {body : Body Unit} {numbered : Body ScopeId}
    {scopes : ScopeTable} (h : collect file body = .ok (numbered, scopes)) :
    scopes.Nested ∧ ∀ x ∈ mentionsBody .module numbered, scopes.Entered x := by
  have hat : At .module { file := file } #[.root] := ⟨rfl, rfl, Nat.zero_lt_one, nofun⟩
  obtain ⟨hgrows, hentered⟩ := (enlists_body .module body).entered _ _ _ _ hat (by simp) h
  exact ⟨hgrows.nested nested_root, hentered⟩

end Bytecode
