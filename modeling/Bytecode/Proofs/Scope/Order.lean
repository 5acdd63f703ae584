import Bytecode.Compile
import Bytecode.Proofs.Scope.Supply

/-!
# The order of names

A scope can be settled name by name: its own variables first, each of which becomes a cell if scopes
inside need it, and then the names that are left. Whatever the order, the scope is the same up to
the place of the names that it hands through, which lowering does not see.
-/

namespace Bytecode

open List ScopedModule Sample Result ScopeTable

/-- In which order the variables of each scope are met, and the names that scopes inside need. -/
structure VisitOrder where
  locals : ScopeId → List String → List String
  needed : ScopeId → List String → List String
  locals_perm : ∀ id names, (locals id names).Perm names
  needed_perm : ∀ id names, (needed id names).Perm names

namespace Scope

/-- Changes the entry of a name. -/
def update (f : Symbol → Symbol) (symbols : List Symbol) (n : String) : List Symbol :=
  symbols.map fun x => if x.name = n then f x else x

/-- Makes a variable a cell if it is needed, and strikes it off the names that are. -/
def keepCell (t : List Symbol × List String) (n : String) : List Symbol × List String :=
  if n ∈ t.2 then (update (fun x => { x with resolution := .cell }) t.1 n, t.2.filter (· ≠ n))
  else t

/-- The entry of a name that scopes inside need from around the scope. -/
def throughClass (kind : ScopeKind) (x : Symbol) : Symbol :=
  if kind = .classBody && (x.usage.isBinding || x.usage.declaredGlobal) then
    { x with usage := { x.usage with freeThroughClass := true } }
  else x

/-- The entry of a name that the scope only hands on. -/
def handed (s : Scope) (n : String) : Symbol :=
  { name := n, resolution := .free, loc := s.loc }

/-- Meets a name that scopes inside need from around the scope. -/
def handOn (s : Scope) (outer : List String) (symbols : List Symbol) (n : String) : List Symbol :=
  if n ∈ symbols.map (·.name) then update (throughClass s.kind) symbols n
  else if n ∈ outer then symbols ++ [s.handed n]
  else symbols

/-- The entries once the scope has its cells, and the names that are left. -/
def keepCells (s : Scope) (locals needed : List String) : List Symbol × List String :=
  match s.kind with
  | .module => (s.symbols, needed)
  | .classBody => (s.symbols, needed.filter (· ≠ "__class__"))
  | .function => locals.foldl keepCell (s.symbols, needed)

/-- Settles the scope name by name, and tells which names are left. -/
def settleBy (s : Scope) (o : VisitOrder) (id : ScopeId) (outer needed : List String) :
    Scope × List String :=
  let (symbols, left) := s.keepCells (o.locals id s.localNames) needed
  ({ s with
      symbols := (o.needed id left.eraseDups).foldl (s.handOn outer) symbols
      needsClassCell := s.kind = .classBody && needed.contains "__class__" }, left)

end Scope

/-- Adds the scope with the next smaller number, settled name by name. -/
def SettledScopes.addBy (o : VisitOrder) (placed : PlacedScope × ScopeId) (t : SettledScopes) :
    SettledScopes :=
  let (p, id) := placed
  let (s, left) := p.scope.settleBy o id p.outer (t.neededBy p.scope)
  ⟨s :: t.scopes, (id, (p.scope.ownFree ++ left).eraseDups) :: t.needs⟩

def ScopedModule.ofBodyBy (o : VisitOrder) (file : String) (body : Body Unit) :
    Result ScopedModule := do
  let (body, scopes) ← collect file body
  let placed ← placeScopes file scopes.toList
  return ⟨body, (placed.toList.zipIdx.foldr (SettledScopes.addBy o) {}).scopes.toArray⟩

theorem sortNames_eq_of_perm {xs ys : List String} (h : xs.Perm ys) :
    sortNames xs = sortNames ys := by
  have hle : ∀ a b : String, (!decide (b < a)) = true ↔ a ≤ b := fun a b => by
    rw [Bool.not_eq_true', decide_eq_false_iff_not, String.not_lt]
  have hsorted : ∀ zs, (sortNames zs).Pairwise fun a b => !decide (b < a) := by
    refine pairwise_mergeSort (fun a b c hab hbc => ?_) fun a b => ?_
    · exact (hle a c).mpr (String.le_trans ((hle a b).mp hab) ((hle b c).mp hbc))
    · rw [Bool.or_eq_true, hle, hle]
      exact String.le_total a b
  refine Perm.eq_of_pairwise (fun a b _ _ hab hba => ?_) (hsorted xs) (hsorted ys) ?_
  · exact String.le_antisymm ((hle a b).mp hab) ((hle b a).mp hba)
  · exact (mergeSort_perm ..).trans (h.trans (mergeSort_perm ..).symm)

namespace Scope

variable {s t : Scope} {outer needed : List String}

/-- The scopes tell the same of every name, and differ in the order of names at most. -/
structure Agrees (s t : Scope) : Prop where
  lookup : ∀ n, s.lookup n = t.lookup n
  namesWith : ∀ r, s.namesWith r = t.namesWith r
  freeNames : s.freeNames = t.freeNames
  rest : s = { t with symbols := s.symbols }

theorem Agrees.of_perm {symbols : List Symbol} (h : symbols.Perm s.symbols)
    (hs : (s.symbols.map (·.name)).Nodup) : Agrees { s with symbols := symbols } s where
  lookup n := by
    have hs' : (({ s with symbols := symbols } : Scope).symbols.map (·.name)).Nodup :=
      (h.map _).nodup_iff.mpr hs
    refine Option.ext fun x => ⟨fun hx => ?_, fun hx => ?_⟩ <;>
      obtain ⟨hmem, rfl⟩ := exists_of_lookup hx
    · exact lookup_eq_some hs (h.mem_iff.mp hmem)
    · exact lookup_eq_some hs' (h.mem_iff.mpr hmem)
  namesWith _ := sortNames_eq_of_perm ((h.filter _).map _)
  freeNames := sortNames_eq_of_perm ((h.filter _).map _)
  rest := rfl

theorem Agrees.view (h : s.Agrees t) : s.view = t.view := by
  obtain ⟨hlookup, hnames, hfree, hrest⟩ := h
  rw [Scope.view, funext hlookup, hnames, hfree, hrest]
  rfl

theorem agrees_scope {xs ys : List Scope} (h : Forall₂ Agrees xs ys) (id : ScopeId) :
    (scope xs.toArray id).Agrees (scope ys.toArray id) := by
  rw [scope, scope, getElem?_toArray, getElem?_toArray]
  induction h generalizing id with
  | nil => exact .of_perm (s := .root) (.refl _) (.nil)
  | cons hs _ ih =>
    cases id with
    | zero => exact hs
    | succ id => exact ih id

theorem map_view {xs ys : List Scope} (h : Forall₂ Agrees xs ys) :
    xs.map Scope.view = ys.map Scope.view := by
  induction h with
  | nil => rfl
  | cons hs _ ih => rw [map_cons, map_cons, hs.view, ih]

theorem foldl_keepCell (ns : List String) (symbols : List Symbol) (needed : List String) :
    ns.foldl keepCell (symbols, needed) =
      (symbols.map fun x =>
          if x.name ∈ ns ∧ x.name ∈ needed then { x with resolution := .cell } else x,
        needed.filter (· ∉ ns)) := by
  induction ns generalizing symbols needed with
  | nil => simp
  | cons n ns ih =>
    rw [foldl_cons, keepCell]
    split_ifs with hn <;> rw [ih]
    · rw [update, map_map, filter_filter]
      refine Prod.ext (map_congr_left fun x _ => ?_) (filter_congr fun m _ => ?_)
      · by_cases hx : x.name = n <;> simp [hx, hn]
      · by_cases hm : m = n <;> simp [hm]
    · refine Prod.ext (map_congr_left fun x _ => ?_) (filter_congr fun m hm => ?_)
      · by_cases hx : x.name = n <;> simp [hx, hn]
      · have hne : m ≠ n := fun h => hn (h ▸ hm)
        simp [hne]

@[simp] theorem name_throughClass (kind : ScopeKind) (x : Symbol) :
    (throughClass kind x).name = x.name := by
  unfold throughClass
  split <;> rfl

theorem names_map {f : Symbol → Symbol} (hf : ∀ x, (f x).name = x.name) (symbols : List Symbol) :
    (symbols.map f).map (·.name) = symbols.map (·.name) := by
  simp [hf]

theorem foldl_handOn {ns : List String} (hns : ns.Nodup) (symbols : List Symbol) :
    ns.foldl (s.handOn outer) symbols =
      symbols.map (fun x => if x.name ∈ ns then throughClass s.kind x else x) ++
        (ns.filter fun n => n ∉ symbols.map (·.name) ∧ n ∈ outer).map s.handed := by
  induction ns generalizing symbols with
  | nil => simp
  | cons n ns ih =>
    obtain ⟨hn, hns⟩ := nodup_cons.mp hns
    rw [foldl_cons, ih hns, handOn]
    split_ifs with hknown houter
    case pos =>
      rw [filter_cons_of_neg (by simp [hknown]), update,
        names_map (fun x => by split_ifs <;> simp), map_map]
      refine congrArg (· ++ _) (map_congr_left fun x _ => ?_)
      by_cases hx : x.name = n <;> simp [hx, hn]
    all_goals
      have hother : symbols.map (fun x => if x.name ∈ ns then throughClass s.kind x else x) =
          symbols.map fun x => if x.name ∈ n :: ns then throughClass s.kind x else x :=
        map_congr_left fun x hx => by
          have hne : x.name ≠ n := fun h => hknown (h ▸ mem_map_of_mem hx)
          simp [hne]
    · rw [filter_cons_of_pos (by simp_all), map_append, hother, append_assoc, map_singleton,
        if_neg (show (s.handed n).name ∉ ns from hn), singleton_append, map_cons]
      refine congrArg (_ ++ s.handed n :: map _ ·) (filter_congr fun m hm => ?_)
      have hne : m ≠ n := fun h => hn (h ▸ hm)
      simp [handed, hne]
    · rw [filter_cons_of_neg (by simp_all), hother]

/-- The variables that become cells do not depend on the order. -/
theorem keepCells_eq {locals : List String} (h : locals.Perm s.localNames)
    (hs : (s.symbols.map (·.name)).Nodup) :
    s.keepCells locals needed =
      (s.symbols.map fun x => if s.kind = .function then s.settleSymbol needed x else x,
        s.passedOn needed) := by
  unfold keepCells passedOn
  cases hkind : s.kind with
  | module => simp
  | classBody => simp
  | function =>
    dsimp only
    rw [foldl_keepCell]
    refine Prod.ext (map_congr_left fun x hx => ?_) (filter_congr fun n _ => ?_)
    · by_cases hn : x.name ∈ needed <;>
        simp [settleSymbol, hkind, h.mem_iff, name_mem_localNames hs hx, hn]
    · simp [h.mem_iff]

/-- Whatever the order, the scope is settled as before but for the place of names that are handed
through. -/
theorem settleBy_eq (o : VisitOrder) (id : ScopeId) (hs : (s.symbols.map (·.name)).Nodup) :
    ∃ symbols, symbols.Perm (s.settle outer needed).symbols ∧
      s.settleBy o id outer needed =
        ({ s.settle outer needed with symbols := symbols }, s.passedOn needed) := by
  have hneeded := o.needed_perm id (s.passedOn needed).eraseDups
  rw [settleBy, keepCells_eq (o.locals_perm id _) hs]
  refine ⟨_, ?_, rfl⟩
  rw [foldl_handOn (hneeded.nodup_iff.mpr (nodup_eraseDups _))]
  refine .append (.of_eq ?_) (.map _ ?_)
  · rw [map_map]
    refine map_congr_left fun x _ => ?_
    simp only [Function.comp, hneeded.mem_iff, mem_eraseDups]
    unfold passedOn
    cases hkind : s.kind with
    | function => simp [throughClass]
    | module => simp [throughClass, settleSymbol, hkind]
    | classBody =>
      by_cases hn : x.name ∈ needed <;> by_cases hname : x.name = "__class__" <;>
        simp [throughClass, settleSymbol, hkind, hn, hname]
  · rw [names_map fun x => by split_ifs <;> simp]
    refine (Perm.of_eq (filter_congr fun n _ => ?_)).trans
      ((hneeded.filter _).trans (mergeSort_perm _ _).symm)
    simp only [← lookup_isSome_iff]
    cases s.lookup n <;> simp

theorem agrees_settleBy (o : VisitOrder) (id : ScopeId) (hs : (s.symbols.map (·.name)).Nodup) :
    (s.settleBy o id outer needed).1.Agrees (s.settle outer needed) ∧
      (s.settleBy o id outer needed).2 = s.passedOn needed := by
  obtain ⟨symbols, hperm, heq⟩ := settleBy_eq o id hs
  rw [heq]
  exact ⟨.of_perm hperm (nodup_settle hs), rfl⟩

end Scope

theorem SettledScopes.foldr_addBy (o : VisitOrder) {ps : List PlacedScope} (k : Nat)
    (hs : ∀ p ∈ ps, (p.scope.symbols.map (·.name)).Nodup) :
    Forall₂ Scope.Agrees ((ps.zipIdx k).foldr (addBy o) {}).scopes (settleFrom ps k).scopes ∧
      ((ps.zipIdx k).foldr (addBy o) {}).needs = (settleFrom ps k).needs := by
  induction ps generalizing k with
  | nil => exact ⟨.nil, rfl⟩
  | cons p ps ih =>
    obtain ⟨hp, hps⟩ := forall_mem_cons.mp hs
    obtain ⟨hscopes, hneeds⟩ := ih (k + 1) hps
    have hneeded : ((ps.zipIdx (k + 1)).foldr (addBy o) {}).neededBy p.scope =
        (settleFrom ps (k + 1)).neededBy p.scope := by
      rw [neededBy, hneeds, neededBy]
    obtain ⟨hsettled, hleft⟩ := Scope.agrees_settleBy o k hp
    rw [zipIdx_cons, foldr_cons, addBy, hneeded]
    exact ⟨.cons hsettled hscopes,
      congrArg₂ (fun ns => cons (k, (p.scope.ownFree ++ ns).eraseDups)) hleft hneeds⟩

/-- The order in which names are met does not matter. The scopes of a module are found whatever it
is, they tell the same of every name, and the module is compiled to the same code with the same
warnings, or with the same error. -/
theorem ScopedModule.ofBodyBy_agrees {file : String} {body : Body Unit} {m : ScopedModule}
    (h : ofBody file body = .ok m) (o : VisitOrder) :
    ∃ m', ofBodyBy o file body = .ok m' ∧ m'.body = m.body ∧
      m'.scopes.size = m.scopes.size ∧
      (∀ id, (m'.scopes.scope id).Agrees (m.scopes.scope id)) ∧
      ∀ options, m'.compile options = m.compile options := by
  obtain ⟨⟨numbered, scopes⟩, hcollect, h⟩ := bind_eq_ok.mp h
  obtain ⟨table, hresolve, h⟩ := bind_eq_ok.mp h
  obtain ⟨placed, hplaced, hresolve⟩ := bind_eq_ok.mp hresolve
  cases h
  cases hresolve
  have hnames : ∀ p ∈ placed.toList, (p.scope.symbols.map (·.name)).Nodup := fun p hp => by
    obtain ⟨id, hid⟩ := mem_iff_getElem?.mp hp
    have hat : PlacedAt scopes.toList placed id p := by
      simpa using (placeScopes_spec hplaced).placedAt id p (by simpa using hid)
    exact (hat.placed (nested_entered_collect hcollect).1).names
  obtain ⟨hscopes, -⟩ := SettledScopes.foldr_addBy o 0 hnames
  unfold settleFrom at hscopes
  refine ⟨_, bind_eq_ok.mpr ⟨_, hcollect, bind_eq_ok.mpr ⟨_, hplaced, rfl⟩⟩, rfl,
    by simpa using hscopes.length_eq, Scope.agrees_scope hscopes, fun options => ?_⟩
  simp only [compile, map_toArray, Scope.map_view hscopes]

namespace Sample

/-- Two variables that a function hands through. -/
def handedPair : Body Unit :=
  let loc := Location.ofLine 1
  let lambda (names : List String) (value : Expr Unit) : Expr Unit :=
    .lambda loc () { positional := names.map fun n => ⟨n, none, loc⟩ } value
  [.expression loc (lambda ["x", "y"] (lambda [] (lambda []
    (.binary loc (.name loc "x") .add (.name loc "y")))))]

def backwards : VisitOrder where
  locals _ := reverse
  needed _ := reverse
  locals_perm _ := reverse_perm
  needed_perm _ := reverse_perm

end Sample

/-- The names that are handed through come the other way round, and the code is the same. -/
theorem ScopedModule.ofBodyBy_agrees_handedPair :
    ∃ m m', ofBody "" handedPair = .ok m ∧
      ofBodyBy backwards "" handedPair = .ok m' ∧
      (m'.scopes.scope 2).symbols.map (·.name) = ["y", "x"] ∧
      (m'.scopes.scope 2).Agrees (m.scopes.scope 2) ∧ m'.compile {} = m.compile {} := by
  obtain ⟨m, hm⟩ := exists_of_isOk (show (ofBody "" handedPair).isOk by decide +kernel)
  obtain ⟨m', hm', -, -, hagrees, hcompile⟩ := ofBodyBy_agrees hm backwards
  have hnames : (ofBodyBy backwards "" handedPair).toOption.any fun m' =>
      (m'.scopes.scope 2).symbols.map (·.name) = ["y", "x"] := by decide +kernel
  rw [hm'] at hnames
  exact ⟨m, m', hm, hm', of_decide_eq_true hnames, hagrees 2, hcompile {}⟩

end Bytecode
