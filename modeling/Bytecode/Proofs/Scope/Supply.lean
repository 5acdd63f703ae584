import Bytecode.Proofs.Scope.Walk
import Bytecode.Sample
import Bytecode.Scope.Resolve

/-!
# Supply of free names

A scope takes its free names from the scope around it, which has them as cells or takes them from
around itself in turn; a class supplies itself. There is one exception: a function that declares a
name global still lets the scopes inside it refer to the variable of a function around it, and has
nothing to supply them with.
-/

namespace Bytecode

open ScopeTable

open Scope

open ScopedModule

open List Result

variable {x : Symbol} {p : PlacedScope} {r : Resolution} {file : String} {outer : List String}
  {scopes : List Scope}

theorem mem_sortNames {names : List String} {n : String} : n ∈ sortNames names ↔ n ∈ names :=
  mem_mergeSort

/-- What a name can stand for, and why. -/
theorem Symbol.resolve_cases (h : x.resolve outer = .ok r) :
    (r = .declaredGlobal ∧ x.usage.declaredGlobal) ∨
    (r = .free ∧ x.name ∈ outer ∧ x.usage.declaredGlobal = false ∧
      (x.usage.isBinding → x.usage.declaredNonlocal)) ∨
    (r = .localName ∧ x.usage.isBinding ∧ x.usage.declaredGlobal = false ∧
      x.usage.declaredNonlocal = false) ∨
    (r = .defaultGlobal ∧ x.name ∉ outer ∧ x.usage.isBinding = false ∧
      x.usage.declaredGlobal = false) := by
  unfold resolve at h
  split_ifs at h <;> cases h <;> simp_all

namespace Scope

variable {s : Scope} {outer needed : List String} {n : String}

theorem mem_names_filter {P : Symbol → Bool} :
    n ∈ (s.symbols.filter P).map (·.name) ↔ ∃ x ∈ s.symbols, x.name = n ∧ P x := by
  simp only [mem_map, mem_filter]
  grind

theorem mem_namesWith : n ∈ s.namesWith r ↔ ∃ x ∈ s.symbols, x.name = n ∧ x.resolution = r := by
  simp only [namesWith, mem_sortNames, mem_names_filter, decide_eq_true_eq]

theorem mem_freeNames : n ∈ s.freeNames ↔
    ∃ x ∈ s.symbols, x.name = n ∧ (x.resolution = .free ∨ x.usage.freeThroughClass) := by
  simp only [freeNames, mem_sortNames, mem_names_filter, Bool.or_eq_true, decide_eq_true_eq]

/-- A scope can supply the scopes inside it with a name: it has a cell for it, takes it from around
itself, or is the class that the name stands for. -/
def Supplies (s : Scope) (n : String) : Prop :=
  n ∈ s.namesWith .cell ∨ n ∈ s.freeNames ∨
    (s.kind = .classBody ∧ s.needsClassCell ∧ n = "__class__")

/-- What is known of a scope once it is placed: its names stand for what `outer` lets them stand
for. -/
structure Placed (s : Scope) (outer : List String) : Prop where
  resolved : ∀ x ∈ s.symbols, x.resolve outer = .ok x.resolution
  names : (s.symbols.map (·.name)).Nodup
  recorded : ∀ x ∈ s.symbols, x.usage.isRecorded

theorem Placed.fresh (hs : s.Placed outer) (x : Symbol) (hx : x ∈ s.symbols) :
    x.usage.freeThroughClass = false := by
  have := hs.recorded x hx
  simp_all [Usage.isRecorded]

theorem lookup_eq_some (hs : (s.symbols.map (·.name)).Nodup) (hx : x ∈ s.symbols) :
    s.lookup x.name = some x := by
  unfold lookup
  generalize s.symbols = symbols at hs hx
  induction symbols with
  | nil => cases hx
  | cons y symbols ih =>
    rw [map_cons, nodup_cons] at hs
    rcases mem_cons.mp hx with rfl | hx
    · simp
    · have hne : y.name ≠ x.name := fun h => hs.1 (h ▸ mem_map_of_mem hx)
      rw [find?_cons_of_neg (by simpa using hne)]
      exact ih hs.2 hx

theorem exists_of_lookup (h : s.lookup n = some x) : x ∈ s.symbols ∧ x.name = n :=
  ⟨mem_of_find?_eq_some h, by simpa using find?_some h⟩

theorem resolution?_eq_some (hs : (s.symbols.map (·.name)).Nodup) :
    s.resolution? n = some r ↔ ∃ x ∈ s.symbols, x.name = n ∧ x.resolution = r := by
  constructor
  · intro h
    obtain ⟨x, hx, rfl⟩ := Option.map_eq_some_iff.mp h
    exact ⟨x, (exists_of_lookup hx).1, (exists_of_lookup hx).2, rfl⟩
  · rintro ⟨x, hx, rfl, rfl⟩
    rw [resolution?, lookup_eq_some hs hx]
    rfl

/-- Scopes inside need from around this scope only what `outer` has, if they need only what the
scope offers. -/
theorem mem_outer_of_passedOn (h : n ∈ needed → n ∈ s.offered outer) (hn : n ∈ s.passedOn needed) :
    n ∈ outer := by
  unfold passedOn at hn
  unfold offered at h
  cases hkind : s.kind with
  | module =>
    simp only [hkind] at h hn
    exact h hn
  | classBody =>
    simp only [hkind] at h hn
    obtain ⟨hn, hclass⟩ := mem_filter.mp hn
    have := h hn
    simp_all
  | function =>
    simp only [hkind] at h hn
    obtain ⟨hn, hlocal⟩ := mem_filter.mp hn
    rcases mem_append.mp (h hn) with h | h
    · simp [h] at hlocal
    · exact h

theorem Placed.mem_outer_of_needs (hs : s.Placed outer) (h : ∀ n ∈ needed, n ∈ s.offered outer)
    (hn : n ∈ s.needs needed) : n ∈ outer := by
  rcases mem_append.mp (mem_eraseDups.mp hn) with hn | hn
  · obtain ⟨x, hx, rfl⟩ := mem_map.mp hn
    obtain ⟨hx, hfree⟩ := mem_filter.mp hx
    have hfree : x.resolution = .free := by simpa using hfree
    rcases Symbol.resolve_cases (hs.resolved x hx) with h | ⟨_, hmem, _⟩ | h | h
    case inr.inl => exact hmem
    all_goals cases hfree.symm.trans h.1
  · exact mem_outer_of_passedOn (h n) hn

/-! ### A settled scope -/

theorem mem_handedThrough : n ∈ s.handedThrough outer needed ↔
    n ∈ s.passedOn needed ∧ s.lookup n = none ∧ n ∈ outer := by
  simp [handedThrough, mem_sortNames]

/-- The names that a scope settles are those it has and those it hands through. -/
theorem mem_settle : x ∈ (s.settle outer needed).symbols ↔
    (∃ y ∈ s.symbols, x = s.settleSymbol needed y) ∨
      ∃ n ∈ s.handedThrough outer needed, x = { name := n, resolution := .free, loc := s.loc } := by
  simp only [settle, mem_append, mem_map, eq_comm]

/-- What can happen to a name of a scope that is settled. -/
theorem settleSymbol_cases (s : Scope) (needed : List String) (x : Symbol) :
    s.settleSymbol needed x = x ∨
    (s.kind = .classBody ∧ x.name ∈ needed ∧ x.name ≠ "__class__" ∧
      s.settleSymbol needed x = { x with usage := { x.usage with freeThroughClass := true } }) ∨
    (s.kind = .function ∧ x.name ∈ needed ∧ x.resolution = .localName ∧
      s.settleSymbol needed x = { x with resolution := .cell }) := by
  unfold settleSymbol
  by_cases hmem : x.name ∈ needed
  · rw [if_neg (by simpa using hmem)]
    cases hkind : s.kind with
    | module => exact .inl rfl
    | classBody =>
      dsimp only
      split_ifs with hfree
      · exact .inr (.inl ⟨rfl, hmem, by simp at hfree; exact hfree.1, rfl⟩)
      · exact .inl rfl
    | function =>
      dsimp only
      split_ifs with hlocal
      · exact .inr (.inr ⟨rfl, hmem, hlocal, rfl⟩)
      · exact .inl rfl
  · rw [if_pos (by simpa using hmem)]
    exact .inl rfl

@[simp] theorem name_settleSymbol (x : Symbol) : (s.settleSymbol needed x).name = x.name := by
  rcases s.settleSymbol_cases needed x with h | ⟨_, _, _, h⟩ | ⟨_, _, _, h⟩ <;> rw [h]

theorem nodup_settle (hs : (s.symbols.map (·.name)).Nodup) :
    ((s.settle outer needed).symbols.map (·.name)).Nodup := by
  have hown : (s.symbols.map (s.settleSymbol needed)).map (·.name) = s.symbols.map (·.name) := by
    rw [map_map]
    exact map_congr_left fun x _ => name_settleSymbol x
  have hhanded : ((s.handedThrough outer needed).map fun n =>
      ({ name := n, resolution := .free, loc := s.loc } : Symbol)).map (·.name) =
        s.handedThrough outer needed := by
    rw [map_map]
    exact map_id _
  rw [settle, map_append, hown, hhanded, nodup_append]
  refine ⟨hs, ?_, ?_⟩
  · exact (mergeSort_perm _ _).nodup_iff.mpr ((nodup_eraseDups _).filter _)
  · rintro a ha b hb rfl
    have hnone := (mem_handedThrough.mp hb).2.1
    have hsome := (s.lookup_isSome_iff).mpr ha
    rw [hnone] at hsome
    cases hsome

/-- The names that a settled scope takes from around it are among those that it needs. -/
theorem Placed.mem_needs_of_freeNames (hs : s.Placed outer)
    (hn : n ∈ (s.settle outer needed).freeNames) : n ∈ s.needs needed := by
  rw [needs, mem_eraseDups, mem_append]
  obtain ⟨x, hx, rfl, hfree⟩ := mem_freeNames.mp hn
  rcases mem_settle.mp hx with ⟨y, hy, rfl⟩ | ⟨m, hm, rfl⟩
  · rcases s.settleSymbol_cases needed y with h | ⟨hkind, hmem, hclass, h⟩ | ⟨_, _, _, h⟩
    · rw [h] at hfree ⊢
      have hfree : y.resolution = .free := hfree.resolve_right (by simp [hs.fresh y hy])
      exact .inl (mem_map_of_mem (mem_filter.mpr ⟨hy, by simpa using hfree⟩))
    · rw [h]
      right
      simp [passedOn, hkind, hmem, hclass]
    · rw [h] at hfree
      simp [hs.fresh y hy] at hfree
  · exact .inr (mem_handedThrough.mp hm).1

/-- A function takes no name from around it for scopes inside it alone. -/
theorem Placed.fresh_settle (hs : s.Placed outer) (hkind : s.kind = .function)
    (hx : x ∈ (s.settle outer needed).symbols) : x.usage.freeThroughClass = false := by
  rcases mem_settle.mp hx with ⟨y, hy, rfl⟩ | ⟨m, _, rfl⟩
  · rcases s.settleSymbol_cases needed y with h | ⟨h, _⟩ | ⟨_, _, _, h⟩
    · rw [h]
      exact hs.fresh y hy
    · cases hkind.symm.trans h
    · rw [h]
      exact hs.fresh y hy
  · rfl

theorem mem_localNames :
    n ∈ s.localNames ↔ ∃ x ∈ s.symbols, x.name = n ∧ x.resolution = .localName := by
  simp only [localNames, mem_names_filter, decide_eq_true_eq]

theorem name_mem_localNames (hs : (s.symbols.map (·.name)).Nodup) (hx : x ∈ s.symbols) :
    x.name ∈ s.localNames ↔ x.resolution = .localName := by
  rw [mem_localNames]
  refine ⟨fun ⟨y, hy, hname, hres⟩ => ?_, fun hres => ⟨x, hx, rfl, hres⟩⟩
  have hsame := lookup_eq_some hs hy
  rw [hname, lookup_eq_some hs hx] at hsame
  rwa [Option.some.inj hsame]

/-- A function supplies what it offers and the scopes inside it need, unless it declares the name
global. -/
theorem Placed.supplies_function (hs : s.Placed outer) (hkind : s.kind = .function)
    (hneeded : n ∈ needed) (hoffered : n ∈ s.offered outer) :
    (s.settle outer needed).Supplies n ↔
      (s.settle outer needed).resolution? n ≠ some .declaredGlobal := by
  have hnames : ((s.settle outer needed).symbols.map (·.name)).Nodup := nodup_settle hs.names
  constructor
  · -- A name stands for one thing only.
    rintro (hcell | hfree | ⟨hclass, _⟩) hglobal
    · have hres := (resolution?_eq_some hnames).mpr (mem_namesWith.mp hcell)
      cases hres.symm.trans hglobal
    · obtain ⟨x, hx, hname, hfree⟩ := mem_freeNames.mp hfree
      have hres := hfree.resolve_right (by simp [hs.fresh_settle hkind hx])
      cases ((resolution?_eq_some hnames).mpr ⟨x, hx, hname, hres⟩).symm.trans hglobal
    · cases hkind.symm.trans hclass
  · intro hglobal
    cases hlookup : s.lookup n with
    | none =>
      have hnot : n ∉ s.localNames := by
        intro h
        obtain ⟨x, hx, rfl, _⟩ := mem_localNames.mp h
        cases hlookup.symm.trans (lookup_eq_some hs.names hx)
      have houter : n ∈ outer := by simpa [offered, hkind, hnot] using hoffered
      refine .inr (.inl (mem_freeNames.mpr ⟨_, mem_settle.mpr (.inr ⟨n, ?_, rfl⟩), rfl, .inl rfl⟩))
      exact mem_handedThrough.mpr ⟨by simp [passedOn, hkind, hneeded, hnot], hlookup, houter⟩
    | some x =>
      obtain ⟨hx, rfl⟩ := exists_of_lookup hlookup
      have hmem : s.settleSymbol needed x ∈ (s.settle outer needed).symbols :=
        mem_settle.mpr (.inl ⟨x, hx, rfl⟩)
      have hsettled : s.settleSymbol needed x =
          if x.resolution = .localName then { x with resolution := .cell } else x := by
        unfold settleSymbol
        rw [if_neg (by simpa using hneeded), hkind]
      rw [hsettled] at hmem
      rcases Symbol.resolve_cases (hs.resolved x hx) with ⟨h, _⟩ | ⟨h, _⟩ | ⟨h, _⟩ | ⟨h, hnot, _⟩
      · rw [if_neg (by simp [h])] at hmem
        exact absurd ((resolution?_eq_some hnames).mpr ⟨x, hmem, rfl, h⟩) hglobal
      · rw [if_neg (by simp [h])] at hmem
        exact .inr (.inl (mem_freeNames.mpr ⟨x, hmem, rfl, .inl h⟩))
      · rw [if_pos h] at hmem
        exact .inl (mem_namesWith.mpr ⟨_, hmem, rfl, rfl⟩)
      · have hlocal : x.name ∉ s.localNames := by simp [name_mem_localNames hs.names hx, h]
        exact absurd (by simpa [offered, hkind, hlocal] using hoffered) hnot

/-- A class supplies what it offers and the scopes inside it need. -/
theorem Placed.supplies_class (hs : s.Placed outer) (hkind : s.kind = .classBody)
    (hneeded : n ∈ needed) (hoffered : n ∈ s.offered outer) :
    (s.settle outer needed).Supplies n := by
  by_cases hclass : n = "__class__"
  · refine .inr (.inr ⟨hkind, ?_, hclass⟩)
    simp [settle, hkind, ← hclass, hneeded]
  have houter : n ∈ outer := by simpa [offered, hkind, hclass] using hoffered
  refine .inr (.inl (mem_freeNames.mpr ?_))
  cases hlookup : s.lookup n with
  | none =>
    refine ⟨_, mem_settle.mpr (.inr ⟨n, ?_, rfl⟩), rfl, .inl rfl⟩
    exact mem_handedThrough.mpr ⟨by simp [passedOn, hkind, hneeded, hclass], hlookup, houter⟩
  | some x =>
    obtain ⟨hx, rfl⟩ := exists_of_lookup hlookup
    refine ⟨_, mem_settle.mpr (.inl ⟨x, hx, rfl⟩), name_settleSymbol x, ?_⟩
    unfold settleSymbol
    rw [if_neg (by simpa using hneeded), hkind]
    rcases Symbol.resolve_cases (hs.resolved x hx) with ⟨_, h⟩ | ⟨h, _⟩ | ⟨_, h, _⟩ | ⟨_, h, _⟩
    · simp [hclass, h]
    · left
      dsimp only
      split_ifs <;> exact h
    · simp [hclass, h]
    · exact absurd houter h

end Scope

/-! ### Placing the scopes -/

/-- What a scope can take from around it, where the scopes before it are placed. -/
def outerOf (placed : Array PlacedScope) (s : Scope) : List String :=
  match s.parent.bind (placed[·]?) with
  | some p => p.scope.offered p.outer
  | none => []

/-- The scope with a given number is placed: its names stand for what `outer` lets them stand for,
and that is what its parent offers. -/
structure PlacedAt (scopes : List Scope) (placed : Array PlacedScope) (id : Nat) (p : PlacedScope) :
    Prop where
  resolved : ∃ s file, scopes[id]? = some s ∧ p.scope = { s with symbols := p.scope.symbols } ∧
    s.symbols.mapM (·.resolved file p.outer) = .ok p.scope.symbols
  root : p.scope.parent = none → p.outer = []
  parent : ∀ q < id, p.scope.parent = some q →
    ∃ o, placed[q]? = some o ∧ p.outer = o.scope.offered o.outer

theorem PlacedAt.push {placed : Array PlacedScope} {id : Nat} (h : PlacedAt scopes placed id p)
    (o : PlacedScope) (hid : id < placed.size) : PlacedAt scopes (placed.push o) id p where
  resolved := h.resolved
  root := h.root
  parent q hq hparent := by
    obtain ⟨r, hr, houter⟩ := h.parent q hq hparent
    exact ⟨r, by rwa [Array.getElem?_push_lt (by omega), ← Array.getElem?_eq_getElem], houter⟩

/-- The scopes of the first list are placed, those of the second are still to come. -/
structure Placing (done rest : List Scope) (placed : Array PlacedScope) : Prop where
  size : placed.size = done.length
  placedAt : ∀ id p, placed[id]? = some p → PlacedAt (done ++ rest) placed id p

theorem Placing.step {done rest : List Scope} {placed : Array PlacedScope} {s : Scope}
    (h : Placing done (s :: rest) placed) {symbols : List Symbol}
    (hsymbols : s.symbols.mapM (·.resolved file (outerOf placed s)) = .ok symbols) :
    Placing (done ++ [s]) rest (placed.push ⟨{ s with symbols := symbols }, outerOf placed s⟩) where
  size := by simp [h.size]
  placedAt id p hp := by
    have happend : done ++ [s] ++ rest = done ++ s :: rest := by simp
    rw [happend]
    rw [Array.getElem?_push] at hp
    split_ifs at hp with hid
    · cases hp
      refine ⟨⟨s, file, ?_, rfl, hsymbols⟩, fun hroot => ?_, fun q hq hparent => ?_⟩
      · rw [hid, h.size]
        simp
      · show outerOf placed s = []
        rw [outerOf, show s.parent = none from hroot]
        rfl
      · have hlt : q < placed.size := by omega
        refine ⟨placed[q], ?_, ?_⟩
        · rw [Array.getElem?_push_lt hlt]
        · show outerOf placed s = _
          rw [outerOf, show s.parent = some q from hparent, Option.bind_some,
            Array.getElem?_eq_getElem hlt]
    · exact (h.placedAt id p hp).push _ (Array.getElem?_eq_some_iff.mp hp).1

theorem placeScopes_spec {placed : Array PlacedScope} (h : placeScopes file scopes = .ok placed) :
    Placing scopes [] placed := by
  have hloop : ∀ (rest done : List Scope) (before : Array PlacedScope), Placing done rest before →
      rest.foldlM (fun (placed : Array PlacedScope) (s : Scope) => do
        let symbols ← s.symbols.mapM (·.resolved file (outerOf placed s))
        return placed.push ⟨{ s with symbols := symbols }, outerOf placed s⟩) before =
          (.ok placed : Result (Array PlacedScope)) →
      Placing (done ++ rest) [] placed := by
    intro rest
    induction rest with
    | nil =>
      intro done before hbefore h
      cases h
      simpa using hbefore
    | cons s rest ih =>
      intro done before hbefore h
      obtain ⟨after, hstep, h⟩ := bind_eq_ok.mp (foldlM_cons.symm.trans h)
      obtain ⟨symbols, hsymbols, hstep⟩ := bind_eq_ok.mp hstep
      cases hstep
      simpa using ih _ _ (hbefore.step hsymbols) h
  exact hloop scopes [] #[] ⟨rfl, fun id p hp => by simp at hp⟩ h

/-! ### Settling the scopes -/

/-- The scopes settled from the given ones, the first of which has the given number. -/
def settleFrom (ps : List PlacedScope) (k : Nat) : SettledScopes :=
  (ps.zipIdx k).foldr SettledScopes.add {}

theorem length_settleFrom (ps : List PlacedScope) (k : Nat) :
    (settleFrom ps k).scopes.length = ps.length := by
  induction ps generalizing k with
  | nil => rfl
  | cons p ps ih => exact congrArg Nat.succ (ih (k + 1))

/-- Every scope is settled with what the scopes inside it need, whose numbers are greater. -/
theorem settleFrom_spec {ps : List PlacedScope} {k : Nat}
    (hchild : ∀ (j : Nat) p, ps[j]? = some p → ∀ c : Nat, c ∈ p.scope.children → k + j < c)
    {j : Nat} (hp : ps[j]? = some p) :
    (settleFrom ps k).scopes[j]? =
        some (p.scope.settle p.outer ((settleFrom ps k).neededBy p.scope)) ∧
      (settleFrom ps k).needs.lookup (k + j) =
        some (p.scope.needs ((settleFrom ps k).neededBy p.scope)) := by
  induction ps generalizing k j with
  | nil => simp at hp
  | cons q ps ih =>
    have hcons : settleFrom (q :: ps) k = SettledScopes.add (q, k) (settleFrom ps (k + 1)) := rfl
    -- A scope with a greater number does not need anything of this one.
    have hneeded : ∀ s : Scope, (∀ c : Nat, c ∈ s.children → k < c) →
        (settleFrom (q :: ps) k).neededBy s = (settleFrom ps (k + 1)).neededBy s := by
      intro s hs
      rw [hcons]
      unfold SettledScopes.neededBy
      refine flatMap_congr fun c hc => ?_
      have hne : (c == k) = false := by simpa using Nat.ne_of_gt (hs c hc)
      simp [SettledScopes.add, lookup_cons, hne]
    have hgreater : ∀ c : Nat, c ∈ p.scope.children → k < c := fun c hc => by
      have := hchild j p hp c hc
      omega
    rw [hneeded p.scope hgreater, hcons]
    cases j with
    | zero =>
      obtain rfl : q = p := by simpa using hp
      simp [SettledScopes.add]
    | succ j =>
      obtain ⟨hscope, hlookup⟩ := ih (k := k + 1) (j := j) (fun j p hp c hc => by
        have := hchild (j + 1) p (by simpa using hp) c hc
        omega) (by simpa using hp)
      refine ⟨by simpa [SettledScopes.add] using hscope, ?_⟩
      have hne : (k + (j + 1) == k) = false := by simp
      have hindex : k + (j + 1) = k + 1 + j := by omega
      rw [SettledScopes.add, lookup_cons, hne, hindex]
      exact hlookup

/-! ### All scopes -/

theorem Symbol.resolved_spec {y : Symbol} (h : x.resolved file outer = .ok y) :
    y.resolve outer = .ok y.resolution ∧ y.name = x.name ∧ y.usage = x.usage := by
  unfold resolved at h
  split at h
  · rename_i r hr
    cases h
    exact ⟨hr, rfl, rfl⟩
  · cases h

namespace PlacedAt

variable {scopes : ScopeTable} {ps : Array PlacedScope} {id : Nat}

theorem source (h : PlacedAt scopes.toList ps id p) :
    p.scope = { scopes.scope id with symbols := p.scope.symbols } ∧
      Forall₂ (fun x y : Symbol => y.resolve p.outer = .ok y.resolution ∧ y.name = x.name ∧
        y.usage = x.usage) (scopes.scope id).symbols p.scope.symbols := by
  obtain ⟨s, file, hs, hscope, hsymbols⟩ := h.resolved
  obtain rfl : scopes.scope id = s := by
    rw [scope, ← Array.getElem?_toList, hs]
    rfl
  exact ⟨hscope, (mapM_eq_ok.mp hsymbols).imp fun _ _ => Symbol.resolved_spec⟩

theorem names (h : PlacedAt scopes.toList ps id p) :
    p.scope.symbols.map (·.name) = (scopes.scope id).symbols.map (·.name) := by
  have hsame := h.source.2.imp fun _ _ hxy => hxy.2.1.symm
  exact (forall₂_eq_eq_eq ▸ forall₂_map_left_iff.mpr (forall₂_map_right_iff.mpr hsame)).symm

theorem placed (h : PlacedAt scopes.toList ps id p) (hn : scopes.Nested) :
    p.scope.Placed p.outer := by
  refine ⟨fun y hy => ?_, h.names ▸ hn.names id, fun y hy => ?_⟩
  all_goals obtain ⟨x, hx, hresolve, -, husage⟩ := exists_of_mem_forall₂ h.source.2 hy
  · exact hresolve
  · exact husage ▸ hn.fresh id x hx

end PlacedAt

/-- The scopes of a module between the two sweeps, and after them. -/
structure Settled (scopes table : ScopeTable) (ps : List PlacedScope) : Prop where
  nested : scopes.Nested
  length : ps.length = scopes.size
  result : table = (settleFrom ps 0).scopes.toArray
  placedAt : ∀ (id : Nat) p, ps[id]? = some p → PlacedAt scopes.toList ps.toArray id p

theorem settled_of_resolveScopes {scopes table : ScopeTable} (hn : scopes.Nested)
    (h : resolveScopes file scopes = .ok table) : ∃ ps, Settled scopes table ps := by
  obtain ⟨placed, hplaced, h⟩ := bind_eq_ok.mp h
  cases h
  have hspec := placeScopes_spec hplaced
  refine ⟨placed.toList, hn, by simpa using hspec.size, rfl, fun id p hp => ?_⟩
  have hat := hspec.placedAt id p (by simpa using hp)
  simpa using hat

namespace Settled

variable {scopes table : ScopeTable} {ps : List PlacedScope} {id : Nat} {p : PlacedScope}

theorem size (h : Settled scopes table ps) : table.size = ps.length := by
  rw [h.result, List.size_toArray, length_settleFrom]

variable (h : Settled scopes table ps) (hp : ps[id]? = some p)
include h hp

theorem scope_eq :
    p.scope.kind = (scopes.scope id).kind ∧ p.scope.parent = (scopes.scope id).parent ∧
      p.scope.children = (scopes.scope id).children := by
  rw [(h.placedAt id p hp).source.1]
  exact ⟨rfl, rfl, rfl⟩

theorem lt_size : id < scopes.size :=
  h.length ▸ (List.getElem?_eq_some_iff.mp hp).1

theorem child {c : Nat} (hc : c ∈ p.scope.children) :
    id < c ∧ ∃ q, ps[c]? = some q ∧ q.scope.parent = some id := by
  rw [(h.scope_eq hp).2.2] at hc
  obtain ⟨hlt, hsize, hparent⟩ := h.nested.child id c (h.lt_size hp) hc
  obtain ⟨q, hq⟩ : ∃ q, ps[c]? = some q := ⟨_, getElem?_eq_getElem (h.length ▸ hsize)⟩
  exact ⟨hlt, q, hq, (h.scope_eq hq).2.1.trans hparent⟩

theorem spec :
    table.scope id = p.scope.settle p.outer ((settleFrom ps 0).neededBy p.scope) ∧
      (settleFrom ps 0).needs.lookup id =
        some (p.scope.needs ((settleFrom ps 0).neededBy p.scope)) := by
  have hchild : ∀ (j : Nat) p, ps[j]? = some p → ∀ c : Nat, c ∈ p.scope.children → 0 + j < c :=
    fun j p hp c hc => by simpa using (h.child hp hc).1
  obtain ⟨hscope, hlookup⟩ := settleFrom_spec hchild hp
  refine ⟨?_, by simpa using hlookup⟩
  rw [h.result, scope, getElem?_toArray, hscope]
  rfl

/-- What scopes inside need is what they are offered. -/
theorem mem_offered {n : String} (hn : n ∈ (settleFrom ps 0).neededBy p.scope) :
    n ∈ p.scope.offered p.outer := by
  -- Scopes inside have greater numbers.
  induction hk : ps.length - id using Nat.strongRecOn generalizing id p n with
  | _ k ih =>
    obtain ⟨c, hc, hneeds⟩ := mem_flatMap.mp hn
    obtain ⟨hlt, q, hq, hparent⟩ := h.child hp hc
    obtain ⟨_, hlookup⟩ := h.spec hq
    rw [hlookup, Option.getD_some] at hneeds
    have hbound := (List.getElem?_eq_some_iff.mp hq).1
    have hinner : ∀ m ∈ (settleFrom ps 0).neededBy q.scope, m ∈ q.scope.offered q.outer :=
      fun m hm => ih (ps.length - c) (by omega) hq hm rfl
    have houter := ((h.placedAt c q hq).placed h.nested).mem_outer_of_needs hinner hneeds
    obtain ⟨o, ho, heq⟩ := (h.placedAt c q hq).parent id hlt hparent
    rw [getElem?_toArray, hp] at ho
    cases ho
    exact heq ▸ houter

end Settled

theorem ScopedModule.settled {body : Body Unit} {m : ScopedModule} (h : ofBody file body = .ok m) :
    ∃ scopes ps, Settled scopes m.scopes ps ∧
      ∀ x ∈ mentionsBody .module m.body, scopes.Entered x := by
  obtain ⟨⟨numbered, scopes⟩, hcollect, h⟩ := bind_eq_ok.mp h
  obtain ⟨table, hresolve, h⟩ := bind_eq_ok.mp h
  cases h
  obtain ⟨hnested, hentered⟩ := nested_entered_collect hcollect
  obtain ⟨ps, hsettled⟩ := settled_of_resolveScopes hnested hresolve
  exact ⟨scopes, ps, hsettled, hentered⟩

/-- A scope is supplied by its parent with every name that it takes from around it, unless the
parent is a function that declares the name global. -/
theorem ScopedModule.supplies_iff {file : String} {body : Body Unit} {m : ScopedModule}
    (h : ofBody file body = .ok m) {c : ScopeId} (hc : c ≠ 0)
    (hsize : c < m.scopes.size) :
    ∃ p < c, (m.scopes.scope c).parent = some p ∧ ∀ n ∈ (m.scopes.scope c).freeNames,
      (m.scopes.scope p).Supplies n ↔ ¬ ((m.scopes.scope p).isFunction ∧
        (m.scopes.scope p).resolution? n = some .declaredGlobal) := by
  obtain ⟨scopes, ps, hs, -⟩ := settled h
  have hbound : c < ps.length := hs.size ▸ hsize
  obtain ⟨q, hq⟩ : ∃ q, ps[c]? = some q := ⟨_, List.getElem?_eq_getElem hbound⟩
  obtain ⟨hkind, p, hp, hparent, hmem⟩ :=
    hs.nested.parent c (Nat.pos_of_ne_zero hc) (hs.length ▸ hbound)
  obtain ⟨o, ho⟩ : ∃ o, ps[p]? = some o := ⟨_, List.getElem?_eq_getElem (Nat.lt_trans hp hbound)⟩
  obtain ⟨hscope, hlookup⟩ := hs.spec hq
  obtain ⟨hscope', _⟩ := hs.spec ho
  have hat := (hs.placedAt p o ho).placed hs.nested
  refine ⟨p, hp, ?_, fun n hn => ?_⟩
  · rw [hscope]
    exact (hs.scope_eq hq).2.1.trans hparent
  · rw [hscope] at hn
    rw [hscope']
    have hneeded : n ∈ (settleFrom ps 0).neededBy o.scope := by
      refine List.mem_flatMap.mpr ⟨c, (hs.scope_eq ho).2.2 ▸ hmem, ?_⟩
      rw [hlookup]
      exact ((hs.placedAt c q hq).placed hs.nested).mem_needs_of_freeNames hn
    have hoffered := hs.mem_offered ho hneeded
    cases hkind : o.scope.kind with
    | module =>
      -- Only the module itself is one, and there is nothing around it.
      have hzero : p = 0 := by
        by_contra hne
        have hlt : p < scopes.size := hs.lt_size ho
        exact (hs.nested.parent p (Nat.pos_of_ne_zero hne) hlt).1 ((hs.scope_eq ho).1 ▸ hkind)
      have hroot : o.scope.parent = none := by
        rw [(hs.scope_eq ho).2.1, hzero]
        exact hs.nested.root
      rw [offered, hkind, (hs.placedAt p o ho).root hroot] at hoffered
      cases hoffered
    | classBody =>
      refine ⟨fun _ h => ?_, fun _ => hat.supplies_class hkind hneeded hoffered⟩
      simp [Scope.isFunction, Scope.settle, hkind] at h
    | function =>
      rw [hat.supplies_function hkind hneeded hoffered]
      simp [Scope.isFunction, Scope.settle, hkind]

/-! ### Entries of names -/

namespace Settled

variable {scopes table : ScopeTable} {ps : List PlacedScope} {id : Nat} {p : PlacedScope}

theorem names_kept (h : Settled scopes table ps) (hid : id < scopes.size) :
    (table.scope id).params = (scopes.scope id).params ∧
      ∀ n, ((scopes.scope id).lookup n).isSome → ((table.scope id).lookup n).isSome := by
  obtain ⟨p, hp⟩ : ∃ p, ps[id]? = some p := ⟨_, getElem?_eq_getElem (h.length ▸ hid)⟩
  have hat := h.placedAt id p hp
  rw [(h.spec hp).1]
  refine ⟨?_, fun n hn => ?_⟩
  · show p.scope.params = _
    rw [hat.source.1]
  rw [lookup_isSome_iff, ← hat.names] at hn
  rw [lookup_isSome_iff]
  obtain ⟨x, hx, rfl⟩ := mem_map.mp hn
  exact mem_map.mpr ⟨_, mem_settle.mpr (.inl ⟨x, hx, rfl⟩), name_settleSymbol x⟩

theorem entered (h : Settled scopes table ps) {x : Mention} (hx : scopes.Entered x) :
    table.Entered x := by
  cases x with
  | name site name =>
    intro hkind
    by_cases hid : site.scope < scopes.size
    · exact (h.names_kept hid).2 _ (hx hkind)
    · have hentry := hx hkind
      rw [scope, Array.getElem?_eq_none (Nat.le_of_not_lt hid)] at hentry
      cases hentry
  | scope site =>
    refine ⟨h.size.trans h.length ▸ hx.1, fun hkind => ?_⟩
    obtain ⟨hparams, hnames⟩ := h.names_kept hx.1
    rw [hparams]
    exact ⟨(hx.2 hkind).1, hnames _ (hx.2 hkind).2⟩

end Settled

/-- What a tree mentions is entered in its resolved scopes. -/
theorem ScopedModule.entered {body : Body Unit} {m : ScopedModule}
    (h : ofBody file body = .ok m) :
    ∀ x ∈ mentionsBody .module m.body, m.scopes.Entered x := by
  obtain ⟨scopes, ps, hsettled, hentered⟩ := settled h
  exact fun x hx => hsettled.entered (hentered x hx)

/-- The scopes of a module are found and resolved without want of any. -/
theorem ScopedModule.ofBody_findsScopes (file : String) (body : Body Unit) :
    (ofBody file body).FindsScopes := by
  refine .bind ((enlists_body .module body).found _ _) fun _ =>
    .bind (.bind (.foldlM (fun _ s => .bind (.mapM (fun x => ?_) _) fun _ => .ok _) _ _)
      fun _ => .ok _) fun _ => .ok _
  unfold Symbol.resolved
  split
  · exact .ok _
  · exact nofun

/-! ### A name that is not supplied -/

namespace Sample

def procedure (name : String) (body : Body Unit) (line : Int) : Stmt Unit :=
  .functionDef (.span line 0 0) {
    scope := ()
    name := name
    params := {}
    body := body
    decorators := []
    returns := none
    isAsync := false }

/-- A function with a variable, around one that declares it global, around one that uses it. -/
def shadowed : Body Unit :=
  let user := procedure "h" [.returns (.span 6 0 0) (some (.name (.span 6 0 0) "x"))] 5
  let declarer := procedure "g" [.globals (.span 4 0 0) ["x"], user] 3
  let own := Stmt.assign (.span 2 0 0) [.name (.span 2 0 0) "x"] (.constant (.span 2 0 0) (.int 1))
  [procedure "f" [own, declarer] 1]

end Sample

instance (s : Scope) (n : String) : Decidable (s.Supplies n) :=
  inferInstanceAs (Decidable (_ ∨ _ ∨ _))

theorem ScopedModule.exists_shadowed : ∃ m, ofBody "" Sample.shadowed = .ok m ∧
    3 < m.scopes.size ∧ (m.scopes.scope 3).parent = some 2 ∧
    "x" ∈ (m.scopes.scope 3).freeNames ∧ ¬ (m.scopes.scope 2).Supplies "x" := by
  obtain ⟨m, hm, hfound⟩ := exists_of_any (x := ofBody "" Sample.shadowed) (p := fun m =>
    3 < m.scopes.size ∧ (m.scopes.scope 3).parent = some 2 ∧
      "x" ∈ (m.scopes.scope 3).freeNames ∧ ¬ (m.scopes.scope 2).Supplies "x") (by decide +kernel)
  exact ⟨m, hm, of_decide_eq_true hfound⟩

/-- The innermost function refers to a variable that the function around it declares global, and is
not supplied with it. -/
theorem ScopedModule.not_supplies_shadowed : ¬ ∀ m, ofBody "" Sample.shadowed = .ok m →
    ∀ c p : ScopeId, (m.scopes.scope c).parent = some p → ∀ n ∈ (m.scopes.scope c).freeNames,
      (m.scopes.scope p).Supplies n := by
  intro h
  obtain ⟨m, hm, _, hparent, hfree, hnot⟩ := exists_shadowed
  exact hnot (h m hm 3 2 hparent "x" hfree)

/-- Of the innermost function the general statement says so as well: its parent declares the name
global. -/
theorem ScopedModule.supplies_iff_shadowed : ∃ m, ofBody "" Sample.shadowed = .ok m ∧
    (3 : ScopeId) ≠ 0 ∧ 3 < m.scopes.size ∧ (m.scopes.scope 2).isFunction ∧
    (m.scopes.scope 2).resolution? "x" = some .declaredGlobal := by
  obtain ⟨m, hm, hsize, hparent, hfree, hnot⟩ := exists_shadowed
  obtain ⟨p, _, hp, hsupplies⟩ := supplies_iff hm (by decide : (3 : ScopeId) ≠ 0) hsize
  obtain rfl : 2 = p := Option.some.inj (hparent.symm.trans hp)
  obtain ⟨hfunction, hglobal⟩ := not_not.mp fun h => hnot ((hsupplies "x" hfree).mpr h)
  exact ⟨m, hm, by decide, hsize, hfunction, hglobal⟩

end Bytecode
