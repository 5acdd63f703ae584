import Bytecode.Proofs.Result
import Bytecode.Scope.Collect

/-!
# Nested scopes

In the table that the walk through a tree builds, every scope but the module has a parent with a
smaller number, the children of a scope are the scopes that have it as their parent, and a scope has
no name twice.
-/

namespace Bytecode

open List

/-- A use that a name can have while the tree is walked: the scope uses it, gives it a value or says
where it is from, and it is not yet known what scopes inside need. -/
def Usage.isRecorded (u : Usage) : Bool :=
  !u.freeThroughClass && (u.used || u.declaredNonlocal || u.declaredGlobal || u.isBinding)

namespace ScopeTable

theorem scope_modify (t : ScopeTable) (id j : ScopeId) (f : Scope → Scope) :
    scope (Array.modify t id f) j =
      if id = j ∧ j < t.size then f (t.scope j) else t.scope j := by
  unfold scope
  rw [Array.getElem?_modify]
  by_cases hj : j < t.size
  · by_cases hid : id = j <;> simp [hid, hj]
  · simp [hj]

theorem scope_push (t : ScopeTable) (s : Scope) (j : ScopeId) :
    scope (Array.push t s) j = if j = t.size then s else t.scope j := by
  unfold scope
  rw [Array.getElem?_push]
  split_ifs <;> rfl

/-- Scopes stand inside one another as their numbers say. -/
structure Nested (t : ScopeTable) : Prop where
  nonempty : 0 < t.size
  root : (t.scope 0).parent = none
  parent : ∀ id, 0 < id → id < t.size → (t.scope id).kind ≠ .module ∧
    ∃ p < id, (t.scope id).parent = some p ∧ id ∈ (t.scope p).children
  child : ∀ p c : Nat, p < t.size → c ∈ (t.scope p).children →
    p < c ∧ c < t.size ∧ (t.scope c).parent = some p
  names : ∀ id, ((t.scope id).symbols.map (·.name)).Nodup
  fresh : ∀ id, ∀ x ∈ (t.scope id).symbols, x.usage.isRecorded

theorem nested_root : Nested #[.root] where
  nonempty := Nat.zero_lt_one
  root := rfl
  parent id hpos hid := absurd hid (by simp; omega)
  child p c hp hc := by
    obtain rfl : p = 0 := by simpa using hp
    cases hc
  names id := by
    rcases id with _ | id <;> exact nodup_nil
  fresh id x hx := by
    rcases id with _ | id <;> cases hx

/-- A change of one scope that keeps its place and its names in order, and takes nothing away. -/
structure Change (f : Scope → Scope) : Prop where
  place : ∀ s, (f s).kind = s.kind ∧ (f s).parent = s.parent ∧ (f s).children = s.children
  nodup : ∀ s : Scope, (s.symbols.map (·.name)).Nodup → ((f s).symbols.map (·.name)).Nodup
  fresh : ∀ s : Scope, (∀ x ∈ s.symbols, x.usage.isRecorded) →
    ∀ x ∈ (f s).symbols, x.usage.isRecorded
  names : ∀ s n, (Scope.lookup s n).isSome → ((f s).lookup n).isSome
  params : ∀ s, s.params <+: (f s).params

theorem Change.flags (g c : Scope → Bool) :
    Change fun s => { s with isGenerator := g s, isCoroutine := c s } :=
  ⟨fun _ => ⟨rfl, rfl, rfl⟩, fun _ => id, fun _ => id, fun _ _ => id, fun _ => List.prefix_refl _⟩

theorem Nested.modify {t : ScopeTable} (ht : t.Nested) (id : ScopeId) {f : Scope → Scope}
    (hf : Change f) : Nested (Array.modify t id f) := by
  have hsame : ∀ j, (scope (Array.modify t id f) j).kind = (t.scope j).kind ∧
      (scope (Array.modify t id f) j).parent = (t.scope j).parent ∧
      (scope (Array.modify t id f) j).children = (t.scope j).children := by
    intro j
    rw [scope_modify]
    split_ifs
    · exact hf.place _
    · exact ⟨rfl, rfl, rfl⟩
  refine ⟨?_, ?_, ?_, ?_, ?_, ?_⟩
  · simpa using ht.nonempty
  · rw [(hsame 0).2.1]
    exact ht.root
  · intro j hpos hj
    obtain ⟨hkind, p, hp, hparent, hmem⟩ := ht.parent j hpos (by simpa using hj)
    rw [(hsame j).1, (hsame j).2.1]
    exact ⟨hkind, p, hp, hparent, by rwa [(hsame p).2.2]⟩
  · intro p c hp hc
    rw [(hsame p).2.2] at hc
    rw [(hsame c).2.1]
    simpa using ht.child p c (by simpa using hp) hc
  · intro j
    rw [scope_modify]
    split_ifs
    · exact hf.nodup _ (ht.names j)
    · exact ht.names j
  · intro j
    rw [scope_modify]
    split_ifs
    · exact hf.fresh _ (ht.fresh j)
    · exact ht.fresh j

def opened (t : ScopeTable) (p : ScopeId) (s : Scope) : ScopeTable :=
  Array.modify (Array.push t s) p fun o => { o with children := o.children ++ [t.size] }

section

variable {t : ScopeTable} {p : Nat} {s : Scope}

@[simp] theorem size_opened : (t.opened p s).size = t.size + 1 := by
  simp [opened]

theorem scope_opened_self (hp : p < t.size) : (t.opened p s).scope t.size = s := by
  rw [opened, scope_modify, if_neg fun h => Nat.ne_of_lt hp h.1, scope_push, if_pos rfl]

theorem scope_opened_of_ne (hp : p < t.size) {j : Nat} (hj : j ≠ t.size) : (t.opened p s).scope j =
    { t.scope j with children := (t.scope j).children ++ if p = j then [t.size] else [] } := by
  rw [opened, scope_modify, scope_push, if_neg hj]
  by_cases hpj : p = j
  · subst hpj
    simp [Nat.lt_succ_of_lt hp]
  · simp [hpj]

theorem Nested.opened (ht : t.Nested) (hp : p < t.size) (hkind : s.kind ≠ .module)
    (hparent : s.parent = some p) (hchildren : s.children = []) (hsymbols : s.symbols = []) :
    Nested (t.opened p s) := by
  have hnew : (t.opened p s).scope t.size = s := scope_opened_self hp
  refine ⟨by simp, ?_, ?_, ?_, ?_, ?_⟩
  · rw [scope_opened_of_ne hp (Nat.ne_of_lt ht.nonempty)]
    exact ht.root
  · intro j hpos hj
    by_cases hlast : j = t.size
    · rw [hlast, hnew]
      refine ⟨hkind, p, hp, hparent, ?_⟩
      rw [scope_opened_of_ne hp (Nat.ne_of_lt hp)]
      simp
    · rw [size_opened] at hj
      obtain ⟨hk, q, hq, hpar, hmem⟩ := ht.parent j hpos (by omega)
      rw [scope_opened_of_ne hp hlast]
      refine ⟨hk, q, hq, hpar, ?_⟩
      rw [scope_opened_of_ne hp (by omega)]
      exact mem_append_left _ hmem
  · intro q c hq hc
    rw [size_opened] at hq ⊢
    by_cases hlast : q = t.size
    · rw [hlast, hnew, hchildren] at hc
      cases hc
    · rw [scope_opened_of_ne hp hlast] at hc
      rcases mem_append.mp hc with hc | hc
      · obtain ⟨hqc, hct, hpar⟩ := ht.child q c (by omega) hc
        rw [scope_opened_of_ne hp (by omega)]
        exact ⟨hqc, by omega, hpar⟩
      · obtain ⟨rfl, rfl⟩ : p = q ∧ c = t.size := by simpa using hc
        rw [hnew]
        exact ⟨hp, by omega, hparent⟩
  · intro j
    by_cases hlast : j = t.size
    · rw [hlast, hnew, hsymbols]
      exact nodup_nil
    · rw [scope_opened_of_ne hp hlast]
      exact ht.names j
  · intro j x hx
    by_cases hlast : j = t.size
    · rw [hlast, hnew, hsymbols] at hx
      cases hx
    · rw [scope_opened_of_ne hp hlast] at hx
      exact ht.fresh j x hx

end

end ScopeTable

/-! ### Records of names -/

namespace Scope

variable (s : Scope)

theorem lookup_isSome_iff {name : String} :
    (s.lookup name).isSome ↔ name ∈ s.symbols.map (·.name) := by
  simp [lookup, find?_isSome]

theorem nodup_record (name : String) (usage : Usage) (loc : Location)
    (hs : (s.symbols.map (·.name)).Nodup) :
    ((s.record name usage loc).symbols.map (·.name)).Nodup := by
  unfold record
  dsimp only
  split_ifs with hknown
  · rw [map_map]
    convert hs using 2
    funext x
    simp only [Function.comp_apply]
    split_ifs <;> rfl
  · rw [lookup_isSome_iff] at hknown
    rw [map_append, map_singleton, nodup_append]
    refine ⟨hs, by simp, fun a ha b hb => ?_⟩
    rintro rfl
    obtain rfl : a = name := by simpa using hb
    exact hknown ha

theorem fresh_record (name : String) {usage : Usage} (husage : usage.isRecorded)
    (loc : Location) (hs : ∀ x ∈ s.symbols, x.usage.isRecorded) :
    ∀ x ∈ (s.record name usage loc).symbols, x.usage.isRecorded := by
  intro x hx
  unfold record at hx
  dsimp only at hx
  split_ifs at hx with hknown
  · obtain ⟨y, hy, rfl⟩ := mem_map.mp hx
    split_ifs
    · have hy := hs y hy
      simp only [Usage.isRecorded, Usage.isBinding, Usage.union] at husage hy ⊢
      grind
    · exact hs y hy
  · rcases mem_append.mp hx with hx | hx
    · exact hs x hx
    · obtain rfl := mem_singleton.mp hx
      exact husage

end Scope

end Bytecode
