import Bytecode.Error
import Mathlib.Data.List.Forall2

/-!
# Computations that succeed

Each step of a computation that did not stop succeeded. The lemmas here take a successful result
apart, one step at a time.
-/

namespace Bytecode.Result

variable {α β σ : Type} {x : Result α} {bs : List β} {R : α → β → Prop}
variable {f : α → Result β} {as : List α}

@[simp] theorem ok_bind (a : α) (f : α → Result β) : (Except.ok a >>= f) = f a := rfl

@[simp] theorem error_bind (e : CompileError) (f : α → Result β) :
    ((Except.error e : Result α) >>= f) = .error e := rfl

@[simp] theorem pure_eq_ok (a : α) : (pure a : Result α) = .ok a := rfl

@[simp] theorem fault_ne_ok (f : Fault) (a : α) : (fault f : Result α) ≠ .ok a := by
  simp [fault]

@[simp] theorem exceed_ne_ok (l : Limit) (a : α) : (exceed l : Result α) ≠ .ok a := by
  simp [exceed]

theorem bind_eq_ok {b : β} : x >>= f = .ok b ↔ ∃ a, x = .ok a ∧ f a = .ok b := by
  cases x <;> simp

theorem bind_eq_error {e : CompileError} :
    x >>= f = .error e ↔ x = .error e ∨ ∃ a, x = .ok a ∧ f a = .error e := by
  cases x <;> simp

theorem exists_of_isOk (h : x.isOk) : ∃ a, x = .ok a := by
  cases x with
  | error => cases h
  | ok a => exact ⟨a, rfl⟩

theorem exists_of_any {p : α → Bool} (h : x.toOption.any p) : ∃ a, x = .ok a ∧ p a := by
  cases x with
  | error => cases h
  | ok a => exact ⟨a, rfl, h⟩

@[simp] theorem require_eq_ok {f : Fault} {o : Option α} {a : α} :
    require f o = .ok a ↔ o = some a := by
  cases o <;> simp [require]

theorem mapM_eq_ok : as.mapM f = .ok bs ↔ List.Forall₂ (fun a b => f a = .ok b) as bs := by
  induction as generalizing bs with
  | nil => simp [eq_comm]
  | cons a as ih =>
    simp only [List.mapM_cons, bind_eq_ok, List.forall₂_cons_left_iff, pure_eq_ok, ih,
      Except.ok.injEq]
    constructor
    · rintro ⟨b, hb, bs, hbs, rfl⟩
      exact ⟨b, bs, hb, hbs, rfl⟩
    · rintro ⟨b, bs, hb, hbs, rfl⟩
      exact ⟨b, hb, bs, hbs, rfl⟩

theorem mapM_eq_map {F : α → β} (h : ∀ a ∈ as, f a = .ok (F a)) : as.mapM f = .ok (as.map F) := by
  rw [mapM_eq_ok, List.forall₂_map_right_iff, List.forall₂_same]
  exact h

/-- An item of the second of two related lists is related to one of the first. -/
theorem exists_of_mem_forall₂ (h : List.Forall₂ R as bs) {b : β} (hb : b ∈ bs) :
    ∃ a ∈ as, R a b := by
  induction h with
  | nil => simp at hb
  | @cons a b' as bs ha _ ih =>
    rcases List.mem_cons.mp hb with rfl | hb
    · exact ⟨a, by simp, ha⟩
    · obtain ⟨c, hc, hcb⟩ := ih hb
      exact ⟨c, by simp [hc], hcb⟩

theorem forall₂_trans {R S T : α → α → Prop} {bs cs : List α} (h : List.Forall₂ R as bs)
    (h' : List.Forall₂ S bs cs) (hR : ∀ a b c, R a b → S b c → T a c) : List.Forall₂ T as cs := by
  induction h generalizing cs with
  | nil =>
    cases h'
    exact .nil
  | cons hab _ ih =>
    rcases h' with _ | ⟨hbc, hcs⟩
    exact .cons (hR _ _ _ hab hbc) (ih hcs)

/-- Items at the same place of two related lists are related. -/
theorem rel_of_getElem? (h : List.Forall₂ R as bs) {k : Nat} {a : α} {b : β} (ha : as[k]? = some a)
    (hb : bs[k]? = some b) : R a b := by
  obtain ⟨hka, rfl⟩ := List.getElem?_eq_some_iff.mp ha
  obtain ⟨hkb, rfl⟩ := List.getElem?_eq_some_iff.mp hb
  exact (List.forall₂_iff_get.mp h).2 k hka hkb

theorem exists_of_mem_mapM (h : as.mapM f = .ok bs) {b : β} (hb : b ∈ bs) : ∃ a ∈ as, f a = .ok b :=
  exists_of_mem_forall₂ (mapM_eq_ok.mp h) hb

theorem exists_mapM (h : ∀ a ∈ as, ∃ b, f a = .ok b) : ∃ bs, as.mapM f = .ok bs := by
  induction as with
  | nil => exact ⟨[], rfl⟩
  | cons a as ih =>
    obtain ⟨b, hb⟩ := h a (by simp)
    obtain ⟨bs, hbs⟩ := ih fun c hc => h c (by simp [hc])
    exact ⟨b :: bs, mapM_eq_ok.mpr (.cons hb (mapM_eq_ok.mp hbs))⟩

theorem foldlM_induction {step : σ → α → Result σ} {P : σ → Prop}
    (hstep : ∀ s a s', a ∈ as → step s a = .ok s' → P s → P s') {s s' : σ}
    (h : as.foldlM step s = .ok s') (hs : P s) : P s' := by
  induction as generalizing s with
  | nil =>
    simp only [List.foldlM_nil, pure_eq_ok, Except.ok.injEq] at h
    exact h ▸ hs
  | cons a as ih =>
    obtain ⟨t, ht, h⟩ := bind_eq_ok.mp (List.foldlM_cons.symm.trans h)
    exact ih (fun s b s' hb => hstep s b s' (by simp [hb])) h (hstep s a t (by simp) ht hs)

end Bytecode.Result

/-! ### Lists without repetitions -/

theorem Bytecode.nodup_eraseDups {α : Type} [BEq α] [LawfulBEq α] (as : List α) :
    as.eraseDups.Nodup := by
  induction hn : as.length using Nat.strongRecOn generalizing as with
  | _ n ih =>
    cases as with
    | nil => simp
    | cons a as =>
      have hlt : (as.filter fun b => !b == a).length < n := by
        rw [← hn]
        exact Nat.lt_succ_of_le (List.length_filter_le ..)
      rw [List.eraseDups_cons, List.nodup_cons]
      refine ⟨fun hmem => ?_, ih _ hlt _ rfl⟩
      simp at hmem
