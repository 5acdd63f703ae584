import Bytecode.Proofs.Machine.Passage

/-!
# Trials

What can come of a trial: a result, or a failure. Code enacts a trial if it puts on the stack what
the trial results in, and if, where the trial fails, control is on its way to the exit for the
number of values above a base. Nothing else can happen, and whatever can come of the trial can
happen.
-/

namespace Bytecode

open List

/-- What can come of a trial, where none is a failure. -/
def Trial (α : Type) : Type :=
  Option α → Prop

instance : Monad Trial where
  pure a := fun r => r = some a
  bind m f := fun r => (∃ a, m (some a) ∧ f a r) ∨ m none ∧ r = none

namespace Trial

variable {α β : Type} {m : Trial α} {f : α → Trial β} {a : α} {b : β}

def any (P : α → Prop) : Trial α := fun r => ∃ a, P a ∧ r = some a

def check (c : Bool) : Trial Unit := fun r => r = if c then some () else none

def fail : Trial α := fun r => r = none

def orElse (t u : Trial α) : Trial α := fun r => (∃ a, t (some a) ∧ r = some a) ∨ t none ∧ u r

@[simp] theorem pure_some {a' : α} : (pure a : Trial α) (some a') ↔ a' = a :=
  Option.some_inj

@[simp] theorem pure_none : ¬(pure a : Trial α) none :=
  nofun

@[simp] theorem bind_some : (m >>= f) (some b) ↔ ∃ a, m (some a) ∧ f a (some b) := by
  refine ⟨?_, .inl⟩
  rintro (h | ⟨-, h⟩)
  · exact h
  · cases h

@[simp] theorem bind_none : (m >>= f) none ↔ m none ∨ ∃ a, m (some a) ∧ f a none := by
  refine ⟨?_, ?_⟩
  · rintro (h | ⟨h, -⟩)
    · exact .inr h
    · exact .inl h
  · rintro (h | h)
    · exact .inr ⟨h, rfl⟩
    · exact .inl h

@[simp] theorem any_some {P : α → Prop} : any P (some a) ↔ P a := by
  simp [any]

@[simp] theorem any_none {P : α → Prop} : ¬any P none := by
  simp [any]

@[simp] theorem check_some {c : Bool} {u : Unit} : check c (some u) ↔ c = true := by
  cases c <;> simp [check]

@[simp] theorem check_none {c : Bool} : check c none ↔ c = false := by
  cases c <;> simp [check]

@[simp] theorem fail_some : ¬(fail : Trial α) (some a) :=
  nofun

@[simp] theorem fail_none : (fail : Trial α) none :=
  rfl

@[simp] theorem orElse_some {t u : Trial α} :
    t.orElse u (some a) ↔ t (some a) ∨ t none ∧ u (some a) := by
  simp [orElse]

@[simp] theorem orElse_none {t u : Trial α} : t.orElse u none ↔ t none ∧ u none := by
  simp [orElse]

@[ext] theorem ext {m' : Trial α} (hsome : ∀ a, m (some a) ↔ m' (some a))
    (hnone : m none ↔ m' none) : m = m' := by
  funext r
  cases r with
  | none => exact propext hnone
  | some a => exact propext (hsome a)

instance : LawfulMonad Trial :=
  LawfulMonad.mk' Trial
    (fun m => by
      ext a
      · show (∃ a', m (some a') ∧ some a = some a') ∨ _ ↔ _
        simp
      · show (∃ a', m (some a') ∧ none = some a') ∨ m none ∧ none = none ↔ _
        simp)
    (fun a f => by ext b <;> simp)
    (fun m f g => by
      ext c
      · simp only [bind_some]
        grind
      · simp only [bind_none, bind_some]
        grind)

end Trial

/-- Control is on its way to the exit for the number of values above the base. -/
def Fails {V : Type} (exits : List Label) (base : List V) (y : Control V) : Prop :=
  ∃ l above, exits[above.length]? = some l ∧ y = .away l (above ++ base)

/-- From the stack `x` above the base, the pieces enact the trial. -/
structure Enacts {V β : Type} (D : Interpretation V) (consts : List Constant) (exits : List Label)
    (base : List V) (ps : List Piece) (x : List V) (t : Trial β) (out : β → List V) : Prop where
  sound : ∀ y, Crosses D consts ps (.here (x ++ base)) y →
    (∃ b, t (some b) ∧ y = .here (out b ++ base)) ∨ t none ∧ Fails exits base y
  reaches : ∀ b, t (some b) → Crosses D consts ps (.here (x ++ base)) (.here (out b ++ base))
  fails : t none → ∃ y, Crosses D consts ps (.here (x ++ base)) y ∧ Fails exits base y

namespace Enacts

variable {V α β : Type} {D : Interpretation V} {consts : List Constant} {exits : List Label}
  {base : List V} {ps qs : List Piece} {x x' : List V} {t : Trial α} {u : α → Trial β}
  {mid : α → List V} {out : β → List V} {v : V} {arg : Nat} {loc : Location} {op : Opcode}

theorem nil : Enacts D consts exits base [] x (pure ()) fun _ => x where
  sound _ hy := .inl ⟨(), rfl, hy⟩
  reaches _ _ := rfl
  fails h := absurd h Trial.pure_none

section

variable (h : Enacts D consts exits base ps x t mid)
include h

/-- One trial after the other. What fails in the first goes past the code of the second. -/
theorem bind (hu : ∀ a, t (some a) → Enacts D consts exits base qs (mid a) (u a) out)
    (hfree : ∀ l ∈ exits, l ∉ placed (transcript qs)) :
    Enacts D consts exits base (ps ++ qs) x (t >>= u) out := by
  have hpast : ∀ {y z : Control V}, Fails exits base y → (Crosses D consts qs y z ↔ z = y) := by
    rintro _ z ⟨l, above, hl, rfl⟩
    exact crosses_away (hfree l (mem_of_getElem? hl))
  constructor
  case sound =>
    intro z hz
    obtain ⟨y, hy, hz⟩ := crosses_append.mp hz
    rcases h.sound y hy with ⟨a, ha, rfl⟩ | ⟨hnone, hfails⟩
    · rcases (hu a ha).sound z hz with ⟨b, hb, rfl⟩ | ⟨hnone, hfails⟩
      · exact .inl ⟨b, Trial.bind_some.mpr ⟨a, ha, hb⟩, rfl⟩
      · exact .inr ⟨Trial.bind_none.mpr (.inr ⟨a, ha, hnone⟩), hfails⟩
    · obtain rfl := (hpast hfails).mp hz
      exact .inr ⟨Trial.bind_none.mpr (.inl hnone), hfails⟩
  case reaches =>
    intro b hb
    obtain ⟨a, ha, hb⟩ := Trial.bind_some.mp hb
    exact crosses_append.mpr ⟨_, h.reaches a ha, (hu a ha).reaches b hb⟩
  case fails =>
    intro hnone
    rcases Trial.bind_none.mp hnone with hnone | ⟨a, ha, hnone⟩
    · obtain ⟨y, hy, hfails⟩ := h.fails hnone
      exact ⟨y, crosses_append.mpr ⟨y, hy, (hpast hfails).mpr rfl⟩, hfails⟩
    · obtain ⟨z, hz, hfails⟩ := (hu a ha).fails hnone
      exact ⟨z, crosses_append.mpr ⟨_, h.reaches a ha, hz⟩, hfails⟩

theorem mono {exits' : List Label} (hexits : exits <+: exits') :
    Enacts D consts exits' base ps x t mid := by
  have hfails : ∀ {y : Control V}, Fails exits base y → Fails exits' base y := by
    rintro _ ⟨l, above, hl, rfl⟩
    obtain ⟨more, rfl⟩ := hexits
    refine ⟨l, above, ?_, rfl⟩
    rwa [getElem?_append_left (List.getElem?_eq_some_iff.mp hl).1]
  refine ⟨fun y hy => ?_, h.reaches, fun hnone => ?_⟩
  · exact (h.sound y hy).imp_right fun hfailed => ⟨hfailed.1, hfails hfailed.2⟩
  · obtain ⟨y, hy, hfailed⟩ := h.fails hnone
    exact ⟨y, hy, hfails hfailed⟩

/-- The same trial with its result put in other words. -/
theorem map {f : α → β} (hout : ∀ a, t (some a) → out (f a) = mid a) :
    Enacts D consts exits base ps x (t >>= fun a => pure (f a)) out := by
  have hnil : ∀ a, t (some a) →
      Enacts D consts exits base [] (mid a) (pure (f a) : Trial β) out := by
    intro a ha
    refine ⟨fun y hy => .inl ⟨f a, rfl, by rw [hout a ha]; exact hy⟩, fun b hb => ?_,
      fun hnone => absurd hnone Trial.pure_none⟩
    obtain rfl := Trial.pure_some.mp hb
    rw [hout a ha]
    rfl
  have hbind := h.bind hnil fun l _ hl => by cases hl
  rwa [append_nil] at hbind

end

/-- Values that are moved to where a result wants them. -/
theorem result {b : β} (h : Enacts D consts exits base ps x (pure () : Trial Unit) fun _ => out b) :
    Enacts D consts exits base ps x (pure b) out := by
  have hmap : Enacts D consts exits base ps x
      ((pure () : Trial Unit) >>= fun _ => (pure b : Trial β)) out := h.map fun _ _ => rfl
  rwa [pure_bind] at hmap

theorem moved {b : β} (h : Enacts D consts exits base ps x (pure b) out) :
    Enacts D consts exits base ps x (pure () : Trial Unit) fun _ => out b := by
  have hmap : Enacts D consts exits base ps x
      ((pure b : Trial β) >>= fun _ => (pure () : Trial Unit)) fun _ => out b :=
    h.map fun b' hb' => by rw [Trial.pure_some.mp hb']
  rwa [pure_bind] at hmap

/-! ### Pieces -/

theorem step {p : Piece}
    (h : ∀ y, p.Goes D consts (.here (x ++ base)) y ↔ y = .here (x' ++ base)) :
    Enacts D consts exits base [p] x (pure ()) fun _ => x' where
  sound y hy := by
    obtain ⟨z, hz, hy⟩ := hy
    exact .inl ⟨(), rfl, hy.trans ((h z).mp hz)⟩
  reaches _ _ := ⟨_, (h _).mpr rfl, rfl⟩
  fails hnone := absurd hnone Trial.pure_none

theorem choice {p : Piece} {P : α → Prop}
    (h : ∀ y, p.Goes D consts (.here (x ++ base)) y ↔ ∃ a, P a ∧ y = .here (mid a ++ base)) :
    Enacts D consts exits base [p] x (.any P) mid where
  sound y hy := by
    obtain ⟨z, hz, hy⟩ := hy
    obtain ⟨a, ha, rfl⟩ := (h z).mp hz
    exact .inl ⟨a, Trial.any_some.mpr ha, hy⟩
  reaches a ha := ⟨_, (h _).mpr ⟨a, Trial.any_some.mp ha, rfl⟩, rfl⟩
  fails hnone := absurd hnone Trial.any_none

theorem popTop : Enacts D consts exits base [.instr { op := .real .popTop, arg := arg, loc := loc }]
    (v :: x) (pure ()) fun _ => x :=
  .step fun y => by
    refine ⟨?_, fun hy => ⟨v, x ++ base, rfl, hy⟩⟩
    rintro ⟨_, _, heq, rfl⟩
    cases heq
    rfl

theorem copy (hpos : 1 ≤ arg) (hv : x[arg - 1]? = some v) :
    Enacts D consts exits base [.instr { op := .real .copy, arg := arg, loc := loc }]
      x (pure ()) fun _ => v :: x :=
  .step fun y => by
    have hget : (x ++ base)[arg - 1]? = some v := by
      rwa [getElem?_append_left (List.getElem?_eq_some_iff.mp hv).1]
    refine ⟨?_, fun hy => ⟨hpos, v, hget, hy⟩⟩
    rintro ⟨-, w, hw, rfl⟩
    cases hget.symm.trans hw
    rfl

theorem exchangeTop_append (h : exchangeTop arg x = some x') :
    exchangeTop arg (x ++ base) = some (x' ++ base) := by
  unfold exchangeTop at h ⊢
  split at h
  next n a b ha hb =>
    have hlt := (List.getElem?_eq_some_iff.mp ha).1
    have hlt' := (List.getElem?_eq_some_iff.mp hb).1
    rw [getElem?_append_left hlt, ha, getElem?_append_left hlt', hb]
    obtain rfl := Option.some.inj h
    show some (((x ++ base).set 0 b).set (n.succ - 1) a) = _
    rw [set_append_left _ _ hlt, set_append_left _ _ (by rwa [length_set])]
  next => cases h

theorem swap (h : exchangeTop arg x = some x') :
    Enacts D consts exits base [.instr { op := .real .swap, arg := arg, loc := loc }]
      x (pure ()) fun _ => x' :=
  .step fun y => by
    have hswap : exchangeTop arg (x ++ base) = some (x' ++ base) := exchangeTop_append h
    refine ⟨?_, fun hy => ⟨_, hswap, hy⟩⟩
    rintro ⟨_, hs, rfl⟩
    cases hswap.symm.trans hs
    rfl

theorem loadConst {k : Constant} (h : consts[arg]? = some k) :
    Enacts D consts exits base [.instr { op := .real .loadConst, arg := arg, loc := loc }]
      x (pure ()) fun _ => D.const k :: x :=
  .step fun y => by
    refine ⟨?_, fun hy => ⟨k, h, hy⟩⟩
    rintro ⟨k', hk', rfl⟩
    cases h.symm.trans hk'
    rfl

theorem value {e : Expr ScopeId} {code : List Entry} :
    Enacts D consts exits base [.part (.value e) code] x (.any (D.value e)) fun w => w :: x :=
  .choice fun _ => .rfl

theorem perform (taken seen : List V) {n : Nat} (hop : op.isActive)
    (hreach : op.reach? arg = some (taken.length, seen.length, n)) :
    Enacts D consts exits base [.instr { op := .real op, arg := arg, loc := loc }]
      (taken ++ (seen ++ x)) (.any (D.does op arg taken seen)) fun put => put ++ (seen ++ x) :=
  .choice fun y => by
    show Instr.Goes D consts _ _ y ↔ _
    rw [Instr.goes_of_isActive hop]
    constructor
    · rintro ⟨taken', seen', put, rest, heq, hdoes, rfl⟩
      have hreach' := D.reach _ _ _ _ _ hdoes
      rw [hreach, Option.some_inj, Prod.mk.injEq, Prod.mk.injEq] at hreach'
      rw [append_assoc, append_assoc] at heq
      obtain ⟨rfl, hbelow⟩ := append_inj heq hreach'.1
      obtain ⟨rfl, rfl⟩ := append_inj hbelow hreach'.2.1
      exact ⟨put, hdoes, by simp⟩
    · rintro ⟨put, hdoes, rfl⟩
      exact ⟨taken, seen, put, x ++ base, by simp, hdoes, by simp⟩

theorem perform_as (taken seen : List V) {n : Nat} {f : α → List V} (hop : op.isActive)
    (hreach : op.reach? arg = some (taken.length, seen.length, n))
    (hf : ∀ put : List V, put.length = n → ∃ a, put = f a) :
    Enacts D consts exits base [.instr { op := .real op, arg := arg, loc := loc }]
      (taken ++ (seen ++ x)) (.any fun a => D.does op arg taken seen (f a))
      fun a => f a ++ (seen ++ x) := by
  have h : Enacts D consts exits base [.instr { op := .real op, arg := arg, loc := loc }]
      (taken ++ (seen ++ x)) (.any (D.does op arg taken seen)) fun put => put ++ (seen ++ x) :=
    perform taken seen hop hreach
  refine ⟨fun y hy => ?_, fun a ha => h.reaches (f a) (by simpa using ha),
    fun hnone => absurd hnone Trial.any_none⟩
  rcases h.sound y hy with ⟨put, hput, rfl⟩ | ⟨hnone, -⟩
  · have hput := Trial.any_some.mp hput
    have hreach' := D.reach _ _ _ _ _ hput
    rw [hreach, Option.some_inj, Prod.mk.injEq, Prod.mk.injEq] at hreach'
    obtain ⟨a, rfl⟩ := hf put hreach'.2.2.symm
    exact .inl ⟨a, Trial.any_some.mpr hput, rfl⟩
  · exact absurd hnone Trial.any_none

theorem perform_one (taken seen : List V) (hop : op.isActive)
    (hreach : op.reach? arg = some (taken.length, seen.length, 1)) :
    Enacts D consts exits base [.instr { op := .real op, arg := arg, loc := loc }]
      (taken ++ (seen ++ x)) (.any fun w => D.does op arg taken seen [w])
      fun w => w :: (seen ++ x) :=
  perform_as taken seen hop hreach fun _ hput => length_eq_one_iff.mp hput

theorem perform_none (taken seen : List V) (hop : op.isActive)
    (hreach : op.reach? arg = some (taken.length, seen.length, 0)) :
    Enacts D consts exits base [.instr { op := .real op, arg := arg, loc := loc }]
      (taken ++ (seen ++ x)) (.any fun _ : Unit => D.does op arg taken seen [])
      fun _ => seen ++ x :=
  perform_as taken seen hop hreach fun _ hput => ⟨(), length_eq_zero_iff.mp hput⟩

/-- A jump to the exit for what is on the stack, unless the value on top is true. -/
theorem popJumpIfFalse (h : exits[x.length]? = some arg) :
    Enacts D consts exits base [.instr { op := .pseudo .popJumpIfFalse, arg := arg, loc := loc }]
      (v :: x) (.check (D.truthy v)) fun _ => x := by
  have hgoes : ∀ y, Crosses D consts
      [.instr { op := .pseudo .popJumpIfFalse, arg := arg, loc := loc }]
      (.here (v :: x ++ base)) y ↔
        y = if D.truthy v then .here (x ++ base) else .away arg (x ++ base) := by
    intro y
    constructor
    · rintro ⟨z, ⟨_, _, heq, hz⟩, rfl⟩
      cases heq
      exact hz
    · intro hy
      exact ⟨y, ⟨v, x ++ base, rfl, hy⟩, rfl⟩
  cases hv : D.truthy v with
  | true =>
    simp only [hv, if_true] at hgoes
    exact ⟨fun y hy => .inl ⟨(), rfl, (hgoes y).mp hy⟩, fun _ _ => (hgoes _).mpr rfl, nofun⟩
  | false =>
    simp only [hv] at hgoes
    refine ⟨fun y hy => .inr ⟨rfl, arg, x, h, (hgoes y).mp hy⟩, nofun, fun _ => ?_⟩
    exact ⟨_, (hgoes _).mpr rfl, arg, x, h, rfl⟩

end Enacts

end Bytecode
