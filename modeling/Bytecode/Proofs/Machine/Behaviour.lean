import Bytecode.Proofs.Machine.Execution
import Mathlib.Logic.Function.Iterate

/-!
# Behaviour

A program is a graph with its constants, and runs block by block. What can be observed are the
events, how the run ends, and whether it ends at all. Two programs behave alike if related points of
their runs come to related points again, each after at least one block. The relation may say nothing
of a run of the first program that goes wrong.
-/

namespace Bytecode

open Function

structure Program where
  graph : Graph
  constants : List Constant

def Program.instrs (p : Program) (id : BlockId) : List Instr :=
  (p.graph.block id).instrs

/-- Where a run stands between two blocks. -/
inductive Point (V W E : Type) where
  | running (id : BlockId) (s : State V W E)
  | ended (e : Ending V W E)
  | wrong

namespace Point

variable {V W E : Type}

def events : Point V W E → List E
  | .running _ s => s.events
  | .ended e => e.events
  | .wrong => []

end Point

def Step.follow {V W E : Type} (next : Option BlockId) : Step V W E → Point V W E
  | .next s =>
    match next with
    | some id => .running id s
    | none => .wrong
  | .jump target s => .running target s
  | .done e => .ended e
  | .wrong => .wrong

namespace Machine

variable {V W E : Type} (M : Machine V W E)

def hop (p : Program) (id : BlockId) (s : State V W E) : Point V W E :=
  (M.run p.constants (p.instrs id) s).follow (p.graph.block id).next

/-- One step of a run; nothing comes after its end. -/
def step (p : Program) : Point V W E → Point V W E
  | .running id s => M.hop p id s
  | x => x

def pointAt (p : Program) (s : State V W E) (n : Nat) : Point V W E :=
  (M.step p)^[n] (.running p.graph.entry s)

def Safe (p : Program) (s : State V W E) : Prop :=
  ∀ n, M.pointAt p s n ≠ .wrong

def Ends (p : Program) (s : State V W E) (e : Ending V W E) : Prop :=
  ∃ n, M.pointAt p s n = .ended e

def Emits (p : Program) (s : State V W E) (events : List E) : Prop :=
  ∃ n, events <+: (M.pointAt p s n).events

/-- From a state, the second program behaves as the first: it does not go wrong either, it ends in
the same way or does not end either, and it emits the same events in the same order. -/
structure BehavesAs (p q : Program) (s : State V W E) : Prop where
  safe : M.Safe q s
  ends : ∀ e, M.Ends p s e ↔ M.Ends q s e
  emits : ∀ events, M.Emits p s events ↔ M.Emits q s events

/-- Wherever the first program does not go wrong, the second behaves as it. No handler is open at
the start. -/
def Preserves (p q : Program) : Prop :=
  ∀ s : State V W E, s.handlers = [] → M.Safe p s → M.BehavesAs p q s

theorem Preserves.refl (p : Program) : M.Preserves p p :=
  fun _ _ hsafe => ⟨hsafe, fun _ => Iff.rfl, fun _ => Iff.rfl⟩

variable {M}

theorem Preserves.trans {p q r : Program} (hpq : M.Preserves p q) (hqr : M.Preserves q r) :
    M.Preserves p r := by
  intro s hs hsafe
  have hp := hpq s hs hsafe
  have hq := hqr s hs hp.safe
  exact ⟨hq.safe, fun e => (hp.ends e).trans (hq.ends e),
    fun es => (hp.emits es).trans (hq.emits es)⟩

end Machine

/-! ### Events only grow -/

section

variable {V W E : Type} (M : Machine V W E)

/-- What a block has emitted when control leaves it. -/
def Step.Extends (events : List E) : Step V W E → Prop
  | .next s | .jump _ s => events <+: s.events
  | .done e => events <+: e.events
  | .wrong => True

theorem Machine.run_extends (constants : List Constant) (is : List Instr) {events : List E}
    {s : State V W E} (hs : events <+: s.events) : (M.run constants is s).Extends events := by
  induction is generalizing s with
  | nil => exact hs
  | cons i is ih =>
    have hexec := M.exec_transition constants i s
    rw [Machine.run_cons]
    generalize M.exec constants i s = step at hexec
    cases hexec with
    | next _ hevents _ | guard _ _ _ hevents _ | unguard _ hevents _ => exact ih (hs.trans hevents)
    | leap _ _ hevents _ | raise hevents _ | done hevents => exact hs.trans hevents
    | wrong => trivial

theorem Machine.events_step {p : Program} {x : Point V W E} (h : M.step p x ≠ .wrong) :
    x.events <+: (M.step p x).events := by
  cases x with
  | ended e => exact List.prefix_rfl
  | wrong => exact absurd rfl h
  | running id s =>
    have hrun := M.run_extends p.constants (p.instrs id) (List.prefix_refl s.events)
    simp only [Machine.step, Machine.hop] at h ⊢
    generalize M.run p.constants (p.instrs id) s = out at hrun h ⊢
    cases out with
    | jump | done => exact hrun
    | wrong => exact absurd rfl h
    | next s' =>
      generalize (p.graph.block id).next = after at h ⊢
      cases after with
      | some n => exact hrun
      | none => exact absurd rfl h

theorem Machine.iterate_step_wrong (p : Program) (n : Nat) :
    (M.step p)^[n] (.wrong : Point V W E) = .wrong :=
  iterate_fixed rfl n

theorem Machine.iterate_step_ended (p : Program) (n : Nat) (e : Ending V W E) :
    (M.step p)^[n] (.ended e) = .ended e :=
  iterate_fixed rfl n

theorem Machine.events_iterate {p : Program} {x : Point V W E} {n : Nat} (k : Nat)
    (h : (M.step p)^[n + k] x ≠ .wrong) :
    ((M.step p)^[n] x).events <+: ((M.step p)^[n + k] x).events := by
  induction k with
  | zero => exact List.prefix_rfl
  | succ k ih =>
    rw [← Nat.add_assoc, iterate_succ_apply'] at h ⊢
    have hprev : (M.step p)^[n + k] x ≠ .wrong := fun hw => h (by rw [hw]; rfl)
    exact (ih hprev).trans (M.events_step h)

end

/-! ### Runs that stay related -/

section

variable {V W E : Type}

/-- A relation between the points of two runs: related points come to related points again. -/
structure Lockstep (f g : Point V W E → Point V W E) (R : Point V W E → Point V W E → Prop) :
    Prop where
  sound : ∀ x y, R x y → x ≠ .wrong ∧ y ≠ .wrong
  events : ∀ x y, R x y → x.events = y.events
  ends : ∀ x y, R x y → ∀ e, x = .ended e ↔ y = .ended e
  meet : ∀ x y, R x y → ∃ n m, R (f^[n + 1] x) (g^[m + 1] y)

theorem Lockstep.flip {f g : Point V W E → Point V W E} {R : Point V W E → Point V W E → Prop}
    (h : Lockstep f g R) : Lockstep g f (fun y x => R x y) where
  sound y x hr := (h.sound x y hr).symm
  events y x hr := (h.events x y hr).symm
  ends y x hr e := (h.ends x y hr e).symm
  meet y x hr := by
    obtain ⟨n, m, hr⟩ := h.meet x y hr
    exact ⟨m, n, hr⟩

variable {M : Machine V W E} {p q : Program} {R : Point V W E → Point V W E → Prop}

/-- Whatever the first run comes to, the second comes to as well. -/
theorem Lockstep.follow (h : Lockstep (M.step p) (M.step q) R) (k : Nat) {x y : Point V W E}
    (hr : R x y) :
    (M.step p)^[k] x ≠ .wrong ∧ ∃ m, ((M.step p)^[k] x).events <+: ((M.step q)^[m] y).events ∧
      ∀ e, (M.step p)^[k] x = .ended e → (M.step q)^[m] y = .ended e := by
  induction k using Nat.strongRecOn generalizing x y with
  | _ k ih =>
    obtain ⟨n, m, hmeet⟩ := h.meet x y hr
    have hsound := (h.sound _ _ hmeet).1
    rcases Nat.lt_or_ge (n + 1) k with hk | hk
    · -- The runs meet before: the rest of the first one is followed from there.
      obtain ⟨j, rfl⟩ := Nat.exists_eq_add_of_le' (Nat.le_of_lt hk)
      obtain ⟨hne, m', hevents, hends⟩ := ih j (by omega) hmeet
      rw [← iterate_add_apply] at hne hevents
      simp only [← iterate_add_apply] at hevents hends
      exact ⟨hne, m' + (m + 1), hevents, hends⟩
    · obtain ⟨j, hj⟩ := Nat.exists_eq_add_of_le hk
      have hlater : (M.step p)^[n + 1] x = (M.step p)^[j] ((M.step p)^[k] x) := by
        rw [← iterate_add_apply, hj, Nat.add_comm]
      refine ⟨fun hw => hsound ?_, m + 1, ?_, fun e he => ?_⟩
      · rw [hlater, hw, M.iterate_step_wrong]
      · rw [← h.events _ _ hmeet, hj]
        exact M.events_iterate j (hj ▸ hsound)
      · rw [← h.ends _ _ hmeet, hlater, he, M.iterate_step_ended]

theorem Lockstep.behavesAs (h : Lockstep (M.step p) (M.step q) R) {s : State V W E}
    (hr : R (.running p.graph.entry s) (.running q.graph.entry s)) : M.BehavesAs p q s where
  safe n := (h.flip.follow n hr).1
  ends e := by
    constructor
    · rintro ⟨n, hn⟩
      obtain ⟨_, m, _, hm⟩ := h.follow n hr
      exact ⟨m, hm e hn⟩
    · rintro ⟨n, hn⟩
      obtain ⟨_, m, _, hm⟩ := h.flip.follow n hr
      exact ⟨m, hm e hn⟩
  emits es := by
    constructor
    · rintro ⟨n, hn⟩
      obtain ⟨_, m, hm, _⟩ := h.follow n hr
      exact ⟨m, hn.trans hm⟩
    · rintro ⟨n, hn⟩
      obtain ⟨_, m, hm, _⟩ := h.flip.follow n hr
      exact ⟨m, hn.trans hm⟩

/-- Points that agree: ends are the same, running points are related, and nothing is said where the
first run is wrong. -/
def Agree (R : BlockId → State V W E → BlockId → State V W E → Prop) :
    Point V W E → Point V W E → Prop
  | .running a s, .running b t => R a s b t
  | .ended e, .ended e' => e = e'
  | .wrong, _ => True
  | _, _ => False

/-- Related places of two programs that come to related places again, each after at least one
block, behave alike. -/
theorem Machine.preserves_of_meet (R : BlockId → State V W E → BlockId → State V W E → Prop)
    (hstart : ∀ s, s.handlers = [] → R p.graph.entry s q.graph.entry s)
    (hevents : ∀ a s b t, R a s b t → s.events = t.events)
    (hmeet : ∀ a s b t, R a s b t → ∃ n m,
      Agree R ((M.step p)^[n + 1] (.running a s)) ((M.step q)^[m + 1] (.running b t))) :
    M.Preserves p q := by
  intro s hs hsafe
  -- A run that is safe stays related in the strict sense.
  refine Lockstep.behavesAs
    (R := fun x y => (∀ n, (M.step p)^[n] x ≠ .wrong) ∧ Agree R x y)
    ⟨?_, ?_, ?_, ?_⟩ ⟨hsafe, hstart s hs⟩
  · rintro x y ⟨hx, hxy⟩
    refine ⟨hx 0, ?_⟩
    rintro rfl
    cases x <;> first | exact hxy | exact hx 0 rfl
  · rintro x y ⟨hx, hxy⟩
    cases x <;> cases y <;> first | exact hxy.elim | exact (hx 0 rfl).elim | skip
    · exact hevents _ _ _ _ hxy
    · exact congrArg Ending.events hxy
  · rintro x y ⟨hx, hxy⟩ e
    cases x <;> cases y <;> first | exact hxy.elim | exact (hx 0 rfl).elim | skip
    · exact ⟨nofun, nofun⟩
    · rw [show _ = _ from hxy]
  · rintro x y ⟨hx, hxy⟩
    cases x <;> cases y <;> first | exact hxy.elim | exact (hx 0 rfl).elim | skip
    · obtain ⟨n, m, hagree⟩ := hmeet _ _ _ _ hxy
      refine ⟨n, m, fun k => ?_, hagree⟩
      rw [← iterate_add_apply]
      exact hx _
    · exact ⟨0, 0, hx, hxy⟩

end

end Bytecode
