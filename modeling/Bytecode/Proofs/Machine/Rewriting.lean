import Bytecode.Proofs.Machine.Behaviour

/-!
# Rewriting the blocks of a program

A list of instructions refines another if it does the same wherever the other does not go wrong.
Refinement is kept by what stands before and after, and a program whose blocks are refined behaves
as it did before. Only the blocks that a run can come to count: they are bounded by two sets, one of
blocks, and one of the blocks that open handlers lead to.
-/

namespace Bytecode

variable {V W E : Type} {M : Machine V W E} {p : Program}
variable {T B : BlockId → Prop}

/-! ### Where a run can come to -/

/-- What the instructions of a block can lead to, given where the open handlers lead. -/
inductive Leaves (T : BlockId → Prop) (is : List Instr) : Step V W E → Prop where
  | next {s : State V W E} (hfall : is.getLast?.all (·.op.fallsThrough))
      (hhandlers : ∀ h ∈ s.handlers, T h.target) : Leaves T is (.next s)
  | leap {i : Instr} {target : BlockId} {s : State V W E} (hi : i ∈ is) (hjump : i.op.isJump)
      (htarget : i.target = some target) (hhandlers : ∀ h ∈ s.handlers, T h.target) :
      Leaves T is (.jump target s)
  | raise {target : BlockId} {s : State V W E} (htarget : T target)
      (hhandlers : ∀ h ∈ s.handlers, T h.target) : Leaves T is (.jump target s)
  | done (e : Ending V W E) : Leaves T is (.done e)
  | wrong : Leaves T is .wrong

theorem Leaves.cons {i : Instr} {is : List Instr} {step : Step V W E} (hfall : i.op.fallsThrough)
    (h : Leaves T is step) : Leaves T (i :: is) step := by
  cases h with
  | next hlast hhandlers =>
    refine .next ?_ hhandlers
    cases is with
    | nil => simpa using hfall
    | cons j is => rwa [List.getLast?_cons_cons]
  | leap hi hjump htarget hhandlers =>
    exact .leap (List.mem_cons_of_mem _ hi) hjump htarget hhandlers
  | raise htarget hhandlers => exact .raise htarget hhandlers
  | done e => exact .done e
  | wrong => exact .wrong

theorem Machine.run_leaves (constants : List Constant) {is : List Instr}
    (hpush : ∀ i ∈ is, i.op.isBlockPush → ∀ t, i.target = some t → T t) {s : State V W E}
    (hs : ∀ h ∈ s.handlers, T h.target) : Leaves T is (M.run constants is s) := by
  induction is generalizing s with
  | nil => exact .next rfl hs
  | cons i is ih =>
    have hpush' := fun j hj => hpush j (List.mem_cons_of_mem i hj)
    have hexec := M.exec_transition constants i s
    rw [Machine.run_cons]
    generalize M.exec constants i s = step at hexec
    cases hexec with
    | next hfall _ hh => exact (ih hpush' (hh ▸ hs)).cons hfall
    | @guard t h hguard hfall htarget _ hh =>
      refine (ih hpush' ?_).cons hfall
      rw [hh]
      exact List.forall_mem_cons.mpr ⟨hpush i (by simp) hguard _ htarget, hs⟩
    | unguard hfall _ hh =>
      exact (ih hpush' fun h hmem => hs h (hh ▸ List.mem_cons_of_mem _ hmem)).cons hfall
    | leap hjump htarget _ hh => exact .leap (by simp) hjump htarget (hh ▸ hs)
    | raise _ hh =>
      rw [hh] at hs
      exact .raise (hs _ (by simp)) fun h hmem => hs h (List.mem_cons_of_mem _ hmem)
    | done _ => exact .done _
    | wrong => exact .wrong

/-- Runs from the entry stay among the blocks in `B`, and handlers only lead to those in `T`. -/
structure Graph.Stays (g : Graph) (B T : BlockId → Prop) : Prop where
  entry : B g.entry
  handler : ∀ t, T t → B t
  push : ∀ id, B id → ∀ i ∈ (g.block id).instrs, i.op.isBlockPush → ∀ t, i.target = some t → T t
  jump : ∀ id, B id → ∀ i ∈ (g.block id).instrs, i.op.isJump → ∀ t, i.target = some t → B t
  fall : ∀ id, B id → (g.block id).fallsThrough → ∀ n, (g.block id).next = some n → B n

def Point.Within (B T : BlockId → Prop) : Point V W E → Prop
  | .running id s => B id ∧ ∀ h ∈ s.handlers, T h.target
  | _ => True

theorem Graph.Stays.step (h : p.graph.Stays B T) {x : Point V W E} (hx : x.Within B T) :
    (M.step p x).Within B T := by
  cases x with
  | ended e => trivial
  | wrong => trivial
  | running id s =>
    have hrun : Leaves T (p.instrs id) (M.run p.constants (p.instrs id) s) :=
      M.run_leaves p.constants (h.push id hx.1) hx.2
    simp only [Machine.step, Machine.hop]
    generalize M.run p.constants (p.instrs id) s = out at hrun
    cases hrun with
    | next hfall hhandlers =>
      cases hn : (p.graph.block id).next with
      | none => trivial
      | some n => exact ⟨h.fall id hx.1 hfall n hn, hhandlers⟩
    | leap hi hjump htarget hhandlers => exact ⟨h.jump id hx.1 _ hi hjump _ htarget, hhandlers⟩
    | raise htarget hhandlers => exact ⟨h.handler _ htarget, hhandlers⟩
    | done e => trivial
    | wrong => trivial

theorem Graph.Stays.iterate (h : p.graph.Stays B T) {x : Point V W E} (hx : x.Within B T)
    (n : Nat) : ((M.step p)^[n] x).Within B T := by
  induction n with
  | zero => exact hx
  | succ n ih => rw [Function.iterate_succ_apply']; exact h.step ih

/-- The whole of a graph, where nothing is known of the blocks that a run comes to. -/
theorem Graph.stays_true (g : Graph) : g.Stays (fun _ => True) (fun _ => True) := by
  constructor <;> simp

/-- Two runs that leave a block in the same way agree, if the places that they can come to are
related to themselves. -/
theorem Agree.follow {P : BlockId → Prop} {R : BlockId → State V W E → BlockId → State V W E → Prop}
    (hR : ∀ a s, (Point.running a s).Within B T → P a → R a s a s) {out : Step V W E}
    {next : Option BlockId} (hjump : ∀ t s, out = .jump t s → P t)
    (hnext : ∀ n, next = some n → P n) (hin : (out.follow next).Within B T) :
    Agree R (out.follow next) (out.follow next) := by
  cases out with
  | next s =>
    cases next with
    | none => trivial
    | some n => exact hR n s hin (hnext n rfl)
  | jump t s => exact hR t s hin (hjump t s rfl)
  | done e => rfl
  | wrong => trivial

/-- Two programs behave alike if from every place that the first can come to they come to one
place again. -/
theorem Machine.preserves_of_join {q : Program} (hstays : p.graph.Stays B T)
    (hentry : q.graph.entry = p.graph.entry)
    (hjoin : ∀ id (s : State V W E), B id → (∀ h ∈ s.handlers, T h.target) →
      ∃ n m, (M.step p)^[n + 1] (.running id s) = .wrong ∨
        (M.step p)^[n + 1] (.running id s) = (M.step q)^[m + 1] (.running id s)) :
    M.Preserves p q := by
  refine M.preserves_of_meet
    (fun a s b t => a = b ∧ s = t ∧ (Point.running a s).Within B T) ?_ ?_ ?_
  · intro s hs
    exact ⟨hentry.symm, rfl, hstays.entry, by simp [hs]⟩
  · rintro a s _ _ ⟨_, rfl, _⟩
    rfl
  · rintro a s _ _ ⟨rfl, rfl, hwithin⟩
    obtain ⟨n, m, hjoin⟩ := hjoin a s hwithin.1 hwithin.2
    have hafter := hstays.iterate (M := M) hwithin (n + 1)
    refine ⟨n, m, ?_⟩
    rcases hjoin with hw | heq
    · rw [hw]; trivial
    · rw [← heq]
      generalize (M.step p)^[n + 1] (.running a s) = x at hafter
      cases x with
      | running b t => exact ⟨rfl, rfl, hafter⟩
      | ended e => rfl
      | wrong => trivial

/-! ### Refinement of instructions -/

namespace Machine

variable {cs cs' cs'' : List Constant} {is js ks is' js' : List Instr}

/-- From a state, the second instructions with their constants do what the first do with theirs,
unless these go wrong. -/
def RefinesAt (M : Machine V W E) (cs : List Constant) (is : List Instr) (cs' : List Constant)
    (js : List Instr) (s : State V W E) : Prop :=
  M.run cs is s ≠ .wrong → M.run cs' js s = M.run cs is s

/-- The second instructions with their constants do what the first do with theirs, from every state
where these do not go wrong. -/
def Refines (M : Machine V W E) (cs : List Constant) (is : List Instr) (cs' : List Constant)
    (js : List Instr) : Prop :=
  ∀ s, M.RefinesAt cs is cs' js s

theorem Refines.refl (cs : List Constant) (is : List Instr) : M.Refines cs is cs is :=
  fun _ _ => rfl

theorem Refines.trans (h : M.Refines cs is cs' js) (h' : M.Refines cs' js cs'' ks) :
    M.Refines cs is cs'' ks := by
  intro s hs
  rw [h' s ((h s hs).symm ▸ hs), h s hs]

theorem Refines.of_run_eq (h : ∀ s, M.run cs' js s = M.run cs is s) : M.Refines cs is cs' js :=
  fun s _ => h s

/-- Refinement of what comes after some instructions, in the states that they lead to. -/
theorem Refines.append_at (hpre : M.Refines cs is cs' js)
    (h : ∀ s t, M.run cs is s = .next t → M.RefinesAt cs is' cs' js' t) :
    M.Refines cs (is ++ is') cs' (js ++ js') := by
  intro s hs
  rw [run_append] at hs ⊢
  rw [run_append]
  have hne : M.run cs is s ≠ .wrong := fun hw => hs (by rw [hw]; rfl)
  rw [hpre s hne]
  cases hrun : M.run cs is s with
  | next t => exact h s t hrun (by rw [hrun] at hs; exact hs)
  | jump target t => rfl
  | done e => rfl
  | wrong => rfl

theorem Refines.append (hpre : M.Refines cs is cs' js) (h : M.Refines cs is' cs' js') :
    M.Refines cs (is ++ is') cs' (js ++ js') :=
  hpre.append_at fun _ t _ => h t

theorem Refines.cons {i j : Instr} (hi : ∀ s : State V W E, M.exec cs i s ≠ .wrong →
    M.exec cs' j s = M.exec cs i s) (h : M.Refines cs is cs' js) :
    M.Refines cs (i :: is) cs' (j :: js) := by
  have hrun : ∀ (cs : List Constant) (k : Instr) (s : State V W E),
      M.run cs [k] s = M.exec cs k s := by
    intro cs k s
    rw [run_cons]
    cases M.exec cs k s <;> rfl
  have hone : M.Refines cs [i] cs' [j] := by
    intro s hs
    rw [hrun] at hs ⊢
    rw [hrun, hi s hs]
  exact hone.append h

theorem preserves_of_refines {q : Program} (hstays : p.graph.Stays B T)
    (hentry : q.graph.entry = p.graph.entry)
    (hnext : ∀ id, B id → (q.graph.block id).next = (p.graph.block id).next)
    (hrefines : ∀ id, B id → M.Refines p.constants (p.instrs id) q.constants (q.instrs id)) :
    M.Preserves p q := by
  refine preserves_of_join hstays hentry fun id s hid _ => ⟨0, 0, ?_⟩
  simp only [Nat.zero_add, Function.iterate_one, step, hop]
  by_cases hw : M.run p.constants (p.instrs id) s = .wrong
  · left
    rw [hw]
    rfl
  · right
    rw [hrefines id hid s hw, hnext id hid]

end Machine

end Bytecode
