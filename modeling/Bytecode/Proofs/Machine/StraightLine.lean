import Bytecode.Proofs.Graph.Exchanges
import Bytecode.Proofs.Machine.Execution
import Mathlib.Data.List.Perm.Basic
import Mathlib.Data.List.TakeWhile
import Mathlib.Order.Bounds.Defs

/-!
# Straight-line code

Exchanges, stores and pops have their meaning here, and every other instruction does whatever it
may. A run of exchanges can be replaced by any that gives the same permutation. An exchange whose
two values are consumed soon after can be left out if the consumers change places.
-/

namespace Bytecode

open List Instr

variable {V W E : Type} {is js ks is' js' mid post : List Instr} {s : State V W E} {a b i : Instr}
  {stack : List V} {n : Nat} {other : Instr → State V W E → Step V W E}

def bindLocal (i : Instr) (v : V) (locals : Nat → Option V) : Nat → Option V :=
  match i.storedSlot? with
  | some k => Function.update locals k (some v)
  | none => locals

/-- Executes one instruction, where `other` says what is done by those that neither are idle nor
exchange values or consume one. -/
def execWith (other : Instr → State V W E → Step V W E) (i : Instr) (s : State V W E) :
    Step V W E :=
  if i.isNop then .next s
  else if i.isSwap then
    match exchangeTop i.arg s.stack with
    | some stack => .next { s with stack := stack }
    | none => .wrong
  else if i.isConsumer then
    match s.stack with
    | v :: rest => .next { s with stack := rest, locals := bindLocal i v s.locals }
    | [] => .wrong
  else other i s

def runWith (other : Instr → State V W E → Step V W E) : List Instr → State V W E → Step V W E
  | [], s => .next s
  | i :: is, s => (execWith other i s).andThen (runWith other is)

theorem runWith_append (is js : List Instr) (s : State V W E) :
    runWith other (is ++ js) s = (runWith other is s).andThen (runWith other js) := by
  induction is generalizing s with
  | nil => rfl
  | cons i is ih =>
    rw [cons_append, runWith, runWith]
    cases execWith other i s with
    | next t => exact ih t
    | jump target t | done e | wrong => rfl

theorem isNop_iff : i.isNop ↔ i.op = .real .nop :=
  decide_eq_true_iff

theorem isSwap_iff : i.isSwap ↔ i.op = .real .swap :=
  decide_eq_true_iff

theorem isNop_toNop (i : Instr) : i.toNop.isNop :=
  isNop_iff.mpr rfl

theorem execWith_isNop (hi : i.isNop) (s : State V W E) : execWith other i s = .next s :=
  if_pos hi

theorem execWith_isSwap (hi : i.isSwap) (s : State V W E) :
    execWith other i s = match exchangeTop i.arg s.stack with
      | some stack => .next { s with stack := stack }
      | none => .wrong := by
  have hnop : ¬i.isNop := by simp [isNop_iff, isSwap_iff.mp hi]
  rw [execWith, if_neg hnop, if_pos hi]

theorem execWith_isConsumer (hi : i.isConsumer) (s : State V W E) :
    execWith other i s = match s.stack with
      | v :: rest => .next { s with stack := rest, locals := bindLocal i v s.locals }
      | [] => .wrong := by
  have hop : i.op = .real .storeFast ∨ i.op = .real .popTop := by simpa [isConsumer] using hi
  have hnop : ¬i.isNop := by rcases hop with hop | hop <;> simp [isNop_iff, hop]
  have hswap : ¬i.isSwap := by rcases hop with hop | hop <;> simp [isSwap_iff, hop]
  rw [execWith, if_neg hnop, if_neg hswap, if_pos hi]

/-- The machine is one of those that execute straight-line code. -/
theorem Machine.run_eq_runWith (M : Machine V W E) (cs : List Constant) (is : List Instr)
    (s : State V W E) : M.run cs is s = runWith (M.exec cs) is s := by
  have hexec : ∀ (i : Instr) (s : State V W E), M.exec cs i s = execWith (M.exec cs) i s := by
    intro i s
    unfold execWith
    split_ifs with hnop hswap hconsumer
    · exact M.exec_of_isNop hnop cs s
    · have hop := isSwap_iff.mp hswap
      cases i
      cases hop
      rfl
    · have hop : i.op = .real .storeFast ∨ i.op = .real .popTop := by
        simpa [isConsumer] using hconsumer
      rcases hop with hop | hop <;>
        simp only [Machine.exec, hop, Operation.meaning, bindLocal, storedSlot?] <;>
        cases s.stack <;> rfl
    · rfl
  induction is generalizing s with
  | nil => rfl
  | cons i is ih => rw [Machine.run_cons, runWith, hexec, funext ih]

/-- The second instructions do what the first do, unless these go wrong. -/
def Replaces (is js : List Instr) : Prop :=
  ∀ (V W E : Type) (other : Instr → State V W E → Step V W E) (s : State V W E),
    runWith other is s ≠ .wrong → runWith other js s = runWith other is s

theorem Replaces.append (h : Replaces is js) (h' : Replaces is' js') :
    Replaces (is ++ is') (js ++ js') := by
  intro V W E other s hs
  rw [runWith_append] at hs ⊢
  rw [runWith_append, h V W E other s fun hw => hs (by rw [hw]; rfl)]
  cases hrun : runWith other is s with
  | next t =>
    rw [hrun] at hs
    exact h' V W E other t hs
  | jump target t | done e | wrong => rfl

/-! ### Exchanges -/

theorem exchangeTop_spec (hn : 0 < n) (hlength : n ≤ stack.length) :
    ∃ stack', exchangeTop n stack = some stack' ∧ stack'.length = stack.length ∧
      ∀ j, stack'[j]? = stack[Equiv.swap 0 (n - 1) j]? := by
  obtain ⟨n, rfl⟩ := Nat.exists_eq_succ_of_ne_zero (Nat.ne_of_gt hn)
  have h0 : 0 < stack.length := Nat.lt_of_lt_of_le hn hlength
  have hv : stack[0]? = some stack[0] := getElem?_eq_getElem h0
  have hn' : n < stack.length := hlength
  have hw : stack[n]? = some stack[n] := getElem?_eq_getElem hn'
  refine ⟨(stack.set 0 stack[n]).set n stack[0], ?_, by simp, fun j => ?_⟩
  · simp [exchangeTop, hv, hw]
  · simp only [Nat.succ_eq_add_one, Nat.add_sub_cancel, getElem?_set, length_set]
    by_cases hjn : n = j
    · subst hjn
      rw [if_pos rfl, if_pos hn', Equiv.swap_apply_right, hv]
    · rw [if_neg hjn]
      by_cases hj0 : 0 = j
      · subst hj0
        rw [if_pos rfl, if_pos h0, Equiv.swap_apply_left, hw]
      · rw [if_neg hj0, Equiv.swap_apply_of_ne_of_ne (Ne.symm hj0) (Ne.symm hjn)]

theorem exchangeTop_eq_none (h : stack.length < n) : exchangeTop n stack = none := by
  obtain ⟨n, rfl⟩ := Nat.exists_eq_succ_of_ne_zero (Nat.ne_of_gt (Nat.zero_lt_of_lt h))
  have hnone : stack[n]? = none := getElem?_eq_none (Nat.le_of_lt_succ h)
  simp [exchangeTop, hnone]

/-- An instruction that exchanges, or does nothing. -/
def Instr.shuffles (i : Instr) : Prop :=
  i.op = .real .swap ∧ 0 < i.arg ∨ i.isNop

theorem swapPlaces_cons_of_isSwap (hi : i.isSwap) (is : List Instr) :
    swapPlaces (i :: is) = (i.arg - 1) :: swapPlaces is := by
  simp [swapPlaces, hi]

theorem swapPlaces_cons_of_isNop (hi : i.isNop) (is : List Instr) :
    swapPlaces (i :: is) = swapPlaces is := by
  simp [swapPlaces, isSwap, isNop_iff.mp hi]

theorem runWith_shuffles (other : Instr → State V W E → Step V W E) (his : ∀ i ∈ is, i.shuffles)
    (hplaces : ∀ k ∈ swapPlaces is, k < s.stack.length) :
    ∃ stack, runWith other is s = .next { s with stack := stack } ∧
      stack.length = s.stack.length ∧ ∀ j, stack[j]? = s.stack[origin (swapPlaces is) j]? := by
  induction is generalizing s with
  | nil => exact ⟨s.stack, rfl, rfl, fun _ => rfl⟩
  | cons i is ih =>
    obtain ⟨⟨hop, harg⟩ | hnop, his⟩ := forall_mem_cons.mp his
    · have hswap := isSwap_iff.mpr hop
      rw [swapPlaces_cons_of_isSwap hswap] at hplaces ⊢
      obtain ⟨hi, hplaces⟩ := forall_mem_cons.mp hplaces
      obtain ⟨mid, hmid, hlength, hget⟩ := exchangeTop_spec harg (Nat.le_of_pred_lt hi)
      obtain ⟨stack, hrun, hlength', hget'⟩ :=
        ih his (s := { s with stack := mid }) (by simpa [hlength] using hplaces)
      refine ⟨stack, ?_, hlength'.trans hlength, fun j => ?_⟩
      · simp only [runWith, execWith_isSwap hswap, hmid, Step.andThen, hrun]
      · rw [hget', hget, origin_cons]
    · rw [swapPlaces_cons_of_isNop hnop] at hplaces ⊢
      rw [runWith, execWith_isNop hnop]
      exact ih his hplaces

theorem runWith_shuffles_wrong (his : ∀ i ∈ is, i.shuffles) {k : Nat} (hk : k ∈ swapPlaces is)
    (hlength : s.stack.length ≤ k) : runWith other is s = .wrong := by
  induction is generalizing s with
  | nil => cases hk
  | cons i is ih =>
    rw [runWith]
    obtain ⟨⟨hop, harg⟩ | hnop, his⟩ := forall_mem_cons.mp his
    · have hswap := isSwap_iff.mpr hop
      rw [swapPlaces_cons_of_isSwap hswap] at hk
      rw [execWith_isSwap hswap]
      rcases Nat.lt_or_ge s.stack.length i.arg with hlt | hge
      · rw [exchangeTop_eq_none hlt]
        rfl
      · obtain ⟨mid, hmid, hmidlength, _⟩ := exchangeTop_spec harg hge
        rw [hmid]
        rcases mem_cons.mp hk with rfl | hk
        · omega
        · exact ih his hk (by simpa [hmidlength] using hlength)
    · rw [swapPlaces_cons_of_isNop hnop] at hk
      rw [execWith_isNop hnop]
      exact ih his hk hlength

/-- Exchanges with the same result, at no other places, do the same. -/
theorem replaces_of_origin (his : ∀ i ∈ is, i.shuffles) (hjs : ∀ j ∈ js, j.shuffles)
    (hsub : ∀ k ∈ swapPlaces js, k ∈ swapPlaces is)
    (horigin : ∀ x, origin (swapPlaces js) x = origin (swapPlaces is) x) : Replaces is js := by
  intro V W E other s hs
  have hplaces : ∀ k ∈ swapPlaces is, k < s.stack.length := by
    intro k hk
    by_contra hge
    exact hs (runWith_shuffles_wrong his hk (Nat.le_of_not_lt hge))
  obtain ⟨stack, hrun, _, hget⟩ := runWith_shuffles other his hplaces
  obtain ⟨stack', hrun', _, hget'⟩ := runWith_shuffles other hjs fun k hk => hplaces k (hsub k hk)
  have heq : stack' = stack := ext_getElem? fun j => by rw [hget', hget, horigin]
  rw [hrun, hrun', heq]

theorem swapPlaces_append (is js : List Instr) :
    swapPlaces (is ++ js) = swapPlaces is ++ swapPlaces js := by
  simp [swapPlaces]

theorem swapPlaces_zipWith {places : List Nat} (hlength : is.length = places.length) :
    swapPlaces (is.zipWith (fun i place => i.become .swap (place + 1)) places) = places := by
  induction is generalizing places with
  | nil => cases places with
    | nil => rfl
    | cons p ps => cases hlength
  | cons i is ih => cases places with
    | nil => cases hlength
    | cons p ps =>
      have hrest := ih (Nat.succ.inj hlength)
      simpa [swapPlaces, isSwap, become] using hrest

theorem swapPlaces_map_toNop (is : List Instr) : swapPlaces (is.map toNop) = [] := by
  simp [swapPlaces, filter_map, isSwap, toNop]

theorem arg_pos_of_shuffles (h : i.shuffles) (hi : i.isSwap) : 0 < i.arg := by
  rcases h with ⟨-, harg⟩ | hnop
  · exact harg
  · simp_all [isSwap, isNop]

theorem lt_of_mem_swapPlaces {d : Nat} (his : ∀ i ∈ is, i.shuffles)
    (hd : ∀ i ∈ is, i.isSwap → i.arg ≤ d) : ∀ k ∈ swapPlaces is, k < d := by
  intro k hk
  obtain ⟨j, hj, rfl⟩ := mem_map.mp hk
  obtain ⟨hj, hswap⟩ := mem_filter.mp hj
  have hle := hd j hj hswap
  have hpos := arg_pos_of_shuffles (his j hj) hswap
  omega

def deepestSwap (run : List Instr) : Nat :=
  ((run.filter (·.isSwap)).map (·.arg)).foldl max 0

theorem le_foldl_max {as : List Nat} {a init : Nat} (ha : a ≤ init ∨ a ∈ as) :
    a ≤ as.foldl max init := by
  induction as generalizing init with
  | nil => exact ha.resolve_right nofun
  | cons b as ih =>
    rw [foldl_cons]
    rcases ha with ha | ha
    · exact ih (.inl (ha.trans (Nat.le_max_left init b)))
    · rcases mem_cons.mp ha with rfl | ha
      · exact ih (.inl (Nat.le_max_right init a))
      · exact ih (.inr ha)

/-- A run of at least one exchange arranges as many places as its deepest exchange reaches. -/
theorem arranges_of_shuffles {run : List Instr} (hrun : ∀ i ∈ run, i.shuffles) (hi : i ∈ run)
    (hswap : i.isSwap) : Arranges (swapPlaces run) (permute (deepestSwap run) run) := by
  have hdepth : ∀ j ∈ run, j.isSwap → j.arg ≤ deepestSwap run := fun j hj hjswap =>
    le_foldl_max (.inr (mem_map.mpr ⟨j, mem_filter.mpr ⟨hj, hjswap⟩, rfl⟩))
  exact arranges_permute (Nat.lt_of_lt_of_le (arg_pos_of_shuffles (hrun i hi) hswap)
    (hdepth i hi hswap)) (lt_of_mem_swapPlaces hrun hdepth)

/-- A run that is made shorter: it keeps its length, and its exchanges are those that give the
permutation. -/
theorem fuseRun_spec {run : List Instr} (hrun : ∀ i ∈ run, i.shuffles) (hi : i ∈ run)
    (hswap : i.isSwap) :
    let out := exchanges (permute (deepestSwap run) run)
    out.length ≤ run.length ∧ (fuseRun run).length = run.length ∧
      (∀ j ∈ fuseRun run, j.shuffles ∧ j.target = none) ∧ swapPlaces (fuseRun run) = out.reverse ∧
      Replaces run (fuseRun run) := by
  obtain ⟨horigin, hsub, hlength⟩ := (arranges_of_shuffles hrun hi hswap).exchanges_spec
  have hlength : _ ≤ run.length := hlength.trans (by simpa [swapPlaces] using length_filter_le ..)
  unfold fuseRun
  rw [← deepestSwap]
  dsimp only
  generalize exchanges (permute (deepestSwap run) run) = out at *
  rw [length_reverse]
  have hdrop : (run.drop (run.length - out.length)).length = out.reverse.length := by
    rw [length_drop, length_reverse]
    omega
  have hnew : swapPlaces ((run.take (run.length - out.length)).map toNop ++
      (run.drop (run.length - out.length)).zipWith
        (fun i place => i.become .swap (place + 1)) out.reverse) = out.reverse := by
    rw [swapPlaces_append, swapPlaces_map_toNop, swapPlaces_zipWith hdrop, nil_append]
  have hall : ∀ j ∈ (run.take (run.length - out.length)).map toNop ++
      (run.drop (run.length - out.length)).zipWith
        (fun i place => i.become .swap (place + 1)) out.reverse, j.shuffles ∧ j.target = none := by
    intro j hj
    rcases mem_append.mp hj with hj | hj
    · obtain ⟨k, _, rfl⟩ := mem_map.mp hj
      exact ⟨.inr (isNop_toNop k), rfl⟩
    · obtain ⟨n, hn, rfl⟩ := getElem_of_mem hj
      rw [getElem_zipWith]
      exact ⟨.inl ⟨rfl, Nat.succ_pos _⟩, rfl⟩
  refine ⟨hlength, ?_, hall, hnew, replaces_of_origin hrun (fun j hj => (hall j hj).1) ?_ ?_⟩
  · simp only [length_append, length_map, length_zipWith, hdrop, Nat.min_self]
    rw [length_take, length_reverse]
    omega
  · rw [hnew]
    exact fun k hk => hsub k (mem_reverse.mp hk)
  · rw [hnew]
    exact horigin

theorem shuffles_swapRun {instrs : List Instr}
    (h : ¬ (((swapRun instrs).filter (·.isSwap)).length < 2 ∨
      ((swapRun instrs).filter (·.isSwap)).any (·.arg = 0))) :
    (∀ j ∈ swapRun instrs, j.shuffles) ∧ ∃ i ∈ swapRun instrs, i.isSwap := by
  rw [not_or] at h
  obtain ⟨i, hi⟩ : ∃ i, i ∈ (swapRun instrs).filter (·.isSwap) :=
    exists_mem_of_length_pos (Nat.lt_of_lt_of_le Nat.zero_lt_two (Nat.le_of_not_lt h.1))
  refine ⟨fun j hj => ?_, i, (mem_filter.mp hi).1, (mem_filter.mp hi).2⟩
  have hkind := mem_takeWhile_imp hj
  rcases Bool.or_eq_true_iff.mp hkind with hjswap | hnop
  · refine .inl ⟨isSwap_iff.mp hjswap, Nat.pos_of_ne_zero fun h0 => ?_⟩
    refine h.2 (any_eq_true.mpr ⟨j, mem_filter.mpr ⟨hj, hjswap⟩, ?_⟩)
    exact decide_eq_true h0
  · exact .inr hnop

theorem swapRun_append_drop (instrs : List Instr) :
    swapRun instrs ++ instrs.drop (swapRun instrs).length = instrs :=
  List.prefix_iff_eq_append.mp (List.takeWhile_prefix _)

/-- The run at the start of a list is made shorter or left alone, and nothing else changes. -/
theorem fuseSwaps_append (instrs : List Instr) :
    (fuseSwaps instrs).1 ++ (fuseSwaps instrs).2 =
      (if ((swapRun instrs).filter (·.isSwap)).length < 2 ∨
          ((swapRun instrs).filter (·.isSwap)).any (·.arg = 0) then swapRun instrs
        else fuseRun (swapRun instrs)) ++ instrs.drop (swapRun instrs).length := by
  unfold fuseSwaps
  dsimp only
  split_ifs
  · exact (swapRun_append_drop instrs).symm
  · rw [dropLast_eq_take, ← append_assoc, take_append_drop]

theorem runWith_filter_isSwap (his : ∀ i ∈ is, i.shuffles) (s : State V W E) :
    runWith other (is.filter (·.isSwap)) s = runWith other is s := by
  induction is generalizing s with
  | nil => rfl
  | cons i is ih =>
    obtain ⟨⟨hop, -⟩ | hnop, his⟩ := forall_mem_cons.mp his
    · rw [filter_cons_of_pos (isSwap_iff.mpr hop), runWith, runWith, funext (ih his)]
    · rw [filter_cons_of_neg (by simp [isSwap_iff, isNop_iff.mp hnop]), ih his, runWith,
        execWith_isNop hnop]
      rfl

/-- Exchanges that give the permutation of a run, on every stack that is deep enough for both. -/
def Realizes (js run : List Instr) : Prop :=
  (∀ j ∈ js, j.isSwap ∧ 1 ≤ j.arg) ∧
    ∀ (V W E : Type) (other : Instr → State V W E → Step V W E) (s : State V W E),
      (∀ i ∈ js ++ run, i.isSwap → i.arg ≤ s.stack.length) →
        runWith other js s = runWith other run s

/-- The permutation of a run can be seen on a stack whose items are all different. -/
theorem Realizes.origin_eq {run : List Instr} (h : Realizes js run)
    (hrun : ∀ i ∈ run, i.shuffles) (x : Nat) :
    origin (swapPlaces js) x = origin (swapPlaces run) x := by
  have hjs : ∀ j ∈ js, j.shuffles := fun j hj => .inl ⟨isSwap_iff.mp (h.1 j hj).1, (h.1 j hj).2⟩
  -- The stack is deep enough for all exchanges, and has a place `x`.
  let d := (((js ++ run).map (·.arg)).foldl max 0) + x + 1
  have hdeep : ∀ i ∈ js ++ run, i.isSwap → i.arg ≤ d := by
    intro i hi _
    have hle : i.arg ≤ ((js ++ run).map (·.arg)).foldl max 0 :=
      le_foldl_max (.inr (mem_map_of_mem hi))
    omega
  let s : State Nat Unit Unit := ⟨List.range d, fun _ => none, [], (), []⟩
  have hlength : s.stack.length = d := length_range
  let stuck : Instr → State Nat Unit Unit → Step Nat Unit Unit := fun _ _ => .wrong
  obtain ⟨stack, hrunjs, hlen, hget⟩ := runWith_shuffles (s := s) stuck hjs
    (hlength ▸ lt_of_mem_swapPlaces hjs fun i hi => hdeep i (mem_append_left _ hi))
  obtain ⟨stack', hrunrun, _, hget'⟩ := runWith_shuffles (s := s) stuck hrun
    (hlength ▸ lt_of_mem_swapPlaces hrun fun i hi => hdeep i (mem_append_right _ hi))
  have hsame := h.2 Nat Unit Unit stuck s (hlength ▸ hdeep)
  rw [hrunjs, hrunrun] at hsame
  obtain rfl : stack = stack' := by simpa using hsame
  have hx : x < stack.length := by omega
  have hjsx := (getElem?_eq_getElem hx).symm.trans (hget x)
  have hrunx := (getElem?_eq_getElem hx).symm.trans (hget' x)
  obtain ⟨_, hjsx⟩ := List.getElem?_eq_some_iff.mp hjsx.symm
  obtain ⟨_, hrunx⟩ := List.getElem?_eq_some_iff.mp hrunx.symm
  simp only [s, getElem_range] at hjsx hrunx
  rw [hjsx, hrunx]

/-- No shorter sequence of exchanges realizes the permutation of a run. -/
theorem Realizes.length_exchanges_le {run : List Instr} (h : Realizes js run)
    (hrun : ∀ i ∈ run, i.shuffles) (hi : i ∈ run) (hswap : i.isSwap) :
    (exchanges (permute (deepestSwap run) run)).length ≤ js.length := by
  have harranges := arranges_of_shuffles hrun hi hswap
  have hjs : Arranges (swapPlaces js) (permute _ run) :=
    ⟨fun j hj d => (harranges.getD j hj d).trans (h.origin_eq hrun j).symm,
      fun j hj => (h.origin_eq hrun j).trans (harranges.above j hj)⟩
  refine hjs.exchanges_spec.2.2.trans ?_
  rw [swapPlaces, length_map]
  exact length_filter_le ..

/-- A run from an exchange on is made as short as can be, with idle instructions in place of what is
left out: nothing else changes, the new exchanges fit into the place of the old ones and do the
same, and no fewer of them give the same permutation. -/
theorem fuseSwaps_shortest {rest : List Instr} (hi : i.isSwap)
    (hargs : ∀ j ∈ swapRun (i :: rest), j.isSwap → 1 ≤ j.arg) :
    let run := swapRun (i :: rest)
    ∃ new, (fuseSwaps (i :: rest)).1 ++ (fuseSwaps (i :: rest)).2 =
        new ++ (i :: rest).drop run.length ∧ new.length = run.length ∧
      (∀ (V W E : Type) (other : Instr → State V W E → Step V W E) (s : State V W E),
        (∀ j ∈ run, j.isSwap → j.arg ≤ s.stack.length) → ∃ stack,
          runWith other run s = .next { s with stack := stack } ∧
            runWith other new s = .next { s with stack := stack }) ∧
      (exchanges (permute (deepestSwap run) run)).length ≤
        run.length ∧
      (2 ≤ (run.filter (·.isSwap)).length →
        IsLeast {n | ∃ js, Realizes js run ∧ js.length = n} (new.filter (·.isSwap)).length) := by
  intro run
  have hmem : i ∈ run := by simp [run, swapRun, hi]
  have hshuffles : ∀ j ∈ run, j.shuffles := by
    intro j hj
    have hkind := mem_takeWhile_imp hj
    rcases Bool.or_eq_true_iff.mp hkind with hswap | hnop
    · exact .inl ⟨isSwap_iff.mp hswap, hargs j hj hswap⟩
    · exact .inr hnop
  obtain ⟨hfits, hlength, hall, hplaces, hreplaces⟩ := fuseRun_spec hshuffles hmem hi
  have hruns : ∀ (V W E : Type) (other : Instr → State V W E → Step V W E) (s : State V W E),
      (∀ j ∈ run, j.isSwap → j.arg ≤ s.stack.length) →
        ∃ stack, runWith other run s = .next { s with stack := stack } := by
    intro V W E other s hs
    obtain ⟨stack, hrun, -⟩ := runWith_shuffles other hshuffles (lt_of_mem_swapPlaces hshuffles hs)
    exact ⟨stack, hrun⟩
  rw [fuseSwaps_append]
  refine ⟨_, rfl, ?_, fun V W E other s hs => ?_, hfits, fun htwo => ?_⟩
  · split_ifs
    · rfl
    · exact hlength
  · obtain ⟨stack, hrun⟩ := hruns V W E other s hs
    refine ⟨stack, hrun, ?_⟩
    split_ifs
    · exact hrun
    · exact (hreplaces V W E other s (by rw [hrun]; nofun)).trans hrun
  · have hleave :
        ¬((run.filter (·.isSwap)).length < 2 ∨ (run.filter (·.isSwap)).any (·.arg = 0)) := by
      rintro (hlt | hzero)
      · omega
      · obtain ⟨j, hj, h0⟩ := any_eq_true.mp hzero
        obtain ⟨hj, hjswap⟩ := mem_filter.mp hj
        have := hargs j hj hjswap
        have := of_decide_eq_true h0
        omega
    rw [if_neg hleave]
    have hcount : ((fuseRun run).filter (·.isSwap)).length =
        (exchanges (permute (deepestSwap run) run)).length := by
      simpa [swapPlaces] using congrArg length hplaces
    refine ⟨⟨(fuseRun run).filter (·.isSwap), ⟨fun j hj => ?_, fun V W E other s hs => ?_⟩, rfl⟩,
      ?_⟩
    · obtain ⟨hj, hjswap⟩ := mem_filter.mp hj
      exact ⟨hjswap, arg_pos_of_shuffles (hall j hj).1 hjswap⟩
    · obtain ⟨stack, hrun⟩ := hruns V W E other s fun j hj => hs j (mem_append_right _ hj)
      rw [runWith_filter_isSwap fun j hj => (hall j hj).1]
      exact hreplaces V W E other s (by rw [hrun]; nofun)
    · rintro n ⟨js, hjs, rfl⟩
      rw [hcount]
      exact hjs.length_exchanges_le hshuffles hmem hi

/-- Four exchanges with an idle instruction among them, which rotate three values twice. Two are
enough. -/
def fourExchanges : List Instr :=
  [{ op := .real .swap, arg := 2 }, { op := .real .nop }, { op := .real .swap, arg := 3 },
    { op := .real .swap, arg := 2 }, { op := .real .swap, arg := 3 }, { op := .real .popTop }]

theorem fuseSwaps_shortest_fourExchanges :
    let run := swapRun fourExchanges
    (∀ j ∈ run, j.isSwap → 1 ≤ j.arg) ∧
      ∃ new, (fuseSwaps fourExchanges).1 ++ (fuseSwaps fourExchanges).2 =
          new ++ fourExchanges.drop run.length ∧ new.length = run.length ∧
        (∀ (V W E : Type) (other : Instr → State V W E → Step V W E) (s : State V W E),
          (∀ j ∈ run, j.isSwap → j.arg ≤ s.stack.length) → ∃ stack,
            runWith other run s = .next { s with stack := stack } ∧
              runWith other new s = .next { s with stack := stack }) ∧
        IsLeast {n | ∃ js, Realizes js run ∧ js.length = n} (new.filter (·.isSwap)).length := by
  have hargs : ∀ j ∈ swapRun fourExchanges, j.isSwap → 1 ≤ j.arg := by decide
  obtain ⟨new, heq, hlength, hruns, -, hleast⟩ :=
    @fuseSwaps_shortest _ fourExchanges.tail rfl hargs
  exact ⟨hargs, new, heq, hlength, hruns, hleast (by decide)⟩

/-! ### Consumers -/

def consume : List Instr → List V → (Nat → Option V) → Nat → Option V
  | i :: is, v :: vs, locals => consume is vs (bindLocal i v locals)
  | _, _, locals => locals

theorem consume_append {vs ws : List V} (hlength : is.length = vs.length)
    (locals : Nat → Option V) :
    consume (is ++ js) (vs ++ ws) locals = consume js ws (consume is vs locals) := by
  induction is generalizing vs locals with
  | nil => cases vs with
    | nil => rfl
    | cons v vs => cases hlength
  | cons i is ih => cases vs with
    | nil => cases hlength
    | cons v vs => exact ih (Nat.succ.inj hlength) _

/-- The second instruction does not store where the first does. -/
def Instr.Apart (a b : Instr) : Prop :=
  ∀ k, a.storedSlot? = some k → b.storedSlot? ≠ some k

theorem bindLocal_comm (h : a.Apart b) (v w : V) (locals : Nat → Option V) :
    bindLocal a v (bindLocal b w locals) = bindLocal b w (bindLocal a v locals) := by
  unfold bindLocal
  cases ha : a.storedSlot? with
  | none => rfl
  | some k => cases hb : b.storedSlot? with
    | none => rfl
    | some l =>
      have hne : l ≠ k := fun hkl => h k ha (hkl ▸ hb)
      exact Function.update_comm hne _ _ _

theorem bindLocal_consume_comm (h : ∀ i ∈ is, a.Apart i) (v : V) (vs : List V)
    (locals : Nat → Option V) :
    bindLocal a v (consume is vs locals) = consume is vs (bindLocal a v locals) := by
  induction is generalizing vs locals with
  | nil => rfl
  | cons i is ih => cases vs with
    | nil => rfl
    | cons w ws =>
      obtain ⟨hi, his⟩ := forall_mem_cons.mp h
      rw [consume, consume, ih his, bindLocal_comm hi]

/-- What may stand between an exchange and the consumers of its values. -/
def Instr.consumes (i : Instr) : Prop :=
  i.isNop ∨ i.isConsumer

theorem isConsumer_eq_false (hi : i.isNop) : i.isConsumer = false := by
  simp [isConsumer, isNop_iff.mp hi]

theorem runWith_consumes (his : ∀ i ∈ is, i.consumes)
    (hlength : (is.filter (·.isConsumer)).length ≤ s.stack.length) :
    runWith other is s = .next { s with
      stack := s.stack.drop (is.filter (·.isConsumer)).length
      locals := consume (is.filter (·.isConsumer)) s.stack s.locals } := by
  induction is generalizing s with
  | nil => rfl
  | cons i is ih =>
    rw [runWith]
    obtain ⟨hnop | hconsumer, his⟩ := forall_mem_cons.mp his
    · rw [filter_cons_of_neg (by simp [isConsumer_eq_false hnop])] at hlength ⊢
      rw [execWith_isNop hnop]
      exact ih his hlength
    · rw [filter_cons_of_pos hconsumer] at hlength ⊢
      obtain ⟨stack, locals, handlers, world, events⟩ := s
      cases stack with
      | nil => exact absurd hlength (by simp)
      | cons v rest =>
        rw [execWith_isConsumer hconsumer]
        exact ih (s := ⟨rest, bindLocal i v locals, handlers, world, events⟩) his
          (Nat.le_of_succ_le_succ hlength)

theorem exchangeTop_split (x y : V) (mid tail : List V) :
    exchangeTop (mid.length + 2) (x :: (mid ++ y :: tail)) = some (y :: (mid ++ x :: tail)) := by
  have hy : (x :: (mid ++ y :: tail))[mid.length + 1]? = some y := by simp
  simp only [exchangeTop, show mid.length + 2 - 1 = mid.length + 1 from rfl, hy, getElem?_cons_zero]
  simp

theorem exists_split (h : n + 2 ≤ stack.length) :
    ∃ x mid y tail, stack = x :: (mid ++ y :: tail) ∧ mid.length = n := by
  obtain ⟨x, rest, rfl⟩ := exists_cons_of_length_pos (Nat.lt_of_lt_of_le (by omega) h)
  have hlt : n < rest.length := Nat.lt_of_succ_lt_succ h
  refine ⟨x, rest.take n, rest[n], rest.drop (n + 1), ?_, by simp; omega⟩
  rw [List.cons.injEq]
  exact ⟨rfl, by simp⟩

theorem nextConsumer_spec {line : Option Int} {pre : List Instr} {c : Instr}
    (h : nextConsumer line is = some (pre, c, post)) :
    is = pre ++ c :: post ∧ (∀ i ∈ pre, i.isNop) ∧ c.isConsumer := by
  induction is generalizing pre with
  | nil => cases h
  | cons i is ih =>
    rw [nextConsumer] at h
    split_ifs at h with hline hnop hconsumer
    · obtain ⟨⟨pre', c', post'⟩, hrest, heq⟩ := Option.map_eq_some_iff.mp h
      cases heq
      obtain ⟨rfl, hpre, hc⟩ := ih hrest
      exact ⟨rfl, forall_mem_cons.mpr ⟨hnop, hpre⟩, hc⟩
    · cases h
      exact ⟨rfl, by simp, hconsumer⟩

theorem filter_isConsumer_eq_nil (h : ∀ i ∈ is, i.isNop) : is.filter (·.isConsumer) = [] :=
  filter_eq_nil_iff.mpr fun i hi => by simp [isConsumer_eq_false (h i hi)]

theorem consumerAfter_spec {line : Int} {d : Instr}
    (h : consumerAfter line n is = some (mid, d, post)) :
    is = mid ++ d :: post ∧ (∀ i ∈ mid, i.consumes) ∧ (mid.filter (·.isConsumer)).length = n ∧
      d.isConsumer := by
  induction n generalizing is mid with
  | zero =>
    obtain ⟨rfl, hmid, hd⟩ := nextConsumer_spec h
    exact ⟨rfl, fun i hi => .inl (hmid i hi), by rw [filter_isConsumer_eq_nil hmid]; rfl, hd⟩
  | succ n ih =>
    obtain ⟨⟨pre, c, rest⟩, hnext, h⟩ := Option.bind_eq_some_iff.mp h
    obtain ⟨⟨mid', d', post'⟩, hafter, h⟩ := Option.bind_eq_some_iff.mp h
    cases h
    obtain ⟨rfl, hpre, hc⟩ := nextConsumer_spec hnext
    obtain ⟨rfl, hmid, hlength, hd⟩ := ih hafter
    refine ⟨by simp, fun i hi => ?_, ?_, hd⟩
    · rcases mem_append.mp hi with hi | hi
      · exact .inl (hpre i hi)
      · rcases mem_cons.mp hi with rfl | hi
        · exact .inr hc
        · exact hmid i hi
    · rw [filter_append, filter_isConsumer_eq_nil hpre, nil_append,
        filter_cons_of_pos hc, length_cons, hlength]

theorem canExchange_spec (h : canExchange a b mid) :
    a.Apart b ∧ ∀ i ∈ mid, a.Apart i ∧ b.Apart i := by
  unfold canExchange at h
  split at h
  · rename_i ha hb
    refine ⟨fun k hk => ?_, fun i _ => ⟨fun k hk => ?_, fun k hk => ?_⟩⟩ <;> simp_all
  · simp only [Bool.and_eq_true, decide_eq_true_eq, Bool.not_eq_true', any_eq_false,
      Option.any_eq_true, Bool.or_eq_true, not_exists, not_and, not_or] at h
    refine ⟨fun k hk hk' => h.1 (hk.trans hk'.symm), fun i hi => ⟨fun k hk hk' => ?_,
      fun k hk hk' => ?_⟩⟩
    · exact (h.2 i hi k hk').1 hk.symm
    · exact (h.2 i hi k hk').2 hk.symm

/-- An exchange before the consumers of its two values is as good as the consumers exchanged. -/
theorem replaces_exchangeConsumers {pre : List Instr} (hi : i.isSwap)
    (harg : i.arg = (mid.filter (·.isConsumer)).length + 2) (hpre : ∀ j ∈ pre, j.isNop)
    (ha : a.isConsumer) (hmid : ∀ j ∈ mid, j.consumes) (hb : b.isConsumer)
    (hcan : canExchange a b mid) :
    Replaces (i :: (pre ++ a :: (mid ++ [b]))) (i.toNop :: (pre ++ b :: (mid ++ [a]))) := by
  have hall : ∀ {c d : Instr}, c.isConsumer → d.isConsumer →
      (∀ j ∈ pre ++ c :: (mid ++ [d]), j.consumes) ∧
        (pre ++ c :: (mid ++ [d])).filter (·.isConsumer) =
          c :: (mid.filter (·.isConsumer) ++ [d]) := by
    intro c d hc hd
    refine ⟨fun j hj => ?_, ?_⟩
    · simp only [mem_append, mem_cons, not_mem_nil, or_false] at hj
      rcases hj with hj | rfl | hj | rfl
      exacts [.inl (hpre j hj), .inr hc, hmid j hj, .inr hd]
    · rw [filter_append, filter_isConsumer_eq_nil hpre, nil_append,
        filter_cons_of_pos hc, filter_append, filter_cons_of_pos hd, filter_nil]
  obtain ⟨hapart, hmidapart⟩ := canExchange_spec hcan
  intro V W E other s hs
  rw [runWith, execWith_isSwap hi] at hs
  rw [runWith, runWith, execWith_isSwap hi, execWith_isNop (isNop_toNop i)]
  rcases Nat.lt_or_ge s.stack.length i.arg with hlt | hge
  · rw [exchangeTop_eq_none hlt] at hs
    exact absurd rfl hs
  rw [harg] at hge
  obtain ⟨stack, locals, handlers, world, events⟩ := s
  obtain ⟨x, vs, y, tail, rfl, hlength⟩ := exists_split hge
  rw [harg, ← hlength, exchangeTop_split]
  simp only [Step.andThen]
  have hfits : ∀ u w : V, (mid.filter (·.isConsumer)).length + 2 ≤
      (u :: (vs ++ w :: tail)).length := by simp [hlength]
  rw [runWith_consumes (hall ha hb).1 (by rw [(hall ha hb).2]; simpa using hfits y x),
    runWith_consumes (hall hb ha).1 (by rw [(hall hb ha).2]; simpa using hfits x y),
    (hall ha hb).2, (hall hb ha).2]
  have hsame : ∀ (c d : Instr) (u w : V),
      consume (c :: (mid.filter (·.isConsumer) ++ [d])) (u :: (vs ++ w :: tail)) locals =
        bindLocal d w (consume (mid.filter (·.isConsumer)) vs (bindLocal c u locals)) := by
    intro c d u w
    rw [consume, consume_append hlength.symm]
    rfl
  have hcomm : bindLocal a y (consume (mid.filter (·.isConsumer)) vs (bindLocal b x locals)) =
      bindLocal b x (consume (mid.filter (·.isConsumer)) vs (bindLocal a y locals)) := by
    have hin : ∀ j ∈ mid.filter (·.isConsumer), a.Apart j ∧ b.Apart j :=
      fun j hj => hmidapart j (mem_of_mem_filter hj)
    rw [bindLocal_consume_comm fun j hj => (hin j hj).1,
      bindLocal_consume_comm fun j hj => (hin j hj).2,
      bindLocal_comm hapart]
  have hdrop : ∀ w : V, (vs ++ w :: tail).drop (vs.length + 1) = tail := by
    intro w
    rw [append_cons, drop_left' (by simp)]
  rw [hsame, hsame, hcomm]
  simp [← hlength, hdrop]

theorem replaces_idleSwap (hi : i.isSwap) (harg : i.arg < 2) : Replaces [i] [i.toNop] := by
  intro V W E other s hs
  simp only [runWith, execWith_isSwap hi, execWith_isNop (isNop_toNop i)] at hs ⊢
  rcases Nat.lt_or_ge s.stack.length i.arg with hlt | hge
  · rw [exchangeTop_eq_none hlt] at hs
    exact absurd rfl hs
  · rcases Nat.eq_zero_or_pos i.arg with h0 | hpos
    · rw [h0] at hs
      exact absurd rfl hs
    · obtain ⟨stack, hstack, _, hget⟩ := exchangeTop_spec hpos hge
      have hone : i.arg - 1 = 0 := by omega
      have heq : stack = s.stack := ext_getElem? fun j => by
        rw [hget, hone, Equiv.swap_self]
        rfl
      rw [hstack, heq]

/-- Exchanges have been left out, whose consumers have changed places. -/
inductive Unswaps : List Instr → List Instr → Prop where
  | refl (is : List Instr) : Unswaps is is
  | idle {i : Instr} (hi : i.isSwap) (harg : i.arg < 2) : Unswaps [i] [i.toNop]
  | exchange {i a b : Instr} {pre mid : List Instr} (hi : i.isSwap)
      (harg : i.arg = (mid.filter (·.isConsumer)).length + 2) (hpre : ∀ j ∈ pre, j.isNop)
      (ha : a.isConsumer) (hmid : ∀ j ∈ mid, j.consumes) (hb : b.isConsumer)
      (hcan : canExchange a b mid) :
      Unswaps (i :: (pre ++ a :: (mid ++ [b]))) (i.toNop :: (pre ++ b :: (mid ++ [a])))
  | append {is js is' js' : List Instr} (h : Unswaps is js) (h' : Unswaps is' js') :
      Unswaps (is ++ is') (js ++ js')
  | trans {is js ks : List Instr} (h : Unswaps is js) (h' : Unswaps js ks) : Unswaps is ks

theorem unswaps_exchangeConsumers {after after' : List Instr} (hi : i.isSwap)
    (h : exchangeConsumers i.arg after = some after') :
    Unswaps (i :: after) (i.toNop :: after') := by
  obtain ⟨⟨pre, a, rest⟩, hnext, h⟩ := Option.bind_eq_some_iff.mp h
  obtain ⟨rfl, hpre, ha⟩ := nextConsumer_spec hnext
  dsimp only at h
  split_ifs at h with hcount hstore
  · obtain rfl := Option.some.inj h
    exact (Unswaps.idle hi hcount).append (.refl _)
  · obtain ⟨⟨mid, b, post⟩, hafter, hresult⟩ := Option.bind_eq_some_iff.mp h
    obtain ⟨rfl, hmid, hlength, hb⟩ := consumerAfter_spec hafter
    dsimp only at hresult
    split_ifs at hresult with hcan
    obtain rfl := Option.some.inj hresult
    have hchange := Unswaps.exchange hi (by omega) hpre ha hmid hb hcan
    simpa using hchange.append (.refl post)

theorem unswaps_exchangeBack (before after : List Instr) :
    Unswaps (before.reverse ++ after) (exchangeBack before after) := by
  fun_induction exchangeBack before after with
  | case1 after => exact .refl after
  | case2 i before after hi after' h ih =>
    refine .trans ?_ ih
    rw [reverse_cons, append_assoc]
    exact (Unswaps.refl before.reverse).append (unswaps_exchangeConsumers hi h)
  | case3 => exact .refl _
  | case4 i before after _ _ ih =>
    rw [reverse_cons, append_assoc]
    exact ih
  | case5 => exact .refl _

theorem Unswaps.replaces (h : Unswaps is js) : Replaces is js := by
  induction h with
  | refl is => exact fun _ _ _ _ _ _ => rfl
  | idle hi harg => exact replaces_idleSwap hi harg
  | exchange hi harg hpre ha hmid hb hcan =>
    exact replaces_exchangeConsumers hi harg hpre ha hmid hb hcan
  | append _ _ ih ih' => exact ih.append ih'
  | trans _ _ ih ih' =>
    intro V W E other s hs
    have hfirst := ih V W E other s hs
    exact (ih' V W E other s (hfirst ▸ hs)).trans hfirst

/-- The instruction stays, or is an exchange that has become idle. -/
def Instr.Idles (i j : Instr) : Prop :=
  j = i ∨ i.isSwap ∧ j = i.toNop

theorem Unswaps.exists_perm (h : Unswaps is js) : ∃ mid, Forall₂ Idles is mid ∧ mid.Perm js := by
  have hsame : ∀ is, Forall₂ Idles is is := fun is => forall₂_same.mpr fun _ _ => .inl rfl
  induction h with
  | refl is => exact ⟨is, hsame is, .refl is⟩
  | idle hi => exact ⟨_, .cons (.inr ⟨hi, rfl⟩) .nil, .refl _⟩
  | @exchange i a b pre mid hi =>
    refine ⟨_, .cons (.inr ⟨hi, rfl⟩) (hsame _), .cons _ (.append_left _ ?_)⟩
    exact ((perm_append_singleton b mid).cons a).trans
      ((Perm.swap b a mid).trans ((perm_append_singleton a mid).symm.cons b))
  | append _ _ ih ih' =>
    obtain ⟨mid, hmid, hperm⟩ := ih
    obtain ⟨mid', hmid', hperm'⟩ := ih'
    exact ⟨mid ++ mid', rel_append hmid hmid', hperm.append hperm'⟩
  | trans _ _ ih ih' =>
    obtain ⟨mid, hmid, hperm⟩ := ih
    obtain ⟨mid', hmid', hperm'⟩ := ih'
    obtain ⟨last, hlast, hlastperm⟩ := perm_comp_forall₂ hperm hmid'
    refine ⟨last, Result.forall₂_trans hmid hlast fun i j k hij hjk => ?_, hlastperm.trans hperm'⟩
    rcases hjk with rfl | ⟨hj, rfl⟩
    · exact hij
    · rcases hij with rfl | ⟨-, rfl⟩
      · exact .inr ⟨hj, rfl⟩
      · cases hj

/-- Exchanges up to an instruction of a block are left out: the block does what it did wherever that
did not go wrong, whatever the other instructions do, and its instructions are the old ones in some
order, but for exchanges that have become idle. -/
theorem exchangeBack_sameEffect (instrs : List Instr) (last : Nat) :
    let new := exchangeBack (instrs.take (last + 1)).reverse (instrs.drop (last + 1))
    (∀ (V W E : Type) (other : Instr → State V W E → Step V W E) (s : State V W E),
      runWith other instrs s ≠ .wrong → runWith other new s = runWith other instrs s) ∧
      new.length = instrs.length ∧ ∃ mid, Forall₂ Idles instrs mid ∧ mid.Perm new := by
  have h := unswaps_exchangeBack (instrs.take (last + 1)).reverse (instrs.drop (last + 1))
  rw [reverse_reverse, take_append_drop] at h
  obtain ⟨mid, hmid, hperm⟩ := h.exists_perm
  exact ⟨h.replaces, hperm.length_eq.symm.trans hmid.length_eq.symm, mid, hmid, hperm⟩

end Bytecode
