import Bytecode.Proofs.Locals.Checks
import Bytecode.Proofs.Locals.Handlers

/-!
# Loads without a check

After all passes, no path comes to a load without a check while its local is unbound, if the paths
to a block agree on the handlers that are open there, and none runs off the end.
-/

namespace Bytecode

open Option List Result

def Instr.bindsIn (i : Instr) (bound : List Nat) : List Nat :=
  match i.op with
  | .real .storeFast | .real .loadFastCheck => i.arg :: bound
  | .real .deleteFast => bound.filter (· ≠ i.arg)
  | _ => bound

theorem Instr.binds_eq (i : Instr) (bound : List Nat) :
    i.binds { x | x ∈ bound } = { x | x ∈ i.bindsIn bound } := by
  ext x
  unfold binds bindsIn
  split <;> simp [*, and_comm]

namespace Graph

variable {g r k : Graph} {types : BlockId → Option Facts} {params n : Nat} {id : BlockId}
  {is : List Instr} {B : Set Nat} {i : Instr} {turns : List Turn}

/-- A path from the entry comes to these instructions of a block, with these locals bound. A load
with a check goes on only if its local is bound, and a fault may leave any instruction for its
handler. -/
inductive Arrives (g : Graph) (params : Nat) : BlockId → List Instr → Set Nat → Prop where
  | entry : g.Arrives params g.entry (g.block g.entry).instrs { x | x < params }
  | next {id : BlockId} {i : Instr} {is : List Instr} {B : Set Nat}
      (h : g.Arrives params id (i :: is) B) (hfall : i.op.fallsThrough)
      (hcheck : i.op = .real .loadFastCheck → i.arg ∈ B) : g.Arrives params id is (i.binds B)
  | jump {id t : BlockId} {i : Instr} {is : List Instr} {B : Set Nat}
      (h : g.Arrives params id (i :: is) B) (hop : i.op.isJump) (ht : i.target = some t) :
      g.Arrives params t (g.block t).instrs B
  | raise {id t : BlockId} {i : Instr} {is : List Instr} {B : Set Nat}
      (h : g.Arrives params id (i :: is) B) (ht : i.handler = some t) :
      g.Arrives params t (g.block t).instrs B
  | fall {id n : BlockId} {B : Set Nat} (h : g.Arrives params id [] B)
      (hn : (g.block id).next = some n) : g.Arrives params n (g.block n).instrs B

theorem Arrives.exists_append (h : g.Arrives params id is B) :
    ∃ pre, (g.block id).instrs = pre ++ is := by
  induction h with
  | @next id i is B _ _ _ ih =>
    obtain ⟨pre, hpre⟩ := ih
    exact ⟨pre ++ [i], by simp [hpre]⟩
  | _ => exact ⟨[], rfl⟩

/-- On every path the facts of a certificate hold. -/
theorem Certified.arrives (hg : g.Certified True params types) (hr : g.Regular)
    (h : g.Arrives params id is B) : id ∈ g.order ∧
      ∃ S, Tracks True types (g.Continues types id) is S B := by
  have hmem : ∀ {id i is B}, g.Arrives params id (i :: is) B → i ∈ (g.block id).instrs := by
    intro id i is B h
    obtain ⟨pre, hpre⟩ := h.exists_append
    simp [hpre]
  induction h with
  | entry => exact ⟨hr.layout.entry_mem, [], hg.enters hr.layout.entry_mem hg.entry⟩
  | next _ hfall _ ih =>
    obtain ⟨hid, S, htracks⟩ := ih
    exact ⟨hid, _, htracks.2 hfall⟩
  | @jump id t i is B h hop ht ih =>
    obtain ⟨hid, S, htracks⟩ := ih
    have htmem := (hr.holds id hid i (hmem h)).target t ht
    exact ⟨htmem, S, hg.enters htmem (htracks.1.jump hop t ht)⟩
  | @raise id t i is B h ht ih =>
    obtain ⟨hid, S, htracks⟩ := ih
    have htmem := (hr.holds id hid i (hmem h)).handler t ht
    have hhead : (i.handlersAt S).head? = some t := by
      rcases htracks.1.handled with hhandler | ⟨_, hnone⟩
      · rw [← hhandler, ht]
      · rw [ht] at hnone
        cases hnone
    obtain ⟨f, hf, hB⟩ := htracks.1.guarded (.inl (by rw [ht]; rfl)) t hhead
    exact ⟨htmem, f.handlers, hg.enters htmem ⟨f, hf, rfl, hB⟩⟩
  | fall _ hn ih =>
    obtain ⟨hid, S, n, hn', henters⟩ := ih
    obtain rfl := some.inj (hn.symm.trans hn')
    have hnmem := hr.closed.next_mem hid hn
    exact ⟨hnmem, S, hg.enters hnmem henters⟩

instance (g : Graph) (n : Nat) : Decidable (g.Fits n) :=
  inferInstanceAs (Decidable (∀ id ∈ g.order, ∀ i ∈ (g.block id).instrs, i.op.isFast → i.arg < n))

theorem Fits.supplies (hg : g.Fits n) (h : g.Supplies k) : k.Fits n := by
  intro id hid j hj hfast
  obtain ⟨a, ha, i, hi, hstems⟩ := h id hid j hj
  rcases hstems with hmade | ⟨hop, harg⟩
  · rcases Operation.isFast_cases hfast with hop | hop | hop | hop <;> rw [hop] at hmade <;>
      cases hmade
  · exact harg ▸ hg a ha i hi (hop ▸ hfast)

theorem Fits.labels (hg : g.Fits n) (h : Relates Instr.Labels g k) : k.Fits n := by
  intro id hid j hj hfast
  rw [h.links.order] at hid
  obtain ⟨i, hi, handler, arg, rfl, harg⟩ := exists_of_mem_forall₂ (h.instrs id) hj
  rcases harg with rfl | hop
  · exact hg id hid i hi hfast
  · rw [show ({ i with handler := handler, arg := arg } : Instr).op = i.op from rfl, hop] at hfast
    cases hfast

theorem Fits.markHandlers (hg : g.Fits n) : g.markHandlers.Fits n := by
  intro id hid i hi
  rw [instrs_markHandlers] at hi
  exact hg id (g.sameLinks_markHandlers.order ▸ hid) i hi

theorem Stages.certified {shape : UnitShape} {labelled first second final : Graph}
    (h : Stages shape r labelled first second final k) (hr : r.Resolved) (hsteady : r.Steady)
    (hends : r.Ends) (hfits : r.Fits shape.localCount) :
    ∃ types, k.Certified True shape.paramCount types := by
  have hlinks := r.sameLinks_markHandlers
  have hinstrs := r.instrs_markHandlers
  obtain ⟨_, hlabelled⟩ := hr.regular_markHandlers.certified_labelHandlers
    (hsteady.congr hlinks hinstrs) (hends.congr hlinks hinstrs) h.labels shape.paramCount
  obtain ⟨_, hfirst⟩ := hlabelled.steps h.regular h.early
  have hfits := (hfits.markHandlers.labels (relates_labelHandlers h.labels)).supplies
    (Steps.supplies h.early h.regular)
  obtain ⟨_, hchecked⟩ := hfirst.checkUnboundLoads h.tidiedFirst.regular hfits
  have htidied := h.tidiedFirst.checkUnboundLoads shape.localCount shape.paramCount
  obtain ⟨_, hmoved⟩ := hchecked.moveColdToEnd htidied
  obtain ⟨_, hsecond⟩ := hmoved.steps htidied.moveColdToEnd.regular h.late
  have hfinal := hsecond.echoes h.constants fun _ _ => Instr.Renumbers.echoes
  exact h.lines ▸ hfinal.resolveLines h.tidiedFinal.regular shape.firstLine

/-- After all passes, no path comes to a load without a check while its local is unbound. -/
theorem bound_of_arrives_loadFast {config : PassConfig} {shape : UnitShape}
    {cs cs' : List Constant} (hlabels : g.resolveLabels = .ok r) (hr : r.Resolved)
    (hsteady : r.Steady) (hends : r.Ends) (hfits : r.Fits shape.localCount)
    (h : g.optimizeUnit config shape cs = .ok (k, cs')) :
    ∀ id i is B, k.Arrives shape.paramCount id (i :: is) B → i.op = .real .loadFast →
      i.arg ∈ B := by
  intro id i is B harrives hop
  obtain ⟨_, _, _, _, hstages⟩ := hr.exists_stages hlabels h
  obtain ⟨types, hcertified⟩ := hstages.certified hr hsteady hends hfits
  have hregular := hstages.lines ▸ (hstages.tidiedFinal.resolveLines shape.firstLine).regular
  obtain ⟨_, S, htracks⟩ := hcertified.arrives hregular harrives
  exact htracks.1.bound trivial hop

/-- A local is bound in a guarded region, and loaded there, behind it and by the handler; another
one, too far to be followed through the graph, is bound before and loaded by the handler. -/
def guardedStore : List ListingItem :=
  [.real .loadName 0 1, .real .storeFast 65 1, .pseudo .setupFinally 1 2, .real .loadName 0 3,
   .real .storeFast 0 3, .real .loadFast 0 4, .real .popTop 0 4, .pseudo .popBlock 0 4,
   .real .loadFast 0 5, .real .returnValue 0 5, .label 1, .instr (.real .pushExcInfo) 0 .none,
   .real .loadFast 0 6, .real .popTop 0 6, .real .loadFast 65 6, .real .returnValue 0 6]

def loads (g : Graph) : List (Operation × Nat) :=
  (g.body.flatten.filter fun i => i.op = .real .loadFast || i.op = .real .loadFastCheck).map
    fun i => (i.op, i.arg)

theorem exists_run_of_any {x : Result Graph} {run : Graph → Result (Graph × List Constant)}
    {p : Graph → Bool} {q : Graph × List Constant → Bool}
    (h : x.toOption.any fun g => p g && (run g).toOption.any fun result => q result) :
    ∃ g k cs, x = .ok g ∧ p g ∧ run g = .ok (k, cs) ∧ q (k, cs) := by
  obtain ⟨g, hg, h⟩ := exists_of_any h
  obtain ⟨hp, h⟩ := (Bool.and_eq_true _ _).mp h
  obtain ⟨⟨k, cs⟩, hrun, hq⟩ := exists_of_any h
  exact ⟨g, k, cs, hg, hp, hrun, hq⟩

theorem bound_of_arrives_guardedStore : ∃ g k cs', ofItems guardedStore = .ok g ∧
    g.optimizeUnit {} { localCount := 66 } [.none] = .ok (k, cs') ∧
    k.loads = [(.real .loadFast, 0), (.real .loadFast, 0), (.real .loadFastCheck, 0),
      (.real .loadFastCheck, 65)] ∧
    ∀ id i is B, k.Arrives 0 id (i :: is) B → i.op = .real .loadFast → i.arg ∈ B := by
  have hok : (ofItems guardedStore).toOption.any fun g =>
      decide (g.Fits 66) && g.handlersAgree (fun _ => []) && g.stops &&
      (g.optimizeUnit {} { localCount := 66 } [.none]).toOption.any fun result =>
        result.1.loads = [(.real .loadFast, 0), (.real .loadFast, 0), (.real .loadFastCheck, 0),
          (.real .loadFastCheck, 65)] := by decide +kernel
  obtain ⟨g, k, cs', hitems, hok, hopt, hloads⟩ := exists_run_of_any hok
  simp only [Bool.and_eq_true, decide_eq_true_eq] at hok
  obtain ⟨⟨hfits, hagree⟩, hstops⟩ := hok
  have hresolved := resolved_ofItems hitems
  have hwithin := hresolved.wired.within
  obtain ⟨r, hlabels, _⟩ := bind_eq_ok.mp hopt
  have heq := hresolved.relates_resolveLabels hlabels
  refine ⟨g, k, cs', hitems, hopt, of_decide_eq_true hloads, bound_of_arrives_loadFast hlabels
    (hresolved.congr heq) ((hwithin.steady_of_agree hagree).congr heq.links heq.instrs_eq)
    ((hwithin.ends_of_stops hstops).congr heq.links heq.instrs_eq) ?_ hopt⟩
  intro id hid i hi
  rw [heq.instrs_eq] at hi
  exact hfits id (heq.links.order ▸ hid) i hi

/-! ### Paths that are given -/

/-- How a path goes on. -/
inductive Turn where
  | next | jump | raise | fall

/-- Where a path is, with a list of the locals that are bound there. -/
structure Place where
  block : BlockId
  rest : List Instr
  bound : List Nat

def enter (g : Graph) (bound : List Nat) (t : BlockId) : Place :=
  ⟨t, (g.block t).instrs, bound⟩

def go (g : Graph) (p : Place) : Turn → Option Place
  | .next =>
    match p.rest with
    | i :: rest =>
      if i.op.fallsThrough && (i.op ≠ .real .loadFastCheck || p.bound.contains i.arg) then
        some ⟨p.block, rest, i.bindsIn p.bound⟩
      else none
    | [] => none
  | .jump => p.rest.head?.bind fun i => if i.op.isJump then i.target.map (g.enter p.bound) else none
  | .raise => p.rest.head?.bind fun i => i.handler.map (g.enter p.bound)
  | .fall => if p.rest.isEmpty then (g.block p.block).next.map (g.enter p.bound) else none

/-- Whether a path that takes these turns comes to a load without a check whose local is unbound. -/
def loadsUnbound (g : Graph) (params : Nat) (turns : List Turn) : Bool :=
  (turns.foldlM g.go (g.enter (range params) g.entry)).any fun p =>
    p.rest.head?.any fun i => i.op = .real .loadFast && !p.bound.contains i.arg

theorem arrives_go {p q : Place} {turn : Turn}
    (hp : g.Arrives params p.block p.rest { x | x ∈ p.bound }) (h : g.go p turn = some q) :
    g.Arrives params q.block q.rest { x | x ∈ q.bound } := by
  obtain ⟨id, rest, bound⟩ := p
  cases turn with
  | next =>
    cases rest with
    | nil => cases h
    | cons i rest =>
      simp only [go] at h
      split_ifs at h with hif
      cases h
      simp only [Bool.and_eq_true, Bool.or_eq_true, decide_eq_true_eq, contains_iff_mem] at hif
      rw [← i.binds_eq]
      exact hp.next hif.1 fun hop => hif.2.resolve_left fun hne => hne hop
  | jump =>
    obtain ⟨i, hi, h⟩ := bind_eq_some_iff.mp h
    obtain ⟨rest, rfl⟩ := head?_eq_some_iff.mp hi
    split_ifs at h with hop
    obtain ⟨t, ht, rfl⟩ := map_eq_some_iff.mp h
    exact hp.jump hop ht
  | raise =>
    obtain ⟨i, hi, h⟩ := bind_eq_some_iff.mp h
    obtain ⟨rest, rfl⟩ := head?_eq_some_iff.mp hi
    obtain ⟨t, ht, rfl⟩ := map_eq_some_iff.mp h
    exact hp.raise ht
  | fall =>
    simp only [go] at h
    split_ifs at h with hempty
    obtain rfl := isEmpty_iff.mp hempty
    obtain ⟨t, ht, rfl⟩ := map_eq_some_iff.mp h
    exact hp.fall ht

theorem arrives_foldlM {p q : Place} (hp : g.Arrives params p.block p.rest { x | x ∈ p.bound })
    (h : turns.foldlM g.go p = some q) : g.Arrives params q.block q.rest { x | x ∈ q.bound } := by
  induction turns generalizing p with
  | nil =>
    cases h
    exact hp
  | cons turn turns ih =>
    obtain ⟨p', hp', h⟩ := bind_eq_some_iff.mp (foldlM_cons.symm.trans h)
    exact ih (arrives_go hp hp') h

/-- A path comes to a load without a check whose local is unbound. -/
def ReadsUnbound (g : Graph) (params : Nat) : Prop :=
  ∃ id i is B, g.Arrives params id (i :: is) B ∧ i.op = .real .loadFast ∧ i.arg ∉ B

theorem readsUnbound_of_loadsUnbound (h : g.loadsUnbound params turns) :
    g.ReadsUnbound params := by
  obtain ⟨p, hp, hload⟩ := (any_eq_true _ _).mp h
  obtain ⟨i, hi, hif⟩ := (any_eq_true _ _).mp hload
  obtain ⟨rest, hrest⟩ := head?_eq_some_iff.mp hi
  have hstart : g.Arrives params g.entry (g.block g.entry).instrs { x | x ∈ range params } := by
    simpa using (Arrives.entry : g.Arrives params _ _ _)
  have harrives := arrives_foldlM (p := g.enter (range params) g.entry) hstart hp
  simp only [Bool.and_eq_true, decide_eq_true_eq, Bool.not_eq_true', contains_eq_mem,
    decide_eq_false_iff_not] at hif
  exact ⟨p.block, i, rest, _, hrest ▸ harrives, hif.1, hif.2⟩

/-- The last block deletes a local and has no end; a handler that loads the local stands before
it. -/
def runsOff : List ListingItem :=
  [.real .loadName 0 1, .real .storeFast 0 1, .pseudo .setupFinally 1 1, .real .loadName 0 1,
   .real .popTop 0 1, .pseudo .popBlock 0 1, .pseudo .jump 2 1, .label 1, .real .loadFast 0 1,
   .real .reraise 0 1, .label 2, .real .deleteFast 0 2]

/-- Two paths lead to the last block, one with a handler open and one without. -/
def mixedHandlers : List ListingItem :=
  [.real .loadConst 1 1, .pseudo .popJumpIfTrue 0 1, .pseudo .setupFinally 1 1, .pseudo .jump 2 1,
   .label 0, .pseudo .setupFinally 1 1, .pseudo .popBlock 0 1, .real .loadName 0 1,
   .real .loadName 0 1, .real .swap 2 1, .real .storeFast 0 1, .pseudo .jump 2 1, .label 1,
   .real .loadFast 0 1, .real .reraise 0 1, .label 2, .real .storeFast 1 1, .real .returnConst 0 1]

/-- A jump in the middle of a block goes to a load whose local is bound only behind the jump. -/
def midJump : Graph where
  blocks := #[
    { instrs := [{ op := .real .loadName }, { op := .pseudo .popJumpIfTrue, target := some 1 },
        { op := .real .loadName }, { op := .real .storeFast }], next := some 1 },
    { instrs := [{ op := .real .loadFast }, { op := .real .returnValue }] }]

/-- A jump goes to a block outside the layout, which loads a local too far to be followed. -/
def strayTarget : Graph where
  blocks := #[
    { instrs := [{ op := .real .loadName }, { op := .pseudo .popJumpIfTrue, target := some 2 }],
      next := some 1 },
    { instrs := [{ op := .real .returnConst }] },
    { instrs := [{ op := .real .loadFast, arg := 70 }, { op := .real .returnValue }] }]

/-- None of the conditions can be left out. -/
theorem readsUnbound_without_conditions :
    (∃ g k cs', ofItems runsOff = .ok g ∧ g.Fits 1 ∧ g.Steady ∧
      g.optimizeUnit {} { localCount := 1 } [.none] = .ok (k, cs') ∧ k.ReadsUnbound 0) ∧
    (∃ g k cs', ofItems mixedHandlers = .ok g ∧ g.Fits 2 ∧ g.Ends ∧
      g.optimizeUnit { maxInlineSize := 0 } { localCount := 2 }
        [.none, .bool true, .int 0] = .ok (k, cs') ∧ k.ReadsUnbound 0) ∧
    ∀ g ∈ [midJump, strayTarget], ∃ r k cs', g.resolveLabels = .ok r ∧ r.Fits 71 ∧ r.Steady ∧
      r.Ends ∧ g.optimizeUnit { optimize := false } { localCount := 71 } [.none] = .ok (k, cs') ∧
        k.ReadsUnbound 0 := by
  refine ⟨?_, ?_, fun g hg => ?_⟩
  · have hok : (ofItems runsOff).toOption.any fun g =>
        decide (g.Fits 1) && g.handlersAgree (fun _ => []) &&
        (g.optimizeUnit {} { localCount := 1 } [.none]).toOption.any fun result =>
          result.1.loadsUnbound 0 (replicate 7 .next ++ [.fall]) := by decide +kernel
    obtain ⟨g, k, cs', hitems, hok, hopt, hload⟩ := exists_run_of_any hok
    simp only [Bool.and_eq_true, decide_eq_true_eq] at hok
    obtain ⟨hfits, hagree⟩ := hok
    have hwithin := (resolved_ofItems hitems).wired.within
    exact ⟨g, k, cs', hitems, hfits, hwithin.steady_of_agree hagree, hopt,
      readsUnbound_of_loadsUnbound hload⟩
  · have hok : (ofItems mixedHandlers).toOption.any fun g => decide (g.Fits 2) && g.stops &&
        (g.optimizeUnit { maxInlineSize := 0 } { localCount := 2 }
          [.none, .bool true, .int 0]).toOption.any fun result =>
          result.1.loadsUnbound 0 (replicate 4 .next ++ [.raise]) := by decide +kernel
    obtain ⟨g, k, cs', hitems, hok, hopt, hload⟩ := exists_run_of_any hok
    simp only [Bool.and_eq_true, decide_eq_true_eq] at hok
    obtain ⟨hfits, hstops⟩ := hok
    have hwithin := (resolved_ofItems hitems).wired.within
    exact ⟨g, k, cs', hitems, hfits, hwithin.ends_of_stops hstops, hopt,
      readsUnbound_of_loadsUnbound hload⟩
  · have hok : ∀ g ∈ [midJump, strayTarget], g.resolveLabels.toOption.any fun r =>
        decide (r.Fits 71) && r.handlersAgree (fun _ => []) && r.stops &&
        decide (r.entry < r.blocks.size ∧
          ∀ a < r.blocks.size, ∀ b ∈ r.successors a, b < r.blocks.size) &&
        (g.optimizeUnit { optimize := false } { localCount := 71 } [.none]).toOption.any
          fun result => result.1.loadsUnbound 0 [.next, .jump] := by decide +kernel
    obtain ⟨r, k, cs', hlabels, hok, hopt, hload⟩ := exists_run_of_any (hok g hg)
    simp only [Bool.and_eq_true, decide_eq_true_eq] at hok
    obtain ⟨⟨⟨hfits, hagree⟩, hstops⟩, hentry, hstep⟩ := hok
    have hwithin : r.Within (· < r.blocks.size) := ⟨hentry, fun _ ha => ha, hstep⟩
    exact ⟨r, k, cs', hlabels, hfits, hwithin.steady_of_agree hagree,
      hwithin.ends_of_stops hstops, hopt, readsUnbound_of_loadsUnbound hload⟩

end Graph

end Bytecode
