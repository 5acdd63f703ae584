import Bytecode.Graph.Nops
import Bytecode.Proofs.Graph.Layout
import Mathlib.Data.List.Destutter

/-!
# What dropping idle instructions leaves

An idle instruction goes or stays, and its place may pass to the instruction after it. All others
stay in their order, and a line that was come to is still come to.
-/

namespace Bytecode

open List

/-- The second list is the first without some of its idle instructions, whatever the places. -/
inductive Thinned : List Instr → List Instr → Prop where
  | nil : Thinned [] []
  | keep (i : Instr) (loc : Location) {is js : List Instr} (h : Thinned is js) :
      Thinned (i :: is) ({ i with loc := loc } :: js)
  | drop {i : Instr} {is js : List Instr} (hi : i.isNop) (h : Thinned is js) :
      Thinned (i :: is) js

theorem thinned_dropNopsFrom (following : Option Int) (prev : Int) (moved : Option Location)
    (is : List Instr) : Thinned is (dropNopsFrom following prev moved is) := by
  fun_induction dropNopsFrom following prev moved is with
  | case1 => exact .nil
  | case2 _ _ i _ _ _ ih | case8 _ _ i _ _ _ _ _ _ _ _ ih => exact .keep i _ ih
  | case3 _ _ _ _ _ hnop _ ih | case6 _ _ _ _ _ hnop _ _ _ _ ih
  | case7 _ _ _ _ _ hnop _ _ _ _ _ ih => exact .drop (by simpa [Instr.isNop] using hnop) ih
  | case4 prev moved i rest _ hnop _ hrest _ =>
    obtain rfl := List.head?_eq_none_iff.mp hrest
    exact .drop (by simpa [Instr.isNop] using hnop) .nil
  | case5 prev moved i rest _ _ _ hrest _ =>
    obtain rfl := List.head?_eq_none_iff.mp hrest
    exact .keep i _ .nil

theorem thinned_dropNops (following : Option Int) (is : List Instr) :
    Thinned is (dropNops following is) :=
  thinned_dropNopsFrom ..

/-! ### Line events -/

/-- The lines that are come to one after the other: those that are known, repetitions merged. -/
def lineEvents (lines : List Int) : List Int :=
  (lines.filter (0 ≤ ·)).destutter (· ≠ ·)

def eventsAfter : (last : Option Int) → List Int → List Int
  | _, [] => []
  | last, l :: ls =>
    if 0 ≤ l ∧ last ≠ some l then l :: eventsAfter (some l) ls else eventsAfter last ls

theorem destutter'_eq_cons (a : Int) (lines : List Int) :
    (lines.filter (0 ≤ ·)).destutter' (· ≠ ·) a = a :: eventsAfter (some a) lines := by
  induction lines generalizing a with
  | nil => rfl
  | cons l ls ih =>
    by_cases hl : 0 ≤ l <;> by_cases hal : a = l <;> simp [eventsAfter, hl, hal, ih]

theorem lineEvents_eq (lines : List Int) : lineEvents lines = eventsAfter none lines := by
  induction lines with
  | nil => rfl
  | cons l ls ih =>
    unfold lineEvents at ih ⊢
    by_cases hl : 0 ≤ l
    · simp [eventsAfter, hl, destutter_cons', destutter'_eq_cons]
    · simp [eventsAfter, hl, ih]

section

variable {last : Option Int} {l : Int} {ls : List Int}

theorem eventsAfter_of_neg (hl : l < 0) : eventsAfter last (l :: ls) = eventsAfter last ls :=
  if_neg fun h => absurd h.1 (Int.not_le.mpr hl)

theorem eventsAfter_again : eventsAfter last (l :: l :: ls) = eventsAfter last (l :: ls) := by
  by_cases h : 0 ≤ l ∧ last ≠ some l <;> simp [eventsAfter, h]

/-- After a line, what has the same events once the line was the last has the same events. -/
theorem eventsAfter_congr {ls' : List Int}
    (h : ∀ last : Option Int, (0 ≤ l → last = some l) →
      eventsAfter last ls = eventsAfter last ls') :
    eventsAfter last (l :: ls) = eventsAfter last (l :: ls') := by
  unfold eventsAfter
  split_ifs with hl
  · rw [h _ fun _ => rfl]
  · refine h _ fun h0 => ?_
    simpa [h0] using hl

/-- The lines of instructions, of which the first may have got another place. -/
def linesFrom (moved : Option Location) : List Instr → List Int
  | [] => []
  | i :: rest => (moved.getD i.loc).line :: rest.map (·.line)

theorem linesFrom_none (is : List Instr) : linesFrom none is = is.map (·.line) := by
  cases is <;> rfl

/-- With the last line that stays, what is dropped makes no event. -/
theorem eventsAfter_dropNopsFrom (following : Option Int) (prev : Int) (moved : Option Location)
    (is : List Instr) : ∀ last : Option Int, (0 ≤ prev → last = some prev) →
      eventsAfter last ((dropNopsFrom following prev moved is).map (·.line) ++ following.toList) =
        eventsAfter last (linesFrom moved is ++ following.toList) := by
  fun_induction dropNopsFrom following prev moved is with
  | case1 => exact fun _ _ => rfl
  | case2 prev moved i rest j _ ih =>
    intro last _
    rw [linesFrom_none] at ih
    exact eventsAfter_congr ih
  | case3 prev moved i rest j hnop hidle ih =>
    intro last hlast
    rw [ih last hlast, linesFrom_none]
    by_cases hneg : j.line < 0
    · exact (eventsAfter_of_neg hneg).symm
    · obtain rfl := hidle.resolve_left hneg
      rw [hlast (Int.not_lt.mp hneg)]
      exact (if_neg fun h => h.2 rfl).symm
  | case4 prev moved i rest j _ _ hrest hfollowing =>
    intro last _
    obtain rfl := head?_eq_none_iff.mp hrest
    rw [hfollowing]
    exact eventsAfter_again.symm
  | case5 prev moved i rest j _ _ hrest _ =>
    intro last _
    obtain rfl := head?_eq_none_iff.mp hrest
    rfl
  | case6 prev moved i rest j _ _ next hrest hsame ih =>
    intro last hlast
    obtain ⟨rest, rfl⟩ := head?_eq_some_iff.mp hrest
    rw [ih last hlast, linesFrom_none, linesFrom, map_cons, hsame]
    exact eventsAfter_again.symm
  | case7 prev moved i rest j _ _ next hrest _ hneg ih =>
    intro last hlast
    obtain ⟨rest, rfl⟩ := head?_eq_some_iff.mp hrest
    rw [ih last hlast]
    exact eventsAfter_congr fun _ _ => (eventsAfter_of_neg hneg).symm
  | case8 prev moved i rest j _ _ next hrest _ _ ih =>
    intro last _
    rw [linesFrom_none] at ih
    exact eventsAfter_congr ih

end

namespace Graph

variable {g : Graph} {before after : List BlockId} {id : BlockId}

theorem Linked.next_eq (hg : g.Linked (id :: after)) : (g.block id).next = after.head? := by
  cases after with
  | nil => exact hg
  | cons => exact hg.1

/-- The line from a block of the layout on is that of the first instruction there. -/
theorem Linked.lineFrom (hg : g.Linked after) {fuel : Nat} (hfuel : after.length ≤ fuel) :
    g.lineFrom fuel after.head? =
      (after.flatMap fun k => (g.block k).instrs).head?.map (·.line) := by
  induction after generalizing fuel with
  | nil => cases fuel <;> rfl
  | cons k after ih =>
    obtain ⟨fuel, rfl⟩ := Nat.exists_eq_succ_of_ne_zero (Nat.ne_of_gt (Nat.zero_lt_of_lt hfuel))
    rw [head?_cons, Graph.lineFrom, flatMap_cons]
    cases hinstrs : (g.block k).instrs with
    | cons i is => rfl
    | nil =>
      rw [hg.next_eq]
      have htail : g.Linked ([k] ++ after) := hg
      exact ih htail.of_append (Nat.le_of_succ_le_succ hfuel)

/-- Dropping the idle instructions of a block of the layout keeps all other instructions with their
order, and keeps the line events up to the first line after the block. -/
theorem dropNopsAt_lineEvents (hg : g.LaysOut (before ++ id :: after)) :
    let h := g.dropNopsAt id
    let next := ((after.flatMap fun k => (g.block k).instrs).head?.map (·.line)).toList
    (∀ k ≠ id, h.block k = g.block k) ∧ Thinned (g.block id).instrs (h.block id).instrs ∧
      lineEvents ((h.block id).instrs.map (·.line) ++ next) =
        lineEvents ((g.block id).instrs.map (·.line) ++ next) := by
  have hlinked : g.Linked (id :: after) := hg.linked.of_append
  have htail : g.Linked ([id] ++ after) := hlinked
  have hlt := hg.bound id (by simp)
  have hafter : g.lineAfter id =
      (after.flatMap fun k => (g.block k).instrs).head?.map (·.line) := by
    have hlength := hg.length_le
    rw [length_append, length_cons] at hlength
    rw [lineAfter, hlinked.next_eq]
    exact htail.of_append.lineFrom (by omega)
  have hinstrs : ((g.dropNopsAt id).block id).instrs =
      dropNops (g.lineAfter id) (g.block id).instrs := by
    rw [dropNopsAt, block_setInstrs, if_pos ⟨rfl, hlt⟩]
  intro h next
  refine ⟨fun k hk => block_setInstrs_of_ne g _ (Ne.symm hk), ?_, ?_⟩
  · rw [hinstrs]
    exact thinned_dropNops ..
  · rw [hinstrs, lineEvents_eq, lineEvents_eq, hafter, ← linesFrom_none (g.block id).instrs]
    exact eventsAfter_dropNopsFrom _ (-1) none _ none nofun

/-- An idle instruction passes its place on, and another goes because the next line is its own. -/
def passedPlace : Graph where
  blocks := #[
    { instrs := [{ op := .real .nop, loc := .ofLine 1 }, { op := .real .nop, loc := .ofLine 2 },
        { op := .real .loadName }, { op := .real .nop, loc := .ofLine 3 }], next := some 1 },
    { next := some 2 },
    { instrs := [{ op := .real .returnConst, loc := .ofLine 3 }] }]

theorem dropNopsAt_lineEvents_passedPlace :
    passedPlace.LaysOut ([] ++ 0 :: [1, 2]) ∧
      let h := passedPlace.dropNopsAt 0
      (∀ k ≠ 0, h.block k = passedPlace.block k) ∧
        Thinned (passedPlace.block 0).instrs (h.block 0).instrs ∧
        lineEvents ((h.block 0).instrs.map (·.line) ++ [3]) =
          lineEvents ((passedPlace.block 0).instrs.map (·.line) ++ [3]) :=
  have hg : passedPlace.LaysOut ([] ++ 0 :: [1, 2]) := ⟨rfl, ⟨rfl, rfl, rfl⟩, by decide, by decide⟩
  ⟨hg, dropNopsAt_lineEvents hg⟩

end Graph

end Bytecode
