import Bytecode.Proofs.Matching.Tests
import Mathlib.Data.List.Rotate

/-!
# Orders of captures

The captures of an alternative are brought into the order of the first alternative from the last to
the first: once a name has its place, only values above it are moved.
-/

namespace Bytecode

open List Gen Bindings

section

variable {c : GenContext} {p p' : PatternState} {s s' : GenState} {loc : Location} {a : Unit}
  {γ V : Type} {mine after names names' : List String} {ds ds' : List Nat}

/-! ### Rotations -/

theorem exchangeEach_rotate (xs : List γ) (y z : List V) :
    exchangeEach (xs.flatMap fun _ => sinkDepths y.length) (y ++ z) =
      some (y.rotate xs.length ++ z) := by
  induction xs generalizing y with
  | nil =>
    rw [length_nil, rotate_zero]
    rfl
  | cons x xs ih =>
    rw [flatMap_cons, exchangeEach_append]
    cases y with
    | nil =>
      rw [rotate_nil]
      exact (ih []).trans (by rw [rotate_nil])
    | cons v y =>
      have hrest := ih (y ++ [v])
      rw [length_append, append_assoc, singleton_append] at hrest
      rw [length_cons, length_cons, cons_append, exchangeEach_sinkDepths, rotate_cons_succ]
      exact hrest

theorem exchangeEach_rotate_append {xs : List γ} {y : List V} (h : y.length = xs.length)
    (z w : List V) :
    exchangeEach (xs.flatMap fun _ => sinkDepths (y ++ z).length) (y ++ z ++ w) =
      some (z ++ y ++ w) := by
  rw [exchangeEach_rotate, ← h, rotate_append_length_eq]

/-! ### Places -/

/-- Exchanges bring values that wait for some names into the order of others, and nothing below is
touched. -/
def Reorders (depths : List Nat) (stores names : List String) : Prop :=
  ∀ (V : Type) (bs : Bindings V) (below : List V), bs.map Prod.fst = stores →
    ∃ bs' : Bindings V, bs'.Perm bs ∧ bs'.map Prod.fst = names ∧
      exchangeEach depths (bs.values ++ below) = some (bs'.values ++ below)

namespace Reorders

theorem refl (names : List String) : Reorders [] names names :=
  fun _ bs _ hbs => ⟨bs, .refl _, hbs, rfl⟩

theorem trans (h : Reorders ds mine names) (h' : Reorders ds' names names') :
    Reorders (ds ++ ds') mine names' := by
  intro V bs below hbs
  obtain ⟨bs', hperm, hbs', hmoved⟩ := h V bs below hbs
  obtain ⟨bs'', hperm', hbs'', hmoved'⟩ := h' V bs' below hbs'
  refine ⟨bs'', hperm'.trans hperm, hbs'', ?_⟩
  rw [exchangeEach_append, hmoved]
  exact hmoved'

theorem perm (h : Reorders ds mine names) : mine.Perm names := by
  have hmine : (mine.map fun name => (name, ())).map Prod.fst = mine := by
    rw [map_map]
    exact map_id mine
  obtain ⟨bs, hperm, rfl, -⟩ := h Unit _ [] hmine
  have hnames := hperm.map Prod.fst
  rw [hmine] at hnames
  exact hnames.symm

end Reorders

theorem moveFirst_append (mine more after : List String) :
    moveFirst mine.length more.length (mine ++ more ++ after) = more ++ mine ++ after := by
  simp [moveFirst]

theorem reorders_moveDepths (name : String) (above below after : List String) :
    Reorders (moveDepths above.length (above.length + below.length))
      (above ++ name :: below ++ after) (below ++ above ++ name :: after) := by
  intro V bs deep hbs
  have hbs : bs.map Prod.fst = (above ++ [name]) ++ below ++ after := by simpa using hbs
  obtain ⟨bs, bs₃, rfl, hbs, hbs₃⟩ := map_eq_append_iff.mp hbs
  obtain ⟨bs₁, bs₂, rfl, hbs₁, hbs₂⟩ := map_eq_append_iff.mp hbs
  refine ⟨bs₂ ++ bs₁ ++ bs₃, .append_right _ perm_append_comm, by simp [hbs₁, hbs₂, hbs₃], ?_⟩
  unfold moveDepths
  split_ifs with hnow
  · obtain rfl := length_eq_zero_iff.mp (by omega : below.length = 0)
    obtain rfl := map_eq_nil_iff.mp hbs₂
    rw [append_nil, nil_append]
    rfl
  · have hlength₁ : (values bs₁).length = (List.range (above.length + 1)).length := by
      rw [length_values hbs₁, length_range, length_append, length_singleton]
    have hlength : (values bs₁ ++ values bs₂).length = above.length + below.length + 1 := by
      rw [length_append, hlength₁, length_range, length_values hbs₂]
      omega
    have hrotate := exchangeEach_rotate_append hlength₁ (values bs₂) (values bs₃ ++ deep)
    rw [hlength] at hrotate
    simpa [values] using hrotate

/-- A name that is not among the last ones is found among the first. -/
theorem exists_split_of_idxOf? {name : String} {now : Nat}
    (h : (mine ++ after).idxOf? name = some now) (hnotMem : name ∉ after) :
    ∃ above below, mine = above ++ name :: below ∧ above.length = now := by
  obtain ⟨hlt, hget, -⟩ := idxOf?_eq_some_iff.mp h
  have hnow : now < mine.length := by
    by_contra hge
    rw [getElem_append_right (Nat.le_of_not_lt hge)] at hget
    exact hnotMem (hget ▸ getElem_mem _)
  rw [getElem_append_left hnow] at hget
  refine ⟨mine.take now, mine.drop (now + 1), ?_, ?_⟩
  · rw [← hget, getElem_cons_drop, take_append_drop]
  · exact length_take_of_le (Nat.le_of_lt hnow)

/-- The captures that come before others are brought into order. -/
theorem captureMoves_spec {before last : List String} {moves : List (Nat × Nat)}
    (hnodup : (before ++ after).Nodup) (hlength : mine.length = before.length)
    (h : captureMoves before.zipIdx.reverse (mine ++ after) = some (moves, last)) :
    last = before ++ after ∧ (∀ move ∈ moves, move.1 ≤ move.2) ∧
      Reorders (moves.flatMap fun (now, place) => moveDepths now place) (mine ++ after)
        (before ++ after) := by
  -- The last name is put to its place first, so the induction is on the end of the list.
  induction before using List.reverseRecOn generalizing after mine moves with
  | nil =>
    obtain rfl := length_eq_zero_iff.mp hlength
    cases h
    exact ⟨rfl, forall_mem_nil _, .refl _⟩
  | append_singleton before name ih =>
    have hnodup' : (before ++ name :: after).Nodup := by rwa [append_assoc] at hnodup
    have hnotMem : name ∉ after := (nodup_cons.mp (nodup_append.mp hnodup').2.1).1
    have hcons : (before ++ [name]).zipIdx.reverse =
        (name, before.length) :: before.zipIdx.reverse := by
      simp [zipIdx_append]
    rw [hcons] at h
    obtain ⟨now, hnow, h⟩ := Option.bind_eq_some_iff.mp h
    obtain ⟨⟨rest, last'⟩, hrest, h⟩ := Option.bind_eq_some_iff.mp h
    cases h
    obtain ⟨above, below, rfl, rfl⟩ := exists_split_of_idxOf? hnow hnotMem
    have hplace : before.length = above.length + below.length := by
      simp only [length_append, length_cons, length_nil] at hlength
      omega
    have hmoved : (if above.length = before.length then above ++ name :: below ++ after else
        moveFirst (above.length + 1) (before.length - above.length)
          (above ++ name :: below ++ after)) = below ++ above ++ name :: after := by
      split_ifs with heq
      · obtain rfl := length_eq_zero_iff.mp (by omega : below.length = 0)
        simp
      · have happend := moveFirst_append (above ++ [name]) below after
        rw [length_append, length_singleton] at happend
        rw [hplace, Nat.add_sub_cancel_left]
        simpa using happend
    rw [hmoved] at hrest
    obtain ⟨hlast, hforward, hreorders⟩ := ih hnodup' (by rw [length_append]; omega) hrest
    rw [append_assoc before, singleton_append]
    refine ⟨hlast, forall_mem_cons.mpr ⟨by dsimp only; omega, hforward⟩, ?_⟩
    have hmove := reorders_moveDepths name above below after
    rw [← hplace] at hmove
    exact hmove.trans hreorders

theorem captureMoves_orders {first stores last : List String} {moves : List (Nat × Nat)}
    (hnodup : first.Nodup) (hlength : first.length = stores.length)
    (h : captureMoves first.zipIdx.reverse stores = some (moves, last)) :
    last = first ∧ (∀ move ∈ moves, move.1 ≤ move.2) ∧
      Reorders (moves.flatMap fun (now, place) => moveDepths now place) stores first := by
  rw [← append_nil stores] at h
  have hspec := captureMoves_spec (by rwa [append_nil]) hlength.symm h
  rwa [append_nil, append_nil] at hspec

theorem moveFirst_perm (n place : Nat) (names : List String) :
    (moveFirst n place names).Perm names := by
  have hswap : (moveFirst n place names).Perm
      (names.take n ++ (names.drop n).take place ++ (names.drop n).drop place) :=
    .append_right _ perm_append_comm
  rwa [append_assoc, take_append_drop, take_append_drop] at hswap

theorem exists_captureMoves {places : List (String × Nat)} (h : ∀ x ∈ places, x.1 ∈ mine) :
    ∃ moves last, captureMoves places mine = some (moves, last) := by
  induction places generalizing mine with
  | nil => exact ⟨[], mine, rfl⟩
  | cons x places ih =>
    obtain ⟨hx, hplaces⟩ := forall_mem_cons.mp h
    obtain ⟨now, hnow⟩ := Option.ne_none_iff_exists'.mp (mt idxOf?_eq_none_iff.mp (not_not.mpr hx))
    have hmoved : ∀ y ∈ places,
        y.1 ∈ if now = x.2 then mine else moveFirst (now + 1) (x.2 - now) mine := by
      intro y hy
      split_ifs
      · exact hplaces y hy
      · exact (moveFirst_perm _ _ _).mem_iff.mpr (hplaces y hy)
    obtain ⟨moves, last, hrest⟩ := ih hmoved
    exact ⟨(now, x.2) :: moves, last, Option.bind_eq_some_iff.mpr
      ⟨now, hnow, Option.bind_eq_some_iff.mpr ⟨_, hrest, rfl⟩⟩⟩

/-! ### Exchanges that are written -/

theorem forM_emit_swap (loc : Location) (ds : List Nat) (c : GenContext) (s : GenState) :
    ds.forM (emit .swap · loc) c s = .ok ((), (swapsAt loc ds).foldl .addInstr s) := by
  induction ds generalizing s with
  | nil => rfl
  | cons d ds ih => exact ih _

theorem alignCaptures_eq_ok (loc : Location) (c : GenContext) (s : GenState)
    {first stores last : List String} {moves : List (Nat × Nat)}
    (hlength : first.length = stores.length)
    (h : captureMoves first.zipIdx.reverse stores = some (moves, last)) :
    alignCaptures loc first stores c s =
      .ok ((), (swapsAt loc (moves.flatMap fun (now, place) => moveDepths now place)).foldl
        .addInstr s) := by
  unfold alignCaptures
  rw [if_neg (not_not.mpr hlength), h]
  exact forM_emit_swap _ _ _ _

theorem alignCaptures_eq_error (loc : Location) (c : GenContext) (s : GenState)
    {first stores : List String}
    (h : first.length = stores.length → captureMoves first.zipIdx.reverse stores = none) :
    alignCaptures loc first stores c s =
      .error (.source .alternativesDiffer c.options.file loc) := by
  unfold alignCaptures
  by_cases hlength : first.length = stores.length
  · rw [if_neg (not_not.mpr hlength), h hlength]
    rfl
  · rw [if_pos hlength]
    rfl

/-- Values that wait for some names have been brought into the order of others. -/
structure Aligned (c : GenContext) (p : PatternState) (s s' : GenState) (ps : List Piece)
    (stores names : List String) : Prop where
  tested : Tested c p s p s' ps []
  moves : ∀ V (bs : Bindings V), bs.map Prod.fst = stores →
    ∃ bs' : Bindings V, bs'.Perm bs ∧ bs'.map Prod.fst = names ∧
      ∀ (D : Interpretation V) consts base, Enacts D consts p.failures base ps bs.values (pure ())
        fun _ => bs'.values

theorem Aligned.refl (h : Awaits p.failures s.unit) (names : List String) :
    Aligned c p s s [] names names :=
  ⟨.refl h, fun _ bs hbs => ⟨bs, .refl _, hbs, fun _ _ _ => .nil⟩⟩

theorem aligned_alignCaptures {first stores : List String} (hnodup : first.Nodup)
    (h : Awaits p.failures s.unit) (hrun : alignCaptures loc first stores c s = .ok (a, s')) :
    ∃ ps, Aligned c p s s' ps stores first := by
  unfold alignCaptures at hrun
  obtain ⟨hlength, hrun⟩ := of_refuseIf hrun
  rw [not_not] at hlength
  split at hrun
  · cases hrun
  · next moves last hmoves =>
    obtain ⟨-, -, hreorders⟩ := captureMoves_orders hnodup hlength hmoves
    refine ⟨_, tested_swaps h hrun, fun V bs hbs => ?_⟩
    obtain ⟨bs', hperm, hnames, hmoved⟩ := hreorders V bs [] hbs
    rw [append_nil, append_nil] at hmoved
    exact ⟨bs', hperm, hnames, fun D consts base => enacts_swaps hmoved⟩

/-- The captures of an alternative come into the order of the first one. If the two bind the same
names, each value that is next is at its place or above it, and the exchanges bring all captures
with their names into the order of the first, with nothing below changed. Otherwise, and only then,
the pattern is refused. -/
theorem alignCaptures_orders {first stores : List String} (hfirst : first.Nodup)
    (hstores : stores.Nodup) : ∀ loc c s,
    (stores.Perm first → ∃ moves,
      captureMoves first.zipIdx.reverse stores = some (moves, first) ∧
      (∀ move ∈ moves, move.1 ≤ move.2) ∧
      alignCaptures loc first stores c s =
        .ok ((), (swapsAt loc (moves.flatMap fun (now, place) => moveDepths now place)).foldl
          .addInstr s) ∧
      Reorders (moves.flatMap fun (now, place) => moveDepths now place) stores first) ∧
    (alignCaptures loc first stores c s =
        .error (.source .alternativesDiffer c.options.file loc) ↔
      ¬∀ name, name ∈ first ↔ name ∈ stores) ∧
    SourceFault.message .alternativesDiffer = "alternative patterns bind different names" := by
  intro loc c s
  have hsame : (∀ name, name ∈ first ↔ name ∈ stores) ↔ stores.Perm first :=
    ⟨fun h => ((perm_ext_iff_of_nodup hfirst hstores).mpr h).symm, fun h _ => h.symm.mem_iff⟩
  rw [hsame]
  by_cases hperm : stores.Perm first
  · have hlength := hperm.length_eq.symm
    obtain ⟨moves, last, hmoves⟩ : ∃ moves last,
        captureMoves first.zipIdx.reverse stores = some (moves, last) :=
      exists_captureMoves fun x hx =>
        hperm.mem_iff.mpr (fst_mem_of_mem_zipIdx (mem_reverse.mp hx))
    obtain ⟨rfl, hforward, hreorders⟩ := captureMoves_orders hfirst hlength hmoves
    have hok := alignCaptures_eq_ok loc c s hlength hmoves
    refine ⟨fun _ => ⟨moves, hmoves, hforward, hok, hreorders⟩, ?_, rfl⟩
    rw [hok]
    exact iff_of_false nofun (not_not.mpr hperm)
  · have herror := alignCaptures_eq_error loc c s fun hlength =>
      Option.eq_none_iff_forall_ne_some.mpr fun _ hmoves =>
        hperm (captureMoves_orders hfirst hlength hmoves).2.2.perm
    exact ⟨fun h => absurd h hperm, iff_of_true herror hperm, rfl⟩

theorem alignCaptures_orders_rotated :
    let first := ["a", "b", "c"]
    let stores := ["c", "a", "b"]
    first.Nodup ∧ stores.Nodup ∧ stores.Perm first ∧ ∀ loc c s, ∃ moves,
      captureMoves first.zipIdx.reverse stores = some (moves, first) ∧
      (∀ move ∈ moves, move.1 ≤ move.2) ∧
      alignCaptures loc first stores c s =
        .ok ((), (swapsAt loc (moves.flatMap fun (now, place) => moveDepths now place)).foldl
          .addInstr s) ∧
      Reorders (moves.flatMap fun (now, place) => moveDepths now place) stores first := by
  intro first stores
  have hfirst : first.Nodup := by decide
  have hstores : stores.Nodup := by decide
  have hperm : stores.Perm first := by decide
  exact ⟨hfirst, hstores, hperm, fun loc c s =>
    (alignCaptures_orders hfirst hstores loc c s).1 hperm⟩

/-- The names of alternatives are let wait one after the other. -/
theorem tested_adoptCaptures {depth : Nat} {names : List String} (h : Awaits p.failures s.unit)
    (hrun : adoptCaptures loc depth p names c s = .ok (p', s')) :
    Tested c p s p' s' ((swapsAt loc (names.flatMap fun _ => sinkDepths depth)).map .instr) names ∧
      p'.onTop = p.onTop := by
  induction names generalizing p s with
  | nil =>
    cases hrun
    exact ⟨.refl h, rfl⟩
  | cons name names ih =>
    obtain ⟨_, t, hsink, hrun⟩ := bind_eq_ok.mp hrun
    obtain ⟨hnew, hrest⟩ := of_refuseIf hrun
    have h₁ : Tested c p s p t _ _ := tested_swaps h hsink
    obtain ⟨h₂, honTop⟩ := ih (h₁.store hnew).awaits hrest
    refine ⟨?_, honTop⟩
    rw [flatMap_cons, swapsAt, map_append, map_append]
    exact (h₁.store hnew).trans h₂

end

end Bytecode
