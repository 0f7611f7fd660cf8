import Rucc.Regalloc.LiveCarve

/-!
# How many values want a register at each point

The table of `rucc-regalloc`'s `pressure.rs`: by class and by point, how many values want a register and
how many registers there are, with the two operations the spill phase changes it by. A vector indexed by
class is the function from its indices, empty for a class it has no row for.
-/

namespace Rucc.Regalloc

open Mir

variable {a : Area} {bound k : ℕ}

/-- How many values want a register at each point, and how many registers there are for them. -/
structure Pressure where
  wantedRows : RegClass → List ℕ
  roomRows : RegClass → List ℕ

namespace Pressure

/-- A row of steps with one more area in it: one more from each piece's start, one fewer past its end. -/
def stepped (row : ℕ → ℤ) (area : Area) : ℕ → ℤ :=
  area.all.foldl (fun row piece =>
    let row := Function.update row piece.start (row piece.start + 1)
    Function.update row (piece.stop + 1) (row (piece.stop + 1) + -1)) row

/-- The running counts of a row of steps. -/
def counted (points : ℕ) (row : ℕ → ℤ) : List ℕ :=
  ((List.range points).foldl (fun (s : ℤ × List ℕ) point =>
    (s.1 + row point, s.2 ++ [(s.1 + row point).toNat])) (0, [])).2

/-- The steps of every class, with one value's area in its class's row unless it goes to the stack. -/
def step (f : Func) (live : Live) (spilled : List Reg) (steps : RegClass → Option (ℕ → ℤ)) (number : ℕ) :
    RegClass → Option (ℕ → ℤ) :=
  match live.area (.virtualReg number), f.classes[number]? with
  | some area, some cls =>
    if .virtualReg number ∈ spilled then steps
    else Function.update steps cls (some (stepped ((steps cls).getD fun _ => 0) area))
  | _, _ => steps

/-- One register fewer at a point an instruction takes it at. -/
def take (offered : RegClass → List PhysReg) (room : RegClass → List ℕ)
    (taken : RegClass × PhysReg × ℕ) : RegClass → List ℕ :=
  let (cls, reg, point) := taken
  if (room cls).isEmpty ∨ reg ∉ offered cls then room
  else Function.update room cls ((room cls).modify point (· - 1))

/-- Counts the values and the registers at every point of a function: the registers each class offers, the
values the instructions send to the stack, and the registers they take for themselves. -/
def with_ (f : Func) (points : ℕ) (live : Live) (offered : RegClass → List PhysReg) (spilled : List Reg)
    (taken : List (RegClass × PhysReg × ℕ)) : Pressure where
  wantedRows := fun cls =>
    (((List.range f.vregs).foldl (step f live spilled) fun _ => none) cls).elim [] (counted points)
  roomRows := (taken.destutter (· ≠ ·)).foldl (take offered) fun cls =>
    if (offered cls).length = 0 then [] else List.replicate points (offered cls).length

/-- How many values of a class want a register at a point. -/
def wanted (p : Pressure) (cls : RegClass) (point : ℕ) : ℕ := (p.wantedRows cls).getD point 0

/-- How many registers of a class there are at a point. -/
def room (p : Pressure) (cls : RegClass) (point : ℕ) : ℕ := (p.roomRows cls).getD point 0

/-- How many of the values of a class live at a point have to be in memory there, at the least. -/
def excess (p : Pressure) (cls : RegClass) (point : ℕ) : ℕ := p.wanted cls point - p.room cls point

/-- The points where more values of a class want a register than there are registers, in order. -/
def over_ (p : Pressure) (cls : RegClass) : List ℕ :=
  (List.range (p.wantedRows cls).length).filter fun point => 0 < p.excess cls point

/-- A row with every count under an area changed, a piece at a time. -/
def changed (change : ℕ → ℕ) (area : Area) (row : List ℕ) : List ℕ :=
  area.all.foldl (fun row piece =>
    row.mapIdx fun point count => if piece.covers point then change count else count) row

/-- Takes a value off every point it is live at. -/
def lift (p : Pressure) (cls : RegClass) (area : Area) : Pressure :=
  { p with wantedRows := Function.update p.wantedRows cls (changed (· - 1) area (p.wantedRows cls)) }

/-- Puts a value back on every point it is live at. -/
def lower (p : Pressure) (cls : RegClass) (area : Area) : Pressure :=
  { p with wantedRows := Function.update p.wantedRows cls (changed (· + 1) area (p.wantedRows cls)) }

/-! ## Changing the counts -/

variable {p : Pressure} {cls : RegClass} {area : Area} {bound point : ℕ}

@[simp]
theorem lift_room (cls' : RegClass) : (p.lift cls area).room cls' point = p.room cls' point := rfl

end Pressure

/-- An area as it is stored, with its pieces in order and in front of a point. -/
structure Area.Stored (a : Area) (bound : ℕ) : Prop where
  also : a.also = none
  laid : Laid a.pieces bound

theorem Area.Stored.all_eq (h : a.Stored bound) : a.all = a.pieces := by
  have hstretch : a.stretch = id := by
    funext piece
    unfold Area.stretch
    rw [h.also]
    rfl
  rw [Area.all, hstretch, List.map_id]

theorem Area.Stored.covers_iff (h : a.Stored bound) (p : ℕ) : a.covers p = true ↔ Covered a.pieces p := by
  obtain ⟨pieces, also⟩ := a
  obtain rfl : also = none := h.also
  exact Area.covers_iff h.laid.apart p

theorem Area.Stored.piece_eq (h : a.Stored bound) (hk : k < a.count) : a.piece k = a.pieces.get ⟨k, hk⟩ := by
  unfold Area.piece Area.stretch
  rw [h.also, List.getD_eq_getElem?_getD, List.getElem?_eq_getElem hk]
  rfl

theorem Area.Stored.start_le_stop (h : a.Stored bound) (hk : k < a.count) :
    (a.piece k).start ≤ (a.piece k).stop := by
  rw [h.piece_eq hk]
  exact h.laid.nonempty _ (List.get_mem _ _)

/-- The pieces of an area come one after another. -/
theorem Area.Stored.stop_lt_start {a : Area} {bound j k : ℕ} (h : a.Stored bound) (hjk : j < k)
    (hk : k < a.count) : (a.piece j).stop + 1 < (a.piece k).start := by
  rw [h.piece_eq (hjk.trans hk), h.piece_eq hk]
  exact List.pairwise_iff_get.mp h.laid.apart _ _ hjk

theorem Area.Stored.covers_iff_piece (h : a.Stored bound) (p : ℕ) :
    a.covers p = true ↔ ∃ k < a.count, (a.piece k).start ≤ p ∧ p ≤ (a.piece k).stop := by
  rw [h.covers_iff]
  constructor
  · rintro ⟨r, hr, hcovers⟩
    obtain ⟨k, rfl⟩ := List.get_of_mem hr
    refine ⟨k, k.isLt, ?_⟩
    rwa [h.piece_eq k.isLt, ← Range.covers_iff]
  · rintro ⟨k, hk, hcovers⟩
    rw [h.piece_eq hk, ← Range.covers_iff] at hcovers
    exact ⟨_, List.get_mem _ _, hcovers⟩

instance (l : List Range) (p : ℕ) : Decidable (Covered l p) := by
  unfold Covered
  infer_instance

/-- At most one piece covers a point. -/
theorem not_covered_rest {piece : Range} {pieces : List Range} {p : ℕ}
    (h : (piece :: pieces).Pairwise fun r r' => r.stop + 1 < r'.start) (hp : piece.covers p = true) :
    ¬Covered pieces p := by
  rintro ⟨r, hr, hcovers⟩
  have := (List.pairwise_cons.mp h).1 r hr
  rw [Range.covers_iff] at hp hcovers
  omega

theorem covered_cons (piece : Range) (pieces : List Range) (p : ℕ) :
    Covered (piece :: pieces) p ↔ piece.covers p = true ∨ Covered pieces p := by
  simp [Covered]

namespace Pressure

variable {p : Pressure} {cls : RegClass} {area : Area} {bound point : ℕ}

variable {row : List ℕ} {cls' : RegClass}

theorem length_changed (change : ℕ → ℕ) (row : List ℕ) : (changed change area row).length = row.length := by
  unfold changed
  induction area.all generalizing row with
  | nil => rfl
  | cons piece pieces ih =>
    rw [List.foldl_cons, ih, List.length_mapIdx]

/-- Nothing is counted past the end of a row. -/
theorem getD_of_le (h : row.length ≤ point) : row.getD point 0 = 0 := by
  rw [List.getD_eq_getElem?_getD, List.getElem?_eq_none h]
  rfl

/-- One piece changes the counts it covers. -/
theorem getD_changed_one (change : ℕ → ℕ) (piece : Range) (hpoint : point < row.length) :
    (row.mapIdx fun point count => if piece.covers point then change count else count).getD point 0 =
      if piece.covers point then change (row.getD point 0) else row.getD point 0 := by
  have hlen : point < (row.mapIdx fun point count =>
      if piece.covers point then change count else count).length := by simpa using hpoint
  rw [List.getD_eq_getElem?_getD, List.getD_eq_getElem?_getD, List.getElem?_eq_getElem hlen,
    List.getElem?_eq_getElem hpoint, Option.getD_some, Option.getD_some, List.getElem_mapIdx]

/-- The counts under an area change once each. -/
theorem getD_changed (h : area.Stored bound) (change : ℕ → ℕ) (hpoint : point < row.length) :
    (changed change area row).getD point 0 =
      if area.covers point then change (row.getD point 0) else row.getD point 0 := by
  have hcovers := h.covers_iff point
  have hapart := h.laid.apart
  unfold changed
  rw [h.all_eq]
  simp only [hcovers]
  clear hcovers h
  -- each piece covers what the ones after it do not, so a count is changed by one of them at most
  generalize area.pieces = pieces at hapart ⊢
  induction pieces generalizing row with
  | nil => simp [Covered]
  | cons piece pieces ih =>
    rw [List.foldl_cons, ih (by simpa using hpoint) (List.pairwise_cons.mp hapart).2,
      getD_changed_one change piece hpoint]
    by_cases hp : piece.covers point = true
    · have hnot := not_covered_rest hapart hp
      simp [covered_cons, hp, hnot]
    · simp [covered_cons, hp]

/-- A value taken off the points it is live at. -/
theorem lift_wanted (h : area.Stored bound) : (p.lift cls area).wanted cls point =
      p.wanted cls point - if area.covers point then 1 else 0 := by
  have hrow : (p.lift cls area).wantedRows cls = changed (· - 1) area (p.wantedRows cls) :=
    Function.update_self _ _ _
  unfold wanted
  rw [hrow]
  by_cases hpoint : point < (p.wantedRows cls).length
  · rw [getD_changed h _ hpoint]
    split_ifs <;> rfl
  · rw [getD_of_le (by rw [length_changed]; omega), getD_of_le (not_lt.mp hpoint), Nat.zero_sub]

/-- A value put back on the points it is live at. -/
theorem lower_wanted (h : area.Stored bound) (hbound : bound ≤ (p.wantedRows cls).length) :
    (p.lower cls area).wanted cls point =
      p.wanted cls point + if area.covers point then 1 else 0 := by
  have hrow : (p.lower cls area).wantedRows cls = changed (· + 1) area (p.wantedRows cls) :=
    Function.update_self _ _ _
  unfold wanted
  rw [hrow]
  by_cases hpoint : point < (p.wantedRows cls).length
  · rw [getD_changed h _ hpoint]
    split_ifs <;> rfl
  · have hnot : ¬area.covers point = true := by
      rw [h.covers_iff]
      rintro ⟨r, hr, hcovers⟩
      have := h.laid.before r hr
      rw [Range.covers_iff] at hcovers
      omega
    rw [getD_of_le (by rw [length_changed]; omega), getD_of_le (not_lt.mp hpoint), if_neg hnot]

theorem lift_other (h : cls' ≠ cls) :
    (p.lift cls area).wantedRows cls' = p.wantedRows cls' := Function.update_of_ne h _ _

theorem lower_other (h : cls' ≠ cls) :
    (p.lower cls area).wantedRows cls' = p.wantedRows cls' := Function.update_of_ne h _ _

@[simp]
theorem length_lift (cls' : RegClass) :
    ((p.lift cls area).wantedRows cls').length = (p.wantedRows cls').length := by
  unfold lift
  by_cases h : cls' = cls
  · rw [h]
    dsimp only
    rw [Function.update_self, length_changed]
  · dsimp only
    rw [Function.update_of_ne h]

@[simp]
theorem length_lower (cls' : RegClass) :
    ((p.lower cls area).wantedRows cls').length = (p.wantedRows cls').length := by
  unfold lower
  by_cases h : cls' = cls
  · rw [h]
    dsimp only
    rw [Function.update_self, length_changed]
  · dsimp only
    rw [Function.update_of_ne h]

theorem mem_over {point : ℕ} : point ∈ p.over_ cls ↔
    point < (p.wantedRows cls).length ∧ 0 < p.excess cls point := by
  unfold over_
  rw [List.mem_filter, List.mem_range, decide_eq_true_eq]

/-! ## The counts -/

/-- A step changes the running count from its point on. -/
theorem sum_update (row : ℕ → ℤ) (at_ q : ℕ) (c : ℤ) :
    ∑ i ∈ Finset.range (q + 1), Function.update row at_ (row at_ + c) i =
      (∑ i ∈ Finset.range (q + 1), row i) + if at_ ≤ q then c else 0 := by
  by_cases h : at_ ≤ q
  · have hmem : at_ ∈ Finset.range (q + 1) := Finset.mem_range.mpr (by omega)
    rw [if_pos h, Finset.sum_update_of_mem hmem, add_assoc, add_comm c, ← add_assoc,
      ← Finset.add_sum_erase _ _ hmem, Finset.sdiff_singleton_eq_erase]
  · have hmem : at_ ∉ Finset.range (q + 1) := fun hin => h (by
      have := Finset.mem_range.mp hin
      omega)
    rw [if_neg h, Finset.sum_update_of_notMem hmem, add_zero]

/-- An area in a row of steps counts once at each point it covers. -/
theorem sum_stepped (h : area.Stored bound) (row : ℕ → ℤ) (q : ℕ) : ∑ i ∈ Finset.range (q + 1), stepped row area i =
      (∑ i ∈ Finset.range (q + 1), row i) + if area.covers q then 1 else 0 := by
  have hcovers := h.covers_iff q
  have hapart := h.laid.apart
  have hnonempty := h.laid.nonempty
  unfold stepped
  rw [h.all_eq]
  simp only [hcovers]
  clear hcovers h
  generalize area.pieces = pieces at hapart hnonempty ⊢
  induction pieces generalizing row with
  | nil => simp [Covered]
  | cons piece pieces ih =>
    have hpiece := hnonempty piece List.mem_cons_self
    rw [List.foldl_cons, ih _ (List.pairwise_cons.mp hapart).2
      (fun r hr => hnonempty r (List.mem_cons_of_mem _ hr)), sum_update, sum_update]
    by_cases hp : piece.covers q = true
    · have hnot := not_covered_rest hapart hp
      have hone : Covered (piece :: pieces) q := (covered_cons _ _ _).mpr (Or.inl hp)
      rw [Range.covers_iff] at hp
      rw [if_neg hnot, if_pos hp.1, if_neg (by omega), if_pos hone]
      ring
    · have hiff : Covered (piece :: pieces) q ↔ Covered pieces q := by
        rw [covered_cons, or_iff_right hp]
      simp only [hiff]
      rw [Range.covers_iff] at hp
      split_ifs <;> omega

/-- The running counts, one after another. -/
theorem counted_eq (points : ℕ) (row : ℕ → ℤ) : counted points row =
      (List.range points).map fun q => (∑ i ∈ Finset.range (q + 1), row i).toNat := by
  have hfold (n : ℕ) : (List.range n).foldl (fun (s : ℤ × List ℕ) point =>
      (s.1 + row point, s.2 ++ [(s.1 + row point).toNat])) (0, []) =
      (∑ i ∈ Finset.range n, row i,
        (List.range n).map fun q => (∑ i ∈ Finset.range (q + 1), row i).toNat) := by
    induction n with
    | zero => rfl
    | succ n ih =>
      rw [List.range_succ, List.foldl_append, ih, List.map_append]
      simp [Finset.sum_range_succ]
  unfold counted
  rw [hfold]

end Pressure

/-! ## What the table counts -/

/-- Liveness that keeps every area in order, and in front of a point. -/
structure Live.Stored (live : Live) (points : ℕ) : Prop where
  stored : ∀ reg area, live.area reg = some area → area.Stored points
  nonempty : ∀ reg area, live.area reg = some area → area.pieces ≠ []

/-- The liveness of a function is kept so. -/
theorem Live.of_stored (f : Func) : (Live.of f (Order.of f)).Stored (Order.of f).points := by
  have harea (reg : Reg) (area : Area) (h : (Live.of f (Order.of f)).area reg = some area) :
      area.also = none ∧ area.pieces = (Live.of f (Order.of f)).piecesOf reg ∧ area.pieces ≠ [] := by
    unfold Live.area at h
    cases hpieces : (Live.of f (Order.of f)).piecesOf reg with
    | nil => simp [hpieces] at h
    | cons piece pieces =>
      obtain rfl : (⟨piece :: pieces, none⟩ : Area) = area := by simpa [hpieces] using h
      exact ⟨rfl, rfl, List.cons_ne_nil _ _⟩
  refine ⟨fun reg area h => ?_, fun reg area h => (harea reg area h).2.2⟩
  obtain ⟨halso, hpieces, hne⟩ := harea reg area h
  refine ⟨halso, ?_⟩
  rw [hpieces] at hne ⊢
  cases reg with
  | physical reg => exact absurd rfl hne
  | virtualReg v =>
    by_cases hv : v < f.vregs
    · have hcarve := carve_spec f
        (flow f (Order.of f) (exposed f (Order.of f)).1 (exposed f (Order.of f)).2).1
        (flow f (Order.of f) (exposed f (Order.of f)).1 (exposed f (Order.of f)).2).2 hv
      have hof : (Live.of f (Order.of f)).piecesOf (.virtualReg v) =
          Buckets.slice (Live.of f (Order.of f)).pieces ((Live.of f (Order.of f)).spans v)
            ((Live.of f (Order.of f)).spans (v + 1)) := if_pos hv
      rw [hof]
      exact hcarve.1
    · exact absurd (if_neg hv) hne

/-- The values of a class that want a register at a point: those live there that do not go to
memory. -/
def Wanting (f : Func) (live : Live) (spilled : List Reg) (cls : RegClass) (point v : ℕ) : Prop :=
  f.classes[v]? = some cls ∧ live.coversAt (.virtualReg v) point = true ∧
    Reg.virtualReg v ∉ spilled

instance (f : Func) (live : Live) (spilled : List Reg) (cls : RegClass) (point : ℕ) :
    DecidablePred (Wanting f live spilled cls point) := fun _ => instDecidableAnd

namespace Pressure

variable {f : Func} {live : Live} {spilled : List Reg} {points : ℕ}

variable {steps : RegClass → Option (ℕ → ℤ)} {v q : ℕ} {area : Area} {cls : RegClass}

/-- A value with an area and a class has its area in the row of its class, unless it is spilled. -/
theorem step_some (harea : live.area (.virtualReg v) = some area) (hcls : f.classes[v]? = some cls) :
    step f live spilled steps v =
      if .virtualReg v ∈ spilled then steps
      else Function.update steps cls (some (stepped ((steps cls).getD fun _ => 0) area)) := by
  unfold step
  rw [harea, hcls]

/-- A value with no area or no class changes nothing. -/
theorem step_none (h : live.area (.virtualReg v) = none ∨ f.classes[v]? = none) :
    step f live spilled steps v = steps := by
  unfold step
  rcases h with h | h
  · rw [h]
  · rw [h]
    cases live.area (.virtualReg v) <;> rfl

theorem wanting_iff : Wanting f live spilled cls q v ↔
    ∃ area, live.area (.virtualReg v) = some area ∧ f.classes[v]? = some cls ∧
      area.covers q = true ∧ Reg.virtualReg v ∉ spilled := by
  unfold Wanting Live.coversAt
  cases live.area (.virtualReg v) with
  | none => simp
  | some area => simp

/-- One value's part of the steps of a class. -/
theorem sum_step (hlive : live.Stored points) (steps : RegClass → Option (ℕ → ℤ)) (cls : RegClass) (q v : ℕ) :
    ∑ i ∈ Finset.range (q + 1), ((step f live spilled steps v) cls).getD (fun _ => 0) i =
      (∑ i ∈ Finset.range (q + 1), (steps cls).getD (fun _ => 0) i) +
        if Wanting f live spilled cls q v then 1 else 0 := by
  simp only [wanting_iff]
  cases harea : live.area (.virtualReg v) with
  | none =>
    rw [step_none (Or.inl harea)]
    simp
  | some area =>
    cases hcls : f.classes[v]? with
    | none =>
      rw [step_none (Or.inr hcls)]
      simp
    | some cls' =>
      rw [step_some harea hcls]
      by_cases hspilled : Reg.virtualReg v ∈ spilled
      · simp [hspilled]
      · rw [if_neg hspilled]
        by_cases heq : cls = cls'
        · subst heq
          rw [Function.update_self, Option.getD_some, sum_stepped (hlive.stored _ _ harea)]
          simp [hspilled]
        · rw [Function.update_of_ne heq]
          simp [Ne.symm heq]

/-- The steps of all the values add up, at each point, to the values that want a register there. -/
theorem sum_steps (hlive : live.Stored points) (cls : RegClass) (q n : ℕ) :
    ∑ i ∈ Finset.range (q + 1),
        (((List.range n).foldl (step f live spilled) fun _ => none) cls).getD (fun _ => 0) i =
      ((Finset.range n).filter (Wanting f live spilled cls q)).card := by
  induction n with
  | zero => simp
  | succ n ih =>
    rw [List.range_succ, List.foldl_append, List.foldl_cons, List.foldl_nil, sum_step hlive, ih,
      Finset.range_add_one, Finset.filter_insert]
    split_ifs with h
    · rw [Finset.card_insert_of_notMem (by simp)]
      push_cast
      rfl
    · rw [add_zero]

/-- A class has a row of steps as soon as a value of it wants a register. -/
theorem steps_isSome {n : ℕ} (hv : v < n)
    (harea : live.area (.virtualReg v) = some area) (hcls : f.classes[v]? = some cls)
    (hspilled : Reg.virtualReg v ∉ spilled) :
    (((List.range n).foldl (step f live spilled) fun _ => none) cls).isSome := by
  have hmono (steps : RegClass → Option (ℕ → ℤ)) (w : ℕ) (h : (steps cls).isSome) :
      ((step f live spilled steps w) cls).isSome := by
    cases harea : live.area (.virtualReg w) with
    | none => rwa [step_none (Or.inl harea)]
    | some area =>
      cases hcls : f.classes[w]? with
      | none => rwa [step_none (Or.inr hcls)]
      | some cls' =>
        rw [step_some harea hcls]
        split_ifs
        · exact h
        · rw [Function.update_apply]
          split_ifs
          · rfl
          · exact h
  induction n with
  | zero => omega
  | succ n ih =>
    rw [List.range_succ, List.foldl_append, List.foldl_cons, List.foldl_nil]
    by_cases hlast : v = n
    · rw [← hlast, step_some harea hcls, if_neg hspilled, Function.update_self]
      rfl
    · exact hmono _ _ (ih (by omega))

variable {offered : RegClass → List PhysReg} {taken : List (RegClass × PhysReg × ℕ)}

/-- The table counts, at each point of the line, the values of the class that want a register. -/
theorem with_wanted (hlive : live.Stored points) (cls : RegClass) (hq : q < points) :
    (with_ f points live offered spilled taken).wanted cls q =
      ((Finset.range f.vregs).filter (Wanting f live spilled cls q)).card := by
  have hsum := @sum_steps f live spilled points hlive cls q f.vregs
  unfold wanted with_
  dsimp only
  cases hrow : ((List.range f.vregs).foldl (step f live spilled) fun _ => none) cls with
  | none =>
    rw [hrow] at hsum
    simp only [Option.getD_none, Finset.sum_const_zero] at hsum
    rw [Option.elim_none, List.getD_nil]
    exact_mod_cast hsum
  | some row =>
    rw [hrow, Option.getD_some] at hsum
    rw [Option.elim_some, counted_eq, List.getD_eq_getElem?_getD,
      List.getElem?_eq_getElem (by simpa using hq), Option.getD_some, List.getElem_map,
      List.getElem_range, hsum, Int.toNat_natCast]

/-- A class with a value that wants a register has a count for every point. -/
theorem length_with (hv : v < f.vregs)
    (harea : live.area (.virtualReg v) = some area) (hcls : f.classes[v]? = some cls)
    (hspilled : Reg.virtualReg v ∉ spilled) :
    ((with_ f points live offered spilled taken).wantedRows cls).length = points := by
  obtain ⟨row, hrow⟩ := Option.isSome_iff_exists.mp (steps_isSome hv harea hcls hspilled)
  unfold with_
  dsimp only
  rw [hrow, Option.elim_some, counted_eq, List.length_map, List.length_range]

end Pressure

end Rucc.Regalloc
