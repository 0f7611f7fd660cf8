import Rucc.Regalloc.ActiveLists

/-!
# What the questions asked of an area mean

An `Area` of `live.rs` is a set of points: those in a piece, and the extra point when it is the one directly
in front of a piece. `covers` decides membership, by the binary search the source makes too, and `overlaps`
says whether two areas have a point in common.
-/

namespace Rucc.Regalloc

/-! ## The search for a partition point -/

/-- The place a binary search ends at: `base` moves to the middle while the test holds there. -/
def bisect (q : ℕ → Bool) : ℕ → ℕ → ℕ → ℕ
  | 0, base, _ => base
  | fuel + 1, base, size =>
    if 1 < size then
      bisect q fuel (if q (base + size / 2) then base + size / 2 else base) (size - size / 2)
    else base

/-- How many of the first `n` places satisfy a test that fails from some place on. -/
def partitionPoint (q : ℕ → Bool) (n : ℕ) : ℕ :=
  if n = 0 then 0
  else if q (bisect q n 0 n) then bisect q n 0 n + 1 else bisect q n 0 n

variable {q : ℕ → Bool}

/-- Nothing from the end of the stretch on satisfies the test, and its first place does unless that is where
the search began. -/
theorem bisect_spec (hq : ∀ i j, i ≤ j → q j = true → q i = true) {n : ℕ} (fuel base size : ℕ)
    (hfuel : size ≤ fuel + 1) (hsize : 0 < size) (hbound : base + size ≤ n) (hbase : base = 0 ∨ q base = true)
    (hrest : ∀ i, base + size ≤ i → i < n → q i = false) :
    bisect q fuel base size < n ∧ (bisect q fuel base size = 0 ∨ q (bisect q fuel base size) = true) ∧
      ∀ i, bisect q fuel base size < i → i < n → q i = false := by
  induction fuel generalizing base size with
  | zero => exact ⟨by rw [bisect]; omega, hbase, fun i hi => hrest i (by rw [bisect] at hi; omega)⟩
  | succ fuel ih =>
    rw [bisect]
    split_ifs with hlarge hmid
    · exact ih _ _ (by omega) (by omega) (by omega) (Or.inr hmid) fun i hi => hrest i (by omega)
    · refine ih _ _ (by omega) (by omega) (by omega) hbase fun i hi _ => ?_
      by_contra h
      exact hmid (hq _ i (by omega) (by simpa using h))
    · exact ⟨by omega, hbase, fun i hi => hrest i (by omega)⟩

theorem partitionPoint_spec (hq : ∀ i j, i ≤ j → q j = true → q i = true) (n : ℕ) :
    partitionPoint q n ≤ n ∧ ∀ i < n, q i = true ↔ i < partitionPoint q n := by
  unfold partitionPoint
  split_ifs with hn hlast
  · exact ⟨by omega, by omega⟩
  · obtain ⟨hlt, -, hrest⟩ := bisect_spec hq (n := n) n 0 n (by omega) (by omega) (by omega) (Or.inl rfl) (by omega)
    refine ⟨hlt, fun i hi => ⟨fun h => ?_, fun h => hq i _ (by omega) hlast⟩⟩
    by_contra hge
    simp [hrest i (by omega) hi] at h
  · obtain ⟨hlt, hbase, hrest⟩ := bisect_spec hq (n := n) n 0 n (by omega) (by omega) (by omega) (Or.inl rfl) (by omega)
    have hzero := hbase.resolve_right hlast
    refine ⟨hlt.le, fun i hi => ⟨fun h => ?_, fun h => by omega⟩⟩
    by_contra hge
    rcases Nat.eq_or_lt_of_le (not_lt.mp hge) with heq | hgt
    · exact hlast (heq ▸ h)
    · simp [hrest i hgt hi] at h

/-! ## The points of an area -/

namespace Area

variable {a other : Area} {point : ℕ}

/-- The value is live at the point: it lies in a piece, or it is the extra point and the one directly in
front of a piece. -/
def Holds (a : Area) (point : ℕ) : Prop :=
  (∃ piece ∈ a.pieces, piece.start ≤ point ∧ point ≤ piece.stop) ∨
    (a.also = some point ∧ ∃ piece ∈ a.pieces, point + 1 = piece.start)

/-- Where the source's search for the first piece that ends no earlier than the point comes out. -/
def first (a : Area) (point : ℕ) : ℕ :=
  partitionPoint (fun i => decide ((a.pieces.getD i ⟨0, point⟩).stop < point)) a.count

theorem stretch_covers (piece : Range) (h : piece.start ≤ piece.stop) :
    (a.stretch piece).covers point = true ↔
      (piece.start ≤ point ∧ point ≤ piece.stop) ∨ (a.also = some point ∧ point + 1 = piece.start) := by
  unfold stretch Range.covers
  rw [Bool.and_eq_true, decide_eq_true_eq, decide_eq_true_eq]
  split
  · rename_i also halso
    rw [halso, Option.some_inj]
    split_ifs with hfront
    · dsimp only
      omega
    · omega
  · rename_i hnone
    simp [hnone]

/-- The points of an area are those of its pieces, stretched as the source stretches them. -/
theorem Apart.holds_iff (h : a.Apart) : a.Holds point ↔ ∃ r ∈ a.all, r.covers point = true := by
  unfold Holds all
  simp only [List.mem_map, exists_exists_and_eq_and]
  rw [← exists_and_left, ← exists_or]
  refine exists_congr fun piece => ?_
  by_cases hmem : piece ∈ a.pieces
  · rw [stretch_covers piece (h.nonempty piece hmem)]
    tauto
  · tauto

/-- Of pieces in order, only the first that ends no earlier than the point can hold it. -/
theorem inOrder_covers_iff {l : List Range} (h : InOrder l) :
    (match l.dropWhile (fun r => decide (r.stop < point)) with
      | [] => false
      | r :: _ => r.covers point) = true ↔ ∃ r ∈ l, r.covers point = true := by
  induction l with
  | nil => simp
  | cons r rest ih =>
    by_cases hends : r.stop < point
    · have hnot : r.covers point = false := by
        unfold Range.covers
        rw [Bool.and_eq_false_iff, decide_eq_false_iff_not, decide_eq_false_iff_not]
        omega
      rw [List.dropWhile_cons_of_pos (by simpa using hends), ih h.tail, List.exists_mem_cons_iff, hnot]
      simp
    · rw [List.dropWhile_cons_of_neg (by simpa using hends)]
      refine ⟨fun hr => ⟨r, List.mem_cons_self, hr⟩, ?_⟩
      rintro ⟨r', hmem, hr'⟩
      rcases List.mem_cons.mp hmem with rfl | hmem
      · exact hr'
      · -- a piece further along starts past the end of this one, which is no earlier than the point
        have hapart := (List.pairwise_cons.mp h.apart).1 r' hmem
        unfold Range.covers at hr'
        rw [Bool.and_eq_true, decide_eq_true_eq, decide_eq_true_eq] at hr'
        omega

theorem Apart.covers_iff (h : a.Apart) : a.covers point = true ↔ a.Holds point := by
  rw [h.holds_iff, ← inOrder_covers_iff h.inOrder]
  have hstop : ((fun r : Range => decide (r.stop < point)) ∘ a.stretch) =
      fun r : Range => decide (r.stop < point) :=
    funext fun r => by rw [Function.comp_apply, (a.stretch_spec r).1]
  unfold covers all
  rw [List.dropWhile_map, hstop]
  cases a.pieces.dropWhile fun r => decide (r.stop < point) with
  | nil => rfl
  | cons r rest => rfl

/-- Two stretches touch when a point lies in both. -/
theorem range_overlaps_iff {one two : Range} (hone : one.start ≤ one.stop) (htwo : two.start ≤ two.stop) :
    one.overlaps two = true ↔ ∃ point, one.covers point = true ∧ two.covers point = true := by
  rw [Regalloc.overlaps_iff]
  unfold Range.covers
  simp only [Bool.and_eq_true, decide_eq_true_eq]
  constructor
  · exact fun h => ⟨max one.start two.start, by omega, by omega⟩
  · rintro ⟨point, h₁, h₂⟩
    omega

theorem Apart.overlaps_iff (ha : a.Apart) (hother : other.Apart) :
    a.overlaps other = true ↔ ∃ point, a.Holds point ∧ other.Holds point := by
  have htouch : a.overlaps other = true ↔ ∃ one ∈ a.all, ∃ two ∈ other.all, one.overlaps two = true :=
    Regalloc.touch_iff ha.inOrder hother.inOrder (by simp [all, count])
  rw [htouch]
  constructor
  · rintro ⟨one, hone, two, htwo, h⟩
    obtain ⟨point, h₁, h₂⟩ := (range_overlaps_iff (ha.inOrder.nonempty one hone)
      (hother.inOrder.nonempty two htwo)).mp h
    exact ⟨point, ha.holds_iff.mpr ⟨one, hone, h₁⟩, hother.holds_iff.mpr ⟨two, htwo, h₂⟩⟩
  · rintro ⟨point, h₁, h₂⟩
    obtain ⟨one, hone, h₁⟩ := ha.holds_iff.mp h₁
    obtain ⟨two, htwo, h₂⟩ := hother.holds_iff.mp h₂
    exact ⟨one, hone, two, htwo, (range_overlaps_iff (ha.inOrder.nonempty one hone)
      (hother.inOrder.nonempty two htwo)).mpr ⟨point, h₁, h₂⟩⟩

/-! ## The binary search -/

/-- A list dropped while a test holds is the list dropped up to the place where the test first fails. -/
theorem dropWhile_eq_drop {α : Type} {p : α → Bool} {l : List α} {k : ℕ} (hk : k ≤ l.length)
    (h : ∀ i (hi : i < l.length), p (l.get ⟨i, hi⟩) = true ↔ i < k) : l.dropWhile p = l.drop k := by
  induction l generalizing k with
  | nil => simp
  | cons x rest ih =>
    have hx := h 0 (by simp)
    cases k with
    | zero =>
      have hneg : ¬ p x = true := by simpa using hx
      rw [List.dropWhile_cons_of_neg hneg, List.drop_zero]
    | succ k =>
      have hpos : p x = true := by simpa using hx
      rw [List.dropWhile_cons_of_pos hpos, List.drop_succ_cons]
      refine ih (by simpa using hk) fun i hi => ?_
      have := h (i + 1) (by simpa using hi)
      simpa using this

/-- The pieces the search leaves out are those that end before the point. -/
theorem Apart.first_spec (h : a.Apart) (point : ℕ) :
    a.first point ≤ a.count ∧
      a.pieces.dropWhile (fun piece => decide (piece.stop < point)) = a.pieces.drop (a.first point) := by
  have hmono (i j : ℕ) (hij : i ≤ j) (hj : decide ((a.pieces.getD j ⟨0, point⟩).stop < point) = true) :
      decide ((a.pieces.getD i ⟨0, point⟩).stop < point) = true := by
    rw [decide_eq_true_eq, List.getD_eq_getElem?_getD] at hj ⊢
    rcases lt_or_ge j a.pieces.length with hlt | hge
    · rw [List.getElem?_eq_getElem (by omega), Option.getD_some] at hj ⊢
      rcases Nat.eq_or_lt_of_le hij with rfl | hlt'
      · exact hj
      · have := List.pairwise_iff_getElem.mp h.apart i j (by omega) hlt hlt'
        have := h.nonempty _ (List.getElem_mem hlt)
        omega
    · rw [List.getElem?_eq_none hge, Option.getD_none] at hj
      exact absurd hj (lt_irrefl point)
  obtain ⟨hle, hspec⟩ := partitionPoint_spec hmono a.count
  refine ⟨hle, dropWhile_eq_drop hle fun i hi => ?_⟩
  refine Iff.trans ?_ (hspec i hi)
  simp [List.getD_eq_getElem?_getD, List.getElem?_eq_getElem hi]

/-- The search's answer is the one `covers` goes by. -/
theorem Apart.covers_search (h : a.Apart) (point : ℕ) :
    a.covers point =
      (decide (a.first point < a.count) && (a.piece (a.first point)).covers point) := by
  unfold covers
  rw [(h.first_spec point).2]
  rcases lt_or_ge (a.first point) a.count with hlt | hge
  · rw [List.drop_eq_getElem_cons hlt, decide_eq_true hlt, Bool.true_and, piece,
      List.getD_eq_getElem?_getD, List.getElem?_eq_getElem hlt, Option.getD_some]
  · rw [List.drop_eq_nil_of_le hge, decide_eq_false (not_lt.mpr hge), Bool.false_and]

/-! ## The answers -/

/-- `overlaps` says whether some point is in both areas, whichever is asked, and `covers`, at the piece its
binary search finds, whether a point is in one. -/
theorem answers_mean (ha : a.Apart) (hother : other.Apart) :
    (a.overlaps other = true ↔ ∃ point, a.Holds point ∧ other.Holds point) ∧
      (∀ point, a.covers point = true ↔ a.Holds point) ∧
      (∀ point, a.covers point =
        (decide (a.first point < a.count) && (a.piece (a.first point)).covers point)) ∧
      a.overlaps other = other.overlaps a := by
  refine ⟨ha.overlaps_iff hother, fun _ => ha.covers_iff, ha.covers_search, ?_⟩
  rw [Bool.eq_iff_iff, ha.overlaps_iff hother, hother.overlaps_iff ha]
  simp only [and_comm]

/-- The extra point in front of the second piece is where the other area ends. -/
theorem answers_mean_stretched :
    ((Area.mk [⟨0, 3⟩, ⟨6, 9⟩] (some 5)).overlaps ⟨[⟨4, 5⟩], none⟩ = true ↔
      ∃ point, (Area.mk [⟨0, 3⟩, ⟨6, 9⟩] (some 5)).Holds point ∧ (Area.mk [⟨4, 5⟩] none).Holds point) :=
  (@answers_mean ⟨[⟨0, 3⟩, ⟨6, 9⟩], some 5⟩ ⟨[⟨4, 5⟩], none⟩
    ⟨by decide, by decide⟩ ⟨by decide, by decide⟩).1

end Area

end Rucc.Regalloc
