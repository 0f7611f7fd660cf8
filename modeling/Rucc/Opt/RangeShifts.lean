import Rucc.Opt.RangeTransfers

/-!
# What a shift does to ranges, and where it loses a value

A shift walks its counts while there are few of them, and falls back on what holds for all of them.
The right shifts are sound. A shift left by one count is a multiplication by a power of two, and at
the greatest count that power is the sign bit, which the signed window of the multiplication reads as
a negative number: minus one shifted to the sign bit fits, and is lost. `LosesSign` says when that
pairing is reached, and `shl_sound` that nothing is lost otherwise.
-/

namespace Rucc.Opt

open KnownBits Intervals U128 Checked Range

variable {limit : ℕ}

/-! ## Listing the values of a range -/

/-- Listing the values of intervals, after those already listed. -/
theorem list_foldlM (pairs : List (ℕ × ℕ)) (had values : List ℕ) (hin : ∀ p ∈ pairs, p.1 ≤ p.2)
    (h : pairs.foldlM (fun values p =>
      if p.2 - p.1 ≥ limit then none
      else if values.length + (p.2 - p.1 + 1) > limit then none
      else some (values ++ (List.range' p.1 (p.2 - p.1 + 1)))) had = some values) (v : ℕ) :
    v ∈ values ↔ v ∈ had ∨ Covers pairs v := by
  induction pairs generalizing had with
  | nil =>
    simp only [List.foldlM_nil, Option.pure_def, Option.some.injEq] at h
    simp [h]
  | cons p pairs ih =>
    rw [List.foldlM_cons] at h
    split_ifs at h with h₁ h₂
    · cases h
    · cases h
    · have hp := hin p (by simp)
      have hih := ih _ (fun q hq => hin q (List.mem_cons_of_mem _ hq)) h
      have hrange : v ∈ List.range' p.1 (p.2 - p.1 + 1) ↔ p.1 ≤ v ∧ v ≤ p.2 := by
        rw [List.mem_range'_1]
        omega
      rw [hih, List.mem_append, hrange, covers_cons]
      exact or_assoc

theorem list_spec {r : Range} (hr : r.WellFormed) {values : List ℕ}
    (h : r.list limit = some values) (v : ℕ) : v ∈ values ↔ Covers r.pairs v := by
  have hmem := list_foldlM r.pairs [] values (fun p hp => (hr.inside p hp).1) h v
  simpa using hmem

namespace Ops

variable {width : ℕ}

/-! ## The walk over the counts -/

section Walk

variable {a count : Range} {flags : Flags} {kind : Kind}

/-- What the shift by one count of the list holds, the walk holds. -/
theorem listedShift_spec (ha : a.WellFormed)
    (hone : ∀ c, c < a.width → (oneShift a c flags kind a.width).WellFormed ∧
      (oneShift a c flags kind a.width).width = a.width) (counts : List ℕ) (range : Range)
    (hrange : range.WellFormed ∧ range.width = a.width) :
    (listedShift a flags kind counts range).WellFormed ∧
      (listedShift a flags kind counts range).width = a.width ∧
      ∀ v < 2^a.width, (v ∈ range ∨ ∃ c ∈ counts, v ∈ oneShift a c flags kind a.width) →
        v ∈ listedShift a flags kind counts range := by
  have hclamp := clamp_of_bounds ha.one_le_width ha.width_le
  induction counts generalizing range with
  | nil => exact ⟨hrange.1, hrange.2, fun v _ hv => by simpa [listedShift] using hv⟩
  | cons c counts ih =>
    unfold listedShift
    split_ifs with hlarge
    · refine ⟨full_wellFormed _, hclamp, fun v hv _ => mem_full ?_⟩
      rwa [hclamp]
    · obtain ⟨hform, hwidth⟩ := hone c (by omega)
      obtain ⟨h₁, h₂, h₃⟩ := union_spec hrange.1 hform (hrange.2.trans hwidth.symm)
      obtain ⟨h₄, h₅, h₆⟩ := ih _ ⟨h₁, h₂.trans hrange.2⟩
      refine ⟨h₄, h₅, fun v hlt hv => h₆ v hlt ?_⟩
      rcases hv with hv | ⟨c', hc', hv⟩
      · exact Or.inl (h₃ v (Or.inl hv))
      · rcases List.mem_cons.mp hc' with rfl | hc'
        · exact Or.inl (h₃ v (Or.inr hv))
        · exact Or.inr ⟨c', hc', hv⟩

/-- One count at or above the width is enough for the walk to give up. -/
theorem listedShift_full {counts : List ℕ} (h : ∃ c ∈ counts, a.width ≤ c) (range : Range) :
    listedShift a flags kind counts range = full a.width := by
  induction counts generalizing range with
  | nil =>
    obtain ⟨c, hc, -⟩ := h
    cases hc
  | cons c counts ih =>
    unfold listedShift
    split_ifs with hlarge
    · rfl
    · apply ih
      obtain ⟨c', hc', hle⟩ := h
      rcases List.mem_cons.mp hc' with rfl | hc'
      · exact absurd hle hlarge
      · exact ⟨c', hc', hle⟩

/-- A shift holds what the shift by one of its counts holds, and what the coarse answer does. -/
theorem shift_spec (ha : a.WellFormed) (hcount : count.WellFormed)
    (hone : ∀ c, c < a.width → (oneShift a c flags kind a.width).WellFormed ∧
      (oneShift a c flags kind a.width).width = a.width)
    (hcoarse : ∀ low, low < a.width → (coarseShift a count low kind).WellFormed ∧
      (coarseShift a count low kind).width = a.width) :
    (shift a count flags kind).WellFormed ∧ (shift a count flags kind).width = a.width ∧
      ∀ x ∈ a, ∀ c ∈ count, c < a.width → ∀ v < 2^a.width,
        ((∃ counts, count.list COUNTS = some counts ∧ ∀ c ∈ counts, c < a.width) →
          v ∈ oneShift a c flags kind a.width) →
        (∀ low ≤ c, v ∈ coarseShift a count low kind) → v ∈ shift a count flags kind := by
  have hclamp := clamp_of_bounds ha.one_le_width ha.width_le
  have hfull (v : ℕ) (hv : v < 2^a.width) : v ∈ full a.width := mem_full (by rwa [hclamp])
  unfold shift
  split_ifs with hempty
  · refine ⟨empty_wellFormed _, hclamp, fun x hx c hc => ?_⟩
    rw [Bool.or_eq_true] at hempty
    rcases hempty with h | h
    · exact absurd hx (not_mem_of_isEmpty ha h x)
    · exact absurd hc (not_mem_of_isEmpty hcount h c)
  · cases hbounds : count.unsignedBounds with
    | none =>
      refine ⟨empty_wellFormed _, hclamp, fun x _ c hc => ?_⟩
      obtain ⟨lo, hi, hsome, -⟩ := unsignedBounds_spec hcount hc
      rw [hsome] at hbounds
      cases hbounds
    | some bounds =>
      obtain ⟨low, high⟩ := bounds
      simp only
      split_ifs with hlarge
      · exact ⟨full_wellFormed _, hclamp, fun _ _ _ _ _ v hv _ _ => hfull v hv⟩
      · cases hlist : count.list COUNTS with
        | none =>
          obtain ⟨h₁, h₂⟩ := hcoarse low (by omega)
          refine ⟨h₁, h₂, fun x _ c hc _ v _ _ hv => hv low ?_⟩
          obtain ⟨lo, hi, hsome, hle, -⟩ := unsignedBounds_spec hcount hc
          rw [hbounds] at hsome
          cases hsome
          exact hle
        | some counts =>
          obtain ⟨h₁, h₂, h₃⟩ := listedShift_spec ha hone counts (empty a.width)
            ⟨empty_wellFormed _, hclamp⟩
          refine ⟨h₁, h₂, fun x _ c hc _ v hlt hv _ => ?_⟩
          have hmem := (list_spec hcount hlist c).mpr (hcount.mem.mp hc).2
          by_cases hall : ∀ c ∈ counts, c < a.width
          · exact h₃ v hlt (Or.inr ⟨c, hmem, hv ⟨counts, rfl, hall⟩⟩)
          · push Not at hall
            simp only
            rw [listedShift_full hall]
            exact hfull v hlt

end Walk

/-! ## Shifts right -/

theorem natShiftRight_mono {y z c d : ℕ} (h : y ≤ z) (hcd : c ≤ d) : y >>> d ≤ z >>> c := by
  rw [Nat.shiftRight_eq_div_pow, Nat.shiftRight_eq_div_pow]
  calc y / 2^d ≤ z / 2^d := Nat.div_le_div_right h
    _ ≤ z / 2^c := Nat.div_le_div_left (Nat.pow_le_pow_right (by norm_num) hcd) (by positivity)

theorem natShiftRight_le (y c : ℕ) : y >>> c ≤ y := by
  rw [Nat.shiftRight_eq_div_pow]
  exact Nat.div_le_self _ _

section Right

variable {a count : Range} (ha : a.WellFormed) (hcount : count.WellFormed)

include ha in
theorem oneShift_logical (c : ℕ) (flags : Flags) : (oneShift a c flags .logical a.width).WellFormed ∧
      (oneShift a c flags .logical a.width).width = a.width ∧
      ∀ x ∈ a, x >>> c ∈ oneShift a c flags .logical a.width := by
  have hclamp := clamp_of_bounds ha.one_le_width ha.width_le
  refine ⟨fromPairs_wellFormed _ _, (fromPairs_width _ _).trans hclamp, fun x hx => ?_⟩
  apply mem_fromPairs
  · rw [hclamp]
    intro q hq
    obtain ⟨p, hp, rfl⟩ := List.mem_map.mp hq
    have hin := ha.inside p hp
    exact ⟨natShiftRight_mono hin.1 le_rfl, le_trans (natShiftRight_le _ _) hin.2⟩
  · obtain ⟨p, hp, hpx⟩ := (ha.mem.mp hx).2
    exact ⟨_, List.mem_map_of_mem hp, natShiftRight_mono hpx.1 le_rfl,
      natShiftRight_mono hpx.2 le_rfl⟩

include ha hcount in
theorem coarseShift_logical (low : ℕ) : (coarseShift a count low .logical).WellFormed ∧
      (coarseShift a count low .logical).width = a.width ∧
      ∀ x ∈ a, ∀ c ∈ count, low ≤ c → x >>> c ∈ coarseShift a count low .logical := by
  have hw := ha.width_le
  have hclamp := clamp_of_bounds ha.one_le_width hw
  have hform := between_wellFormed 0 (mask a.width >>> low) a.width
  have hwidth := (between_width 0 (mask a.width >>> low) a.width).trans hclamp
  have hmem (x c : ℕ) (hx : x ∈ a) (hc : low ≤ c) :
      x >>> c ∈ between 0 (mask a.width >>> low) a.width := by
    have hxm := (le_mask_iff hw).mpr (lt_of_mem hx)
    apply mem_between (Nat.zero_le _) (natShiftRight_mono hxm hc)
    rw [hclamp]
    exact natShiftRight_le _ _
  unfold coarseShift
  simp only [coarse]
  split
  · rename_i lo hi least most hsome hsome'
    split_ifs with hmost
    · -- No count reaches the width, so the ends of both ranges bound the answer.
      obtain ⟨h₁, h₂, h₃⟩ := intersect_spec hform
        (between_wellFormed (lo >>> most) (hi >>> low) a.width)
      refine ⟨h₁, h₂.trans hwidth, fun x hx c hc hlow => h₃ _ (hmem x c hx hlow) ?_⟩
      obtain ⟨lo', hi', hs, hlo, hhi, htop⟩ := unsignedBounds_spec ha hx
      obtain ⟨lo'', hi'', hs', -, hmost', -⟩ := unsignedBounds_spec hcount hc
      rw [hsome] at hs
      rw [hsome'] at hs'
      cases hs
      cases hs'
      apply mem_between (natShiftRight_mono hlo hmost') (natShiftRight_mono hhi hlow)
      rw [hclamp]
      exact le_trans (natShiftRight_le _ _) htop
    · exact ⟨hform, hwidth, fun x hx c _ hlow => hmem x c hx hlow⟩
  · exact ⟨hform, hwidth, fun x hx c _ hlow => hmem x c hx hlow⟩

include ha hcount in
/-- The shift right with zeroes coming in is sound. -/
theorem lshr_sound (flags : Flags) : (lshr a count flags).WellFormed ∧ (lshr a count flags).width = a.width ∧
      ∀ x ∈ a, ∀ c ∈ count, c < a.width → x >>> c ∈ lshr a count flags := by
  have hone (c : ℕ) := oneShift_logical ha c flags
  have hcoarse := coarseShift_logical ha hcount
  obtain ⟨h₁, h₂, h₃⟩ := @shift_spec a count flags .logical ha hcount
    (fun c _ => ⟨(hone c).1, (hone c).2.1⟩) (fun low _ => ⟨(hcoarse low).1, (hcoarse low).2.1⟩)
  refine ⟨h₁, h₂, fun x hx c hc hlt => h₃ x hx c hc hlt _ ?_ (fun _ => (hone c).2.2 x hx)
    (fun low hlow => (hcoarse low).2.2 x hx c hc hlow)⟩
  exact lt_of_le_of_lt (natShiftRight_le _ _) (lt_of_mem hx)

/-- A number shifted right stays between itself and where it stops. -/
theorem shiftRight_between (z : ℤ) (c : ℕ) : min z 0 ≤ z >>> c ∧ z >>> c ≤ max z (-1) := by
  rw [Int.shiftRight_eq_div_pow]
  have hpos : (0 : ℤ) < ((2^c : ℕ) : ℤ) := by positivity
  have hone : (1 : ℤ) ≤ ((2^c : ℕ) : ℤ) := by omega
  constructor
  · rw [Int.le_ediv_iff_mul_le hpos]
    rcases le_total 0 z with hz | hz
    · rw [min_eq_right hz, zero_mul]
      exact hz
    · rw [min_eq_left hz]
      exact mul_le_of_one_le_right hz hone
  · rw [← Int.lt_add_one_iff, Int.ediv_lt_iff_lt_mul hpos]
    rcases le_total 0 z with hz | hz
    · rw [max_eq_left (by omega)]
      nlinarith
    · rcases eq_or_lt_of_le hz with rfl | hneg
      · norm_num
      · rw [max_eq_right (by omega)]
        simpa using hneg

theorem shiftRight_mono {y z : ℤ} (h : y ≤ z) (c : ℕ) : y >>> c ≤ z >>> c := by
  rw [Int.shiftRight_eq_div_pow, Int.shiftRight_eq_div_pow]
  exact Int.ediv_le_ediv (by positivity) h

include ha in
theorem shifted_fits {x : ℕ} (hx : x ∈ a) (c : ℕ) : Fits a.width (signedValue a.width x >>> c) := by
  have hbounds := signedValue_bounds ha.one_le_width (lt_of_mem hx)
  have hbetween := shiftRight_between (signedValue a.width x) c
  have hhalf : (1 : ℤ) ≤ 2^(a.width - 1) := one_le_pow₀ (by norm_num)
  unfold Fits
  omega

include ha in
theorem oneShift_arithmetic (c : ℕ) (flags : Flags) : (oneShift a c flags .arithmetic a.width).WellFormed ∧
      (oneShift a c flags .arithmetic a.width).width = a.width ∧
      ∀ x ∈ a, pattern a.width (signedValue a.width x >>> c) ∈
        oneShift a c flags .arithmetic a.width := by
  have h₁ := ha.one_le_width
  have hw := ha.width_le
  have hclamp := clamp_of_bounds h₁ hw
  unfold oneShift
  dsimp only
  cases hbounds : a.signedBounds with
  | none =>
    refine ⟨empty_wellFormed _, hclamp, fun x hx => ?_⟩
    obtain ⟨lo, hi, hsome, -⟩ := signedBounds_spec ha hx
    rw [hsome] at hbounds
    cases hbounds
  | some bounds =>
    refine ⟨signedBetween_wellFormed _ _ _, (signedBetween_width _ _ _).trans hclamp, ?_⟩
    intro x hx
    obtain ⟨lo, hi, hsome, hlo, hhi, -⟩ := signedBounds_spec ha hx
    rw [hsome] at hbounds
    cases hbounds
    apply mem_signedBetween h₁ hw (pattern_lt _ _)
    · rw [signedValue_pattern h₁ (shifted_fits ha hx c)]
      exact shiftRight_mono hlo c
    · rw [signedValue_pattern h₁ (shifted_fits ha hx c)]
      exact shiftRight_mono hhi c

include ha in
theorem coarseShift_arithmetic (low : ℕ) :
    (coarseShift a count low .arithmetic).WellFormed ∧
      (coarseShift a count low .arithmetic).width = a.width ∧
      ∀ x ∈ a, ∀ c : ℕ, pattern a.width (signedValue a.width x >>> c) ∈
        coarseShift a count low .arithmetic := by
  have h₁ := ha.one_le_width
  have hw := ha.width_le
  have hclamp := clamp_of_bounds h₁ hw
  have heq : coarseShift a count low .arithmetic = coarse a low a.width .arithmetic := by
    unfold coarseShift
    split
    · split_ifs <;> rfl
    · rfl
  rw [heq]
  unfold coarse
  dsimp only
  cases hbounds : a.signedBounds with
  | none =>
    refine ⟨empty_wellFormed _, hclamp, fun x hx => ?_⟩
    obtain ⟨lo, hi, hsome, -⟩ := signedBounds_spec ha hx
    rw [hsome] at hbounds
    cases hbounds
  | some bounds =>
    refine ⟨signedBetween_wellFormed _ _ _, (signedBetween_width _ _ _).trans hclamp, ?_⟩
    intro x hx c
    obtain ⟨lo, hi, hsome, hlo, hhi, -⟩ := signedBounds_spec ha hx
    rw [hsome] at hbounds
    cases hbounds
    -- A positive value stops at zero and a negative one at minus one.
    have hbetween := shiftRight_between (signedValue a.width x) c
    apply mem_signedBetween h₁ hw (pattern_lt _ _) <;>
      rw [signedValue_pattern h₁ (shifted_fits ha hx c)] <;> omega

include ha hcount in
/-- The shift right with the sign bit coming in is sound. -/
theorem ashr_sound (flags : Flags) : (ashr a count flags).WellFormed ∧ (ashr a count flags).width = a.width ∧
      ∀ x ∈ a, ∀ c ∈ count, c < a.width →
        pattern a.width (signedValue a.width x >>> c) ∈ ashr a count flags := by
  have hone (c : ℕ) := oneShift_arithmetic ha c flags
  have hcoarse (low : ℕ) := @coarseShift_arithmetic a count ha low
  obtain ⟨h₁, h₂, h₃⟩ := @shift_spec a count flags .arithmetic ha hcount
    (fun c _ => ⟨(hone c).1, (hone c).2.1⟩) (fun low _ => ⟨(hcoarse low).1, (hcoarse low).2.1⟩)
  exact ⟨h₁, h₂, fun x hx c hc hlt => h₃ x hx c hc hlt _ (pattern_lt _ _)
    (fun _ => (hone c).2.2 x hx) (fun low _ => (hcoarse low).2.2 x hx c)⟩

end Right

/-! ## Shifts left -/

/-- The pairing a shift left loses a value of: the value is minus one, the count is the greatest, a
signed promise is made, the counts are few enough to be walked, and no value that is not negative
shares an interval with minus one. At width one the greatest count is zero, and the interval does not
matter. -/
def LosesSign (a count : Range) (flags : Flags) : Prop :=
  flags.nsw = true ∧ (flags.nuw = false ∨ a.width = 1) ∧
    2^a.width - 1 ∈ a ∧ a.width - 1 ∈ count ∧
    (∃ counts, count.list COUNTS = some counts ∧ ∀ c ∈ counts, c < a.width) ∧
    (a.width = 1 ∨ ∃ p ∈ a.pairs, p.2 = mask a.width ∧ signBit a.width ≤ p.1)

theorem signedValue_top (h : 1 ≤ width) : signedValue width (2^width - 1) = -1 := by
  have hpow := two_pow_pred h
  have hpos : 0 < 2^(width - 1) := by positivity
  have hcast : (2^width : ℤ) = ((2^width : ℕ) : ℤ) := by push_cast; rfl
  unfold signedValue
  rw [if_neg (by omega)]
  omega

/-- The only number that is not negative whose product with the sign bit fits is zero, and the only
negative one is minus one. -/
theorem shifted_to_sign {x : ℕ} (h : 1 ≤ width) (hx : x < 2^width)
    (hfits : Fits width (signedValue width x * 2^(width - 1))) : x = 0 ∨ x = 2^width - 1 := by
  have hpos : (0 : ℤ) < 2^(width - 1) := by positivity
  obtain ⟨hlo, hhi⟩ := hfits
  have hle : -1 ≤ signedValue width x := by nlinarith
  have hlt : signedValue width x < 1 := by nlinarith
  have hcast : (2^width : ℤ) = ((2^width : ℕ) : ℤ) := by push_cast; rfl
  have htwo := two_pow_pred h
  have hpos' : 0 < 2^(width - 1) := by positivity
  unfold signedValue at hle hlt
  split_ifs at hle hlt <;> omega

theorem signedValue_two_pow {c : ℕ} (hc : c + 1 < width) : signedValue width (2^c) = 2^c := by
  have hlt : 2^c < 2^(width - 1) := Nat.pow_lt_pow_right (by norm_num) (by omega)
  unfold signedValue
  rw [if_pos hlt]
  push_cast
  rfl

theorem signedValue_signBit (h : 1 ≤ width) : signedValue width (2^(width - 1)) = -2^(width - 1) := by
  have hcast : (2^width : ℤ) = 2 * 2^(width - 1) := by exact_mod_cast two_pow_pred h
  unfold signedValue
  rw [if_neg (lt_irrefl _), hcast]
  push_cast
  ring

section Left

variable {a : Range} (ha : a.WellFormed)

variable {c x : ℕ} {flags : Flags} {count : Range}
include ha

/-- The range a count stands for as a factor. -/
theorem factor_spec (hc : c < a.width) : (exactly (shiftLeft 1 c) a.width).WellFormed ∧
      a.width = (exactly (shiftLeft 1 c) a.width).width ∧
      2^c ∈ exactly (shiftLeft 1 c) a.width ∧
      (2^c, 2^c) ∈ (exactly (shiftLeft 1 c) a.width).pairs := by
  have hw := ha.width_le
  have hclamp := clamp_of_bounds ha.one_le_width hw
  have hlt : 2^c < 2^a.width := Nat.pow_lt_pow_right (by norm_num) hc
  have hpow : 2^a.width ≤ 2^128 := Nat.pow_le_pow_right (by norm_num) hw
  have hone : shiftLeft 1 c = 2^c := by
    unfold shiftLeft
    rw [Nat.one_shiftLeft, Nat.mod_eq_of_lt (by omega)]
  rw [hone]
  refine ⟨exactly_wellFormed _ _, hclamp.symm,
    (mem_exactly_iff ha.one_le_width hw hlt).mpr rfl, ?_⟩
  simp [exactly, hclamp, and_mask_of_le hw ((le_mask_iff hw).mpr hlt)]

/-- Below the greatest count, or for another value than minus one, the multiplication reads both
factors as the shift does. -/
theorem oneShift_left (hc : c < a.width) (hx : x ∈ a)
    (hpromised : Promised flags a.width (signedValue a.width x * 2^c) (x * 2^c))
    (hother : flags.nsw = true → c + 1 = a.width → x ≠ 2^a.width - 1) :
    pattern a.width (x * 2^c) ∈ oneShift a c flags .left a.width := by
  have h₁ := ha.one_le_width
  obtain ⟨hform, hwidth, hmem, -⟩ := factor_spec ha hc
  have hsound := (mul_sound a _ flags ha hform hwidth).2.2 x hx (2^c) hmem
  dsimp only at hsound
  push_cast at hsound
  apply hsound
  refine ⟨fun hnsw => ?_, hpromised.2⟩
  by_cases hlast : c + 1 = a.width
  · -- At the greatest count only zero is left.
    have hfits := hpromised.1 hnsw
    have hc' : c = a.width - 1 := by omega
    rw [hc'] at hfits ⊢
    rcases shifted_to_sign h₁ (lt_of_mem hx) hfits with h | h
    · rw [h]
      have h0 : signedValue a.width 0 = 0 := by simp [signedValue]
      rw [h0, zero_mul]
      unfold Fits
      constructor
      · exact neg_nonpos_of_nonneg (by positivity)
      · positivity
    · exact absurd h (hother hnsw hlast)
  · rw [signedValue_two_pow (by omega)]
    exact hpromised.1 hnsw

/-- Minus one shifted to the sign bit is kept when a value that is not negative shares its interval. -/
theorem oneShift_left_sign (hwidth : 1 < a.width) (hx : 2^a.width - 1 ∈ a) (hnuw : flags.nuw = false)
    (hshares : ∀ p ∈ a.pairs, p.2 = mask a.width → p.1 < signBit a.width) :
    pattern a.width ((2^a.width - 1 : ℕ) * 2^(a.width - 1)) ∈
      oneShift a (a.width - 1) flags .left a.width := by
  have h₁ := ha.one_le_width
  have hw := ha.width_le
  have hmask := mask_eq hw
  have htwo := two_pow_pred h₁
  have hhalf : 2 ≤ 2^(a.width - 1) := by
    calc 2 = 2^1 := rfl
      _ ≤ 2^(a.width - 1) := Nat.pow_le_pow_right (by norm_num) (by omega)
  obtain ⟨hform, hwidth', hmem, hpair⟩ := factor_spec ha (show a.width - 1 < a.width by omega)
  obtain ⟨p, hp, hpx, hxp, htop, hpl, hph⟩ := located ha hx
  have hend : p.2 = mask a.width := by omega
  have hlow := hshares p hp hend
  rw [signBit_eq] at hlow
  have hspec := (mul_spec ha hform flags).2.2 _ hx _ hmem p hp _ hpair ⟨hpx, hxp⟩
    ⟨le_rfl, le_rfl⟩
  push_cast at hspec ⊢
  refine hspec (fun _ => ?_) (fun h => by rw [hnuw] at h; cases h)
  -- The result reads as the least number of the width.
  have hresult : pattern a.width (((2^a.width - 1 : ℕ) : ℤ) * 2^(a.width - 1)) =
      2^(a.width - 1) := by
    have hpat := pattern_mul a.width (2^a.width - 1) (2^(a.width - 1))
    push_cast at hpat ⊢
    rw [hpat, Nat.sub_mul, one_mul]
    have hsplit : 2^a.width * 2^(a.width - 1) - 2^(a.width - 1) =
        2^(a.width - 1) + 2^a.width * (2^(a.width - 1) - 1) := by
      rw [Nat.mul_sub, mul_one]
      have : 2^a.width ≤ 2^a.width * 2^(a.width - 1) := Nat.le_mul_of_pos_right _ (by positivity)
      omega
    rw [hsplit, Nat.add_mul_mod_self_left, Nat.mod_eq_of_lt (by omega)]
  rw [hresult, signedValue_signBit h₁]
  -- A value just below the boundary is in the interval, so its signed end is positive.
  have hnear := asSigned_spec (v := 2^(a.width - 1) - 1) h₁ hw (p := p)
    ⟨by omega, by omega⟩ htop
  have hsigned : signedValue a.width (2^(a.width - 1) - 1) = 2^(a.width - 1) - 1 := by
    unfold signedValue
    rw [if_pos (by omega)]
    push_cast [show 1 ≤ 2^(a.width - 1) by omega]
    rfl
  rw [hsigned] at hnear
  rw [signedValue_top h₁] at hpl hph
  have hlt : 2^(a.width - 1) < 2^a.width := by omega
  obtain ⟨hbl, hbh, hbl', -⟩ := asSigned_spec (v := 2^(a.width - 1)) h₁ hw
    (p := (2^(a.width - 1), 2^(a.width - 1))) ⟨le_rfl, le_rfl⟩ ((le_mask_iff hw).mpr hlt)
  rw [signedValue_signBit h₁] at hbl hbh
  have hb : (asSigned (2^(a.width - 1), 2^(a.width - 1)) a.width).1 = -2^(a.width - 1) := by omega
  have hhalf' : (2 : ℤ) ≤ 2^(a.width - 1) := by exact_mod_cast hhalf
  have hfits : Fits 128 (-2^(a.width - 1)) :=
    @Fits.mono a.width 128 _ ⟨le_rfl, by omega⟩ hw
  constructor
  · have hcorner : saturated 128 ((asSigned p a.width).2 *
        (asSigned (2^(a.width - 1), 2^(a.width - 1)) a.width).1) ≤ -2^(a.width - 1) := by
      apply saturated_le _ hfits
      rw [hb, mul_neg, neg_le_neg_iff]
      exact le_mul_of_one_le_left (by positivity) (by omega)
    exact (min_le_right _ _).trans ((min_le_left _ _).trans hcorner)
  · have hcorner : -2^(a.width - 1) ≤ saturated 128 ((asSigned p a.width).1 *
        (asSigned (2^(a.width - 1), 2^(a.width - 1)) a.width).1) := by
      apply le_saturated _ hfits
      rw [hb, mul_neg, neg_le_neg_iff]
      exact mul_le_of_le_one_left (by positivity) (by omega)
    exact hcorner.trans ((le_max_left _ _).trans (le_max_left _ _))

theorem oneShift_left_wellFormed (hc : c < a.width) (flags : Flags) :
    (oneShift a c flags .left a.width).WellFormed ∧
      (oneShift a c flags .left a.width).width = a.width := by
  obtain ⟨hform, -, -, -⟩ := factor_spec ha hc
  obtain ⟨h₁, h₂, -⟩ := mul_spec ha hform flags
  exact ⟨h₁, h₂⟩

theorem coarseShift_left (hcount : count.WellFormed) (low : ℕ) :
    (coarseShift a count low .left).WellFormed ∧ (coarseShift a count low .left).width = a.width ∧
      ∀ x ∈ a, ∀ c ∈ count, low ≤ c →
        pattern a.width (x * 2^c) ∈ coarseShift a count low .left := by
  have hw := ha.width_le
  have hclamp := clamp_of_bounds ha.one_le_width hw
  have hpattern (x c : ℕ) : pattern a.width ((x : ℤ) * 2^c) = x * 2^c % 2^a.width := by
    have hpat := pattern_mul a.width x (2^c)
    push_cast at hpat
    exact hpat
  obtain ⟨hform, hwidth, hmem⟩ := narrow_spec (full_wellFormed a.width)
    (Bits.fromParts 0 (shiftLeft (mask a.width) low) a.width)
  have hwidth' := hwidth.trans hclamp
  have hcoarse (x c : ℕ) (hlow : low ≤ c) : pattern a.width ((x : ℤ) * 2^c) ∈
      (full a.width).narrow (Bits.fromParts 0 (shiftLeft (mask a.width) low) a.width) := by
    apply hmem
    · apply mem_full
      rw [hclamp]
      exact pattern_lt _ _
    · rw [hpattern]
      exact low_allows hw (Dvd.dvd.mul_left (Nat.pow_dvd_pow 2 hlow) x)
  unfold coarseShift
  simp only [coarse]
  split
  · rename_i lo hi least most hsome hsome'
    split_ifs with hmost hfits
    · obtain ⟨h₁, h₂, h₃⟩ := intersect_spec hform
        (between_wellFormed (shiftLeft lo low) (shiftLeft hi most) a.width)
      refine ⟨h₁, h₂.trans hwidth', fun x hx c hc hlow => h₃ _ (hcoarse x c hlow) ?_⟩
      obtain ⟨lo', hi', hs, hlo, hhi, htop⟩ := unsignedBounds_spec ha hx
      obtain ⟨lo'', hi'', hs', -, hmost', -⟩ := unsignedBounds_spec hcount hc
      rw [hsome] at hs
      rw [hsome'] at hs'
      cases hs
      cases hs'
      -- The greatest value shifted by the greatest count stays inside the width.
      have hroom : hi * 2^most < 2^a.width := by
        rcases hfits with h0 | h0
        · rw [h0, pow_zero, mul_one]
          exact (le_mask_iff hw).mp htop
        · rw [Nat.shiftRight_eq_div_pow, Nat.div_eq_zero_iff] at h0
          have hlt : hi < 2^(a.width - most) := h0.resolve_left (by positivity)
          calc hi * 2^most < 2^(a.width - most) * 2^most :=
                Nat.mul_lt_mul_of_pos_right hlt (by positivity)
            _ = 2^a.width := by rw [← pow_add, Nat.sub_add_cancel hmost.le]
      have hpow : 2^a.width ≤ 2^128 := Nat.pow_le_pow_right (by norm_num) hw
      have hge : x * 2^c ≤ hi * 2^most :=
        Nat.mul_le_mul hhi (Nat.pow_le_pow_right (by norm_num) hmost')
      have hle : lo * 2^low ≤ x * 2^c :=
        Nat.mul_le_mul hlo (Nat.pow_le_pow_right (by norm_num) hlow)
      have hshift (y k : ℕ) (hlt : y * 2^k < 2^128) : shiftLeft y k = y * 2^k := by
        unfold shiftLeft
        rw [Nat.shiftLeft_eq, Nat.mod_eq_of_lt hlt]
      rw [hpattern, Nat.mod_eq_of_lt (by omega), hshift lo low (by omega),
        hshift hi most (by omega)]
      apply mem_between hle hge
      rw [hclamp]
      exact (le_mask_iff hw).mpr hroom
    · exact ⟨hform, hwidth', fun x _ c _ hlow => hcoarse x c hlow⟩
    · exact ⟨hform, hwidth', fun x _ c _ hlow => hcoarse x c hlow⟩
  · exact ⟨hform, hwidth', fun x _ c _ hlow => hcoarse x c hlow⟩

theorem shl_form (hcount : count.WellFormed) (flags : Flags) :
    (shl a count flags).WellFormed ∧ (shl a count flags).width = a.width := by
  have hcoarse := coarseShift_left ha hcount
  obtain ⟨h₁, h₂, -⟩ := @shift_spec a count flags .left ha hcount
    (fun c hc => oneShift_left_wellFormed ha hc flags)
    (fun low _ => ⟨(hcoarse low).1, (hcoarse low).2.1⟩)
  exact ⟨h₁, h₂⟩

/-- The shift left is sound where it does not lose the sign. -/
theorem shl_sound (hcount : count.WellFormed) (hkeeps : ¬ LosesSign a count flags) (hx : x ∈ a) (hc : c ∈ count)
    (hlt : c < a.width)
    (hpromised : Promised flags a.width (signedValue a.width x * 2^c) (x * 2^c)) :
    pattern a.width (x * 2^c) ∈ shl a count flags := by
  have h₁ := ha.one_le_width
  have hcoarse := coarseShift_left ha hcount
  obtain ⟨-, -, hmem⟩ := @shift_spec a count flags .left ha hcount
    (fun c hc => oneShift_left_wellFormed ha hc flags)
    (fun low _ => ⟨(hcoarse low).1, (hcoarse low).2.1⟩)
  refine hmem x hx c hc hlt _ (pattern_lt _ _) (fun hlist => ?_)
    (fun low hlow => (hcoarse low).2.2 x hx c hc hlow)
  by_cases hother : flags.nsw = true ∧ c + 1 = a.width ∧ x = 2^a.width - 1
  · obtain ⟨hnsw, hlast, rfl⟩ := hother
    obtain rfl : c = a.width - 1 := by omega
    have hkeeps' : ¬ ((flags.nuw = false ∨ a.width = 1) ∧
        (a.width = 1 ∨ ∃ p ∈ a.pairs, p.2 = mask a.width ∧ signBit a.width ≤ p.1)) :=
      fun h => hkeeps ⟨hnsw, h.1, hx, hc, hlist, h.2⟩
    have hwidth : 1 < a.width := by
      by_contra hone
      have : a.width = 1 := by omega
      exact hkeeps' ⟨Or.inr this, Or.inl this⟩
    -- Minus one shifted at all is past the unsigned range, so there is no unsigned promise.
    have hnuw : flags.nuw = false := by
      by_contra hne
      have hfit := (hpromised.2 (by simpa using hne)).2
      have hhalf : 2 ≤ 2^(a.width - 1) := by
        calc 2 = 2^1 := rfl
          _ ≤ 2^(a.width - 1) := Nat.pow_le_pow_right (by norm_num) (by omega)
      have htwo := two_pow_pred h₁
      have hnat : (2^a.width - 1) * 2^(a.width - 1) < 2^a.width := by exact_mod_cast hfit
      have hge : (2^a.width - 1) * 2 ≤ (2^a.width - 1) * 2^(a.width - 1) :=
        Nat.mul_le_mul_left _ hhalf
      omega
    apply oneShift_left_sign ha hwidth hx hnuw
    intro p hp hend
    by_contra hside
    exact hkeeps' ⟨Or.inl hnuw, Or.inr ⟨p, hp, hend, Nat.le_of_not_lt hside⟩⟩
  · exact oneShift_left ha hlt hx hpromised (fun hnsw hlast heq => hother ⟨hnsw, hlast, heq⟩)

end Left

end Ops

end Rucc.Opt
