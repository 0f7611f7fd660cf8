import Rucc.Opt.RangeSpec

/-!
# The signed reading of a range

The intervals are over the unsigned reading, so a signed interval wraps round and the signed bounds
are found on either side of the sign boundary.
-/

namespace Rucc.Opt

open Intervals U128

variable {width v : ℕ}

/-! ## Reading a pattern as signed -/

/-- The signed reading of a pattern, as a number. -/
def signedValue (width v : ℕ) : ℤ := if v < 2^(width - 1) then v else v - 2^width

theorem two_pow_pred (h : 1 ≤ width) : 2^width = 2 * 2^(width - 1) := by
  rw [← pow_succ', Nat.sub_add_cancel h]

theorem signedValue_bounds (h : 1 ≤ width) (hv : v < 2^width) :
    -2^(width - 1) ≤ signedValue width v ∧ signedValue width v < 2^(width - 1) := by
  have hpow := two_pow_pred h
  have hcast : ((2^width : ℕ) : ℤ) = 2 * ((2^(width - 1) : ℕ) : ℤ) := by rw [hpow]; push_cast; ring
  unfold signedValue
  push_cast at hcast
  split_ifs with hlt
  · have hlt' : (v : ℤ) < 2^(width - 1) := by exact_mod_cast hlt
    constructor <;> omega
  · have hge : (2 : ℤ)^(width - 1) ≤ v := by exact_mod_cast Nat.le_of_not_lt hlt
    have hv' : (v : ℤ) < 2^width := by exact_mod_cast hv
    constructor <;> omega

/-- The pattern is the signed reading, back at the width. -/
theorem signedValue_emod (hv : v < 2^width) : signedValue width v % 2^width = (v : ℤ) := by
  have hv' : (v : ℤ) < 2^width := by exact_mod_cast hv
  unfold signedValue
  split_ifs with hlt
  · exact Int.emod_eq_of_lt (by positivity) hv'
  · rw [Int.sub_emod_right]
    exact Int.emod_eq_of_lt (by positivity) hv'

theorem signedValue_strictMono {u : ℕ} (h : v < u) (hside : 2^(width - 1) ≤ v ∨ u < 2^(width - 1)) :
    signedValue width v < signedValue width u := by
  unfold signedValue
  split_ifs <;> omega

theorem signedValue_nonneg (h : v < 2^(width - 1)) : 0 ≤ signedValue width v := by
  unfold signedValue
  rw [if_pos h]
  omega

theorem signedValue_neg (hv : v < 2^width) (h : 2^(width - 1) ≤ v) : signedValue width v < 0 := by
  have hv' : (v : ℤ) < 2^width := by exact_mod_cast hv
  unfold signedValue
  rw [if_neg (by omega)]
  omega

theorem signed_eq (h : 1 ≤ width) (hw : width ≤ 128) (hv : v < 2^width) : signed v width = signedValue width v := by
  obtain ⟨s, hs⟩ : ∃ s, MAX_BITS - width = s := ⟨_, rfl⟩
  have hadd : width + s = 128 := by
    unfold MAX_BITS at hs
    omega
  have hsplit : 2^width * 2^s = 2^128 := by rw [← pow_add, hadd]
  have hhalf : 2^(width - 1) * 2^s = 2^127 := by rw [← pow_add]; congr 1; omega
  have hpos : 0 < 2^s := by positivity
  have hlt : v * 2^s < 2^128 := by
    rw [← hsplit]
    exact Nat.mul_lt_mul_of_pos_right hv hpos
  have hshl : shiftLeft v s = v * 2^s := by
    unfold shiftLeft
    rw [Nat.shiftLeft_eq, Nat.mod_eq_of_lt hlt]
  have hiff : v * 2^s < 2^127 ↔ v < 2^(width - 1) := by
    rw [← hhalf]
    exact Nat.mul_lt_mul_right hpos
  unfold signed signedValue toI128
  rw [hs, hshl, Int.shiftRight_eq_div_pow]
  have hpos' : ((2^s : ℕ) : ℤ) ≠ 0 := by positivity
  split_ifs with h₁ h₂ h₂
  · rw [Nat.cast_mul, Int.mul_ediv_cancel _ hpos']
  · exact absurd (hiff.mp h₁) h₂
  · exact absurd (hiff.mpr h₂) h₁
  · have hcast : ((v * 2^s : ℕ) : ℤ) - 2^128 = ((v : ℤ) - 2^width) * (2^s : ℕ) := by
      have : ((2^128 : ℕ) : ℤ) = 2^width * (2^s : ℕ) := by exact_mod_cast hsplit.symm
      push_cast at this ⊢
      rw [this]
      ring
    rw [hcast, Int.mul_ediv_cancel _ hpos']

theorem signBit_eq (width : ℕ) : signBit width = 2^(width - 1) := Nat.one_shiftLeft _

theorem signedLimits_eq (hw : width ≤ 128) : signedLimits width = (-2^(width - 1), 2^(width - 1) - 1) := by
  unfold signedLimits MAX_BITS
  split_ifs with h
  · rw [show width = 128 by omega]
  · rw [Nat.one_shiftLeft]
    push_cast
    rfl

/-- A word of a signed number, cut to a width, is the number modulo the width. -/
theorem fromI128_mod (hw : width ≤ 128) (z : ℤ) : ((fromI128 z % 2^width : ℕ) : ℤ) = z % 2^width := by
  have hnonneg : 0 ≤ z % 2^128 := Int.emod_nonneg _ (by norm_num)
  have hdvd : (2^width : ℤ) ∣ 2^128 := pow_dvd_pow 2 hw
  unfold fromI128
  rw [Int.natCast_mod, Int.toNat_of_nonneg hnonneg, Nat.cast_pow, Nat.cast_ofNat,
    Int.emod_emod_of_dvd _ hdvd]

/-- The pattern of a signed number that fits the width. -/
theorem fromI128_mod_of_fits (h : 1 ≤ width) (hw : width ≤ 128) {z : ℤ}
    (hz : -2^(width - 1) ≤ z ∧ z < 2^(width - 1)) :
    ((fromI128 z % 2^width : ℕ) : ℤ) = if 0 ≤ z then z else z + 2^width := by
  have hpow := two_pow_pred h
  have hcast : (2^width : ℤ) = 2 * 2^(width - 1) := by exact_mod_cast hpow
  rw [fromI128_mod hw]
  split_ifs with hneg
  · exact Int.emod_eq_of_lt hneg (by omega)
  · rw [← Int.add_emod_right]
    exact Int.emod_eq_of_lt (by omega) (by omega)

namespace Range

variable {r : Range} {v width : ℕ}

/-! ## Signed bounds -/

theorem WellFormed.ends_lt (hr : r.WellFormed) {p : ℕ × ℕ} (hp : p ∈ r.pairs) :
    p.1 < 2^r.width ∧ p.2 < 2^r.width := by
  have hp' := hr.inside p hp
  have := (le_mask_iff hr.width_le).mp hp'.2
  omega

/-- The least signed value is no greater than the reading of any pattern in the range. -/
theorem signedLeast_spec (hr : r.WellFormed) {first : ℕ × ℕ} (hhead : r.pairs.head? = some first) (hv : v ∈ r) :
    r.signedLeast first ≤ signedValue r.width v ∧ -2^(r.width - 1) ≤ r.signedLeast first := by
  have h₁ := hr.one_le_width
  have hw := hr.width_le
  have hcov := (hr.mem.mp hv).2
  have hpow := two_pow_pred h₁
  unfold signedLeast
  rw [signBit_eq]
  cases hfind : r.pairs.find? (fun p => decide (2^(r.width - 1) ≤ p.2)) with
  | some p =>
    have hp := hr.ends_lt (List.mem_of_find?_eq_some hfind)
    have hmax : max p.1 (2^(r.width - 1)) < 2^r.width := by omega
    simp only
    rw [signed_eq h₁ hw hmax]
    refine ⟨?_, (signedValue_bounds h₁ hmax).1⟩
    by_cases hside : 2^(r.width - 1) ≤ v
    · have hlo := hr.separated.find_le hr.inside hfind hcov hside
      rcases Nat.eq_or_lt_of_le (Nat.max_le.mpr ⟨hlo, hside⟩) with heq | hlt'
      · rw [heq]
      · exact (signedValue_strictMono hlt' (Or.inl (Nat.le_max_right _ _))).le
    · -- The bound is negative and the value is not.
      have hneg := signedValue_neg hmax (Nat.le_max_right _ _)
      have hpos := signedValue_nonneg (Nat.lt_of_not_le hside)
      omega
  | none =>
    have hp := hr.ends_lt (List.mem_of_head? hhead)
    simp only
    rw [signed_eq h₁ hw hp.1]
    refine ⟨?_, (signedValue_bounds h₁ hp.1).1⟩
    have hside : v < 2^(r.width - 1) := by
      obtain ⟨q, hq, hqv⟩ := hcov
      have := List.find?_eq_none.mp hfind q hq
      simp only [decide_eq_true_eq] at this
      omega
    have hlo := hr.separated.head_le hr.inside hhead hcov
    rcases Nat.eq_or_lt_of_le hlo with heq | hlt'
    · rw [heq]
    · exact (signedValue_strictMono hlt' (Or.inr hside)).le

/-- The greatest signed value is no less than the reading of any pattern in the range. -/
theorem signedGreatest_spec (hr : r.WellFormed) {last : ℕ × ℕ} (hlast : r.pairs.getLast? = some last) (hv : v ∈ r) :
    signedValue r.width v ≤ r.signedGreatest last ∧ r.signedGreatest last < 2^(r.width - 1) := by
  have h₁ := hr.one_le_width
  have hw := hr.width_le
  have hcov := (hr.mem.mp hv).2
  have hpow := two_pow_pred h₁
  have hhalf : 0 < 2^(r.width - 1) := by positivity
  unfold signedGreatest
  rw [signBit_eq]
  cases hfind : r.pairs.reverse.find? (fun p => decide (p.1 < 2^(r.width - 1))) with
  | some p =>
    have hp := hr.ends_lt (List.mem_reverse.mp (List.mem_of_find?_eq_some hfind))
    have hmin : min p.2 (2^(r.width - 1) - 1) < 2^r.width := by omega
    simp only
    rw [signed_eq h₁ hw hmin]
    refine ⟨?_, (signedValue_bounds h₁ hmin).2⟩
    by_cases hside : v < 2^(r.width - 1)
    · have hhi := hr.separated.le_find_reverse hr.inside hfind hcov hside
      have hle : v ≤ min p.2 (2^(r.width - 1) - 1) := by omega
      rcases Nat.eq_or_lt_of_le hle with heq | hlt'
      · rw [← heq]
      · exact (signedValue_strictMono hlt' (Or.inr (by omega))).le
    · have hneg := signedValue_neg (lt_of_mem hv) (Nat.le_of_not_lt hside)
      have hpos := signedValue_nonneg (show min p.2 (2^(r.width - 1) - 1) < 2^(r.width - 1) by omega)
      omega
  | none =>
    have hp := hr.ends_lt (List.mem_of_getLast? hlast)
    simp only
    rw [signed_eq h₁ hw hp.2]
    refine ⟨?_, (signedValue_bounds h₁ hp.2).2⟩
    have hside : 2^(r.width - 1) ≤ v := by
      obtain ⟨q, hq, hqv⟩ := hcov
      have := List.find?_eq_none.mp hfind q (List.mem_reverse.mpr hq)
      simp only [decide_eq_true_eq] at this
      omega
    have hhi := hr.separated.le_getLast hr.inside hlast hcov
    rcases Nat.eq_or_lt_of_le hhi with heq | hlt'
    · rw [heq]
    · exact (signedValue_strictMono hlt' (Or.inl hside)).le

/-- The signed bounds are there for a range with a value, bound it and fit the width. -/
theorem signedBounds_spec (hr : r.WellFormed) (hv : v ∈ r) :
    ∃ lo hi, r.signedBounds = some (lo, hi) ∧ lo ≤ signedValue r.width v ∧
      signedValue r.width v ≤ hi ∧ -2^(r.width - 1) ≤ lo ∧ hi < 2^(r.width - 1) := by
  have hne := hr.pairs_ne_nil hv
  have hhead := List.head?_eq_some_head hne
  have hlast := List.getLast?_eq_some_getLast hne
  obtain ⟨hlo, hlo'⟩ := signedLeast_spec hr hhead hv
  obtain ⟨hhi, hhi'⟩ := signedGreatest_spec hr hlast hv
  refine ⟨_, _, ?_, hlo, hhi, hlo', hhi'⟩
  simp [signedBounds, hhead, hlast]

/-! ## Signed intervals -/

@[simp]
theorem signedBetween_width (lo hi : ℤ) (width : ℕ) : (signedBetween lo hi width).width = clamp width := by
  unfold signedBetween
  dsimp only
  split_ifs <;> simp

theorem signedBetween_wellFormed (lo hi : ℤ) (width : ℕ) : (signedBetween lo hi width).WellFormed := by
  unfold signedBetween
  dsimp only
  split_ifs
  · exact empty_wellFormed _
  · exact between_wellFormed _ _ _

/-- The bounds are cut to the width before anything else. -/
theorem between_mod (lo hi : ℕ) (h : 1 ≤ width) (hw : width ≤ 128) :
    between lo hi width = between (lo % 2^width) (hi % 2^width) width := by
  unfold between
  dsimp only
  rw [clamp_of_bounds h hw, and_mask hw, and_mask hw, and_mask hw, and_mask hw, Nat.mod_mod,
    Nat.mod_mod]

/-- Everything that reads between the two bounds. -/
theorem mem_signedBetween {lo hi : ℤ} (h : 1 ≤ width) (hw : width ≤ 128)
    (hv : v < 2^width) (hlo : lo ≤ signedValue width v) (hhi : signedValue width v ≤ hi) :
    v ∈ signedBetween lo hi width := by
  have hbounds := signedValue_bounds h hv
  have hpow := two_pow_pred h
  have hclamp := clamp_of_bounds h hw
  have hvmask := (le_mask_iff hw).mpr hv
  unfold signedBetween
  dsimp only
  rw [hclamp, signedLimits_eq hw]
  simp only
  rw [if_neg (by omega), between_mod _ _ h hw]
  generalize hl : max lo (-2^(width - 1)) = l
  generalize hh : min hi (2^(width - 1) - 1) = u
  have hlfits : -2^(width - 1) ≤ l ∧ l < 2^(width - 1) := by omega
  have hufits : -2^(width - 1) ≤ u ∧ u < 2^(width - 1) := by omega
  have hl' := fromI128_mod_of_fits h hw hlfits
  have hu' := fromI128_mod_of_fits h hw hufits
  have hlmask := (le_mask_iff hw).mpr (Nat.mod_lt (fromI128 l) (show 0 < 2^width by positivity))
  have humask := (le_mask_iff hw).mpr (Nat.mod_lt (fromI128 u) (show 0 < 2^width by positivity))
  generalize fromI128 l % 2^width = lo' at *
  generalize fromI128 u % 2^width = hi' at *
  have hcast : ((2^width : ℕ) : ℤ) = 2 * 2^(width - 1) := by exact_mod_cast hpow
  have hhalf : ((2^(width - 1) : ℕ) : ℤ) = 2^(width - 1) := by push_cast; rfl
  have hvalue : signedValue width v = if v < 2^(width - 1) then (v : ℤ) else v - (2^width : ℕ) := by
    unfold signedValue
    push_cast
    rfl
  push_cast at hcast hvalue
  rw [← hclamp] at hlmask humask hvmask
  -- The two ends have one sign and the interval is one run, or it wraps round at zero.
  by_cases hneg : l < 0
  · by_cases hneg' : u < 0
    · rw [if_neg (by omega)] at hl' hu'
      apply mem_between _ _ humask <;> split_ifs at hvalue <;> omega
    · rw [if_neg (by omega)] at hl'
      rw [if_pos (by omega)] at hu'
      apply mem_between_wrapped hlmask (by omega)
      split_ifs at hvalue <;> omega
  · rw [if_pos (by omega)] at hl' hu'
    apply mem_between _ _ humask <;> split_ifs at hvalue <;> omega

end Range

end Rucc.Opt
