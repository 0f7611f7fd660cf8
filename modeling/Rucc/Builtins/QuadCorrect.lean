import Rucc.Builtins.QuadRounding

/-!
# Quad arithmetic is the arithmetic of IEEE 754

The operations of `Rucc.Builtins.Quad` are the ones of the format on every pair of patterns: no exponent
overflows its word, no shift reaches its width, and no `Wide` loses a bit. With what the library says of
the format's operations, each result is the pattern nearest the exact one, and what IEEE 754 says
about the patterns that are no numbers, the infinities and the zeros.

The conversions round a word that is an integer to the nearest pattern and bring back the integer part of a
pattern, wherever it fits the type.
-/

namespace Rucc.Builtins.Quad

open Checked Words Interchange

variable {left right bits widest w : ℕ}

/-! ## The operations -/

/-- The sum of two finite patterns overflows nothing. -/
theorem addParts_eq {larger smaller : ℕ} (hlarge : larger < 2^128) (hl : left < 2^128) (hr : right < 2^128)
    (hle : quad.unsigned smaller ≤ quad.unsigned larger)
    (hmixed : quad.mixed left right = quad.mixed larger smaller) :
    addParts larger smaller left right = some (quad.sum TOO_FAR larger smaller) := by
  obtain ⟨hscale, hsig⟩ := quad.lines_up hle
  have hsl := scale_bounds larger
  have hss := scale_bounds smaller
  have hbl := @size_le larger
  have hbs := significand_lt' smaller
  have hnl := significand_lt' larger
  have hopp : (left ^^^ right) &&& SIGN ≠ 0 ↔
      ¬(quad.Negative larger ↔ quad.Negative smaller) := by
    rw [mixed_eq hl hr, hmixed]
    exact quad.mixed_ne_zero
  unfold addParts sum
  rw [parts_eq, parts_eq, signOf_eq hlarge]
  simp only [Option.bind_eq_bind, Option.bind_some]
  rw [checked_of_fits (by unfold Fits; omega), Option.bind_some]
  by_cases hfar : TOO_FAR < quad.scale larger - quad.scale smaller
  · rw [if_pos hfar, if_pos hfar]
  unfold TOO_FAR at hfar ⊢
  rw [if_neg hfar, if_neg hfar, asU32_eq (by omega) (by omega), Wide.ofNat_narrow (by omega),
    Wide.ofNat_narrow (by omega), Wide.shiftedUp_ofNat (by omega), Option.bind_some]
  have hwide : quad.significand larger * 2^(quad.scale larger - quad.scale smaller).toNat <
      2^241 := mul_pow_lt (by omega)
  generalize quad.significand larger * 2^(quad.scale larger - quad.scale smaller).toNat =
    aligned at *
  have hsum : ∀ n ≤ aligned + quad.significand smaller, n.size < 256 := fun n hn =>
    Nat.lt_of_le_of_lt (Nat.size_le.mpr (by omega : n < 2^242)) (by norm_num)
  by_cases hsame : quad.Negative larger ↔ quad.Negative smaller
  · rw [if_neg (not_not.mpr hsame ∘ hopp.mp), if_pos hsame, Wide.plus_ofNat (by omega),
      Option.bind_some]
    exact roundFrom_eq (quad.signOf_eq larger) (hsum _ le_rfl) (by omega) (by omega)
  · rw [if_pos (hopp.mpr hsame), if_neg hsame]
    by_cases heq : aligned = quad.significand smaller
    · rw [if_pos (congrArg _ heq), if_pos heq]
    · rw [if_neg (mt Wide.ofNat_injective heq), if_neg heq, Wide.minus_ofNat hsig, Option.bind_some]
      exact roundFrom_eq (quad.signOf_eq larger) (hsum _ (by omega)) (by omega) (by omega)

/-- The sum is the format's. -/
theorem add_eq' (hl : left < 2^128) (hr : right < 2^128) :
    Quad.add left right = some (quad.add TOO_FAR left right) := by
  have hopp : (left ^^^ right) &&& SIGN ≠ 0 ↔
      ¬(quad.Negative left ↔ quad.Negative right) := by
    rw [mixed_eq hl hr]
    exact quad.mixed_ne_zero
  have hboth : left &&& right &&& SIGN =
      if quad.Negative left ∧ quad.Negative right then quad.sign else 0 :=
    quad.and_and_sign (pattern_iff.mpr hl) (pattern_iff.mpr hr)
  unfold Quad.add Interchange.add
  simp only [isNan_eq, isInfinite_eq, isZero_eq hl, isZero_eq hr, decide_eq_true_eq, hopp,
    unsigned_eq hl, unsigned_eq hr, hboth, empty_eq]
  by_cases hnl : quad.NaN left
  · rw [if_pos hnl, if_pos hnl]
    rfl
  rw [if_neg hnl, if_neg hnl]
  by_cases hnr : quad.NaN right
  · rw [if_pos hnr, if_pos hnr]
    rfl
  rw [if_neg hnr, if_neg hnr]
  by_cases hil : quad.Infinite left
  · rw [if_pos hil, if_pos hil]
    split <;> rfl
  rw [if_neg hil, if_neg hil]
  by_cases hir : quad.Infinite right
  · rw [if_pos hir, if_pos hir]
  rw [if_neg hir, if_neg hir]
  by_cases hzero : quad.significand left = 0 ∧ quad.significand right = 0
  · rw [if_pos hzero, if_pos hzero]
  rw [if_neg hzero, if_neg hzero]
  by_cases hzl : quad.significand left = 0
  · rw [if_pos hzl, if_pos hzl]
  rw [if_neg hzl, if_neg hzl]
  by_cases hzr : quad.significand right = 0
  · rw [if_pos hzr, if_pos hzr]
  rw [if_neg hzr, if_neg hzr]
  split_ifs with hle
  · exact addParts_eq hl hl hr hle rfl
  · exact addParts_eq hr hl hr (not_le.mp hle).le (quad.mixed_comm left right)

/-- The right operand of a subtraction is the format's. -/
theorem negated_eq (bits : ℕ) : negated bits = if quad.NaN bits then bits else bits ^^^ quad.sign := by
  unfold negated
  simp only [isNan_eq, decide_eq_true_eq, sign_eq]

/-- The product is the format's. -/
theorem multiply_eq (hl : left < 2^128) (hr : right < 2^128) :
    Quad.multiply left right = some (quad.multiply left right) := by
  have hinf := @infinity_eq (quad.mixed left right) (quad.mixed_eq left right)
  unfold Quad.multiply Interchange.multiply
  simp only [isNan_eq, isInfinite_eq, isZero_eq hl, isZero_eq hr, decide_eq_true_eq,
    mixed_eq hl hr, hinf, empty_eq]
  split_ifs with hnl hnr hi hz hz
  all_goals try rfl
  have hsl := scale_bounds left
  have hsr := scale_bounds right
  have hwl := significand_lt' left
  have hwr := significand_lt' right
  have hprod : quad.significand left * quad.significand right < 2^226 := by
    calc quad.significand left * quad.significand right < 2^113 * 2^113 :=
          Nat.mul_lt_mul'' hwl hwr
      _ = 2^226 := by norm_num
  rw [parts_eq, parts_eq]
  simp only [Option.bind_eq_bind, Option.bind_some]
  rw [wideProduct_eq (by omega) (by omega), Option.bind_some, checked_of_fits (by unfold Fits; omega),
    Option.bind_some]
  exact roundFrom_eq (quad.mixed_eq left right) (Nat.lt_of_le_of_lt (Nat.size_le.mpr hprod)
    (by norm_num)) (by omega) (by omega)

/-- The quotient is the format's. -/
theorem divide_eq (hl : left < 2^128) (hr : right < 2^128) :
    Quad.divide left right = some (quad.divide QUOTIENT_BITS left right) := by
  have hinf := @infinity_eq (quad.mixed left right) (quad.mixed_eq left right)
  unfold Quad.divide Interchange.divide
  simp only [isNan_eq, isInfinite_eq, isZero_eq hl, isZero_eq hr, decide_eq_true_eq,
    mixed_eq hl hr, hinf, empty_eq]
  by_cases hnl : quad.NaN left
  · rw [if_pos hnl, if_pos hnl]
    rfl
  rw [if_neg hnl, if_neg hnl]
  by_cases hnr : quad.NaN right
  · rw [if_pos hnr, if_pos hnr]
    rfl
  rw [if_neg hnr, if_neg hnr]
  by_cases hil : quad.Infinite left
  · rw [if_pos hil, if_pos hil]
    split <;> rfl
  rw [if_neg hil, if_neg hil]
  by_cases hir : quad.Infinite right
  · rw [if_pos hir, if_pos hir]
  rw [if_neg hir, if_neg hir]
  by_cases hzr : quad.significand right = 0
  · rw [if_pos hzr, if_pos hzr]
    split <;> rfl
  rw [if_neg hzr, if_neg hzr]
  by_cases hzl : quad.significand left = 0
  · rw [if_pos hzl, if_pos hzl]
  rw [if_neg hzl, if_neg hzl]
  have hsl := scale_bounds left
  have hsr := scale_bounds right
  have hwl := @size_le left
  have hwr := @size_le right
  have hlt := significand_lt' left
  have hlt' := significand_lt' right
  have hwl0 : 0 < (quad.significand left).size := Nat.size_pos.mpr (Nat.pos_of_ne_zero hzl)
  rw [parts_eq, parts_eq]
  simp only [Option.bind_eq_bind, Option.bind_some]
  rw [add_eq (by unfold leadingZeros QUOTIENT_BITS; omega), Option.bind_some,
    checkedSub_of_le (by unfold leadingZeros QUOTIENT_BITS; omega)]
  simp only [Option.bind_some]
  have hup : QUOTIENT_BITS + leadingZeros 128 (quad.significand left) -
      leadingZeros 128 (quad.significand right) =
      QUOTIENT_BITS + (quad.significand right).size - (quad.significand left).size := by
    unfold leadingZeros QUOTIENT_BITS
    omega
  rw [hup]
  unfold quotient
  dsimp only
  have hbound : (quad.significand left).size +
        (QUOTIENT_BITS + (quad.significand right).size - (quad.significand left).size) ≤ 241 := by
    unfold QUOTIENT_BITS
    omega
  generalize QUOTIENT_BITS + (quad.significand right).size - (quad.significand left).size =
    up at *
  have hdividend : quad.significand left * 2^up < 2^241 := mul_pow_lt hbound
  rw [Wide.ofNat_narrow (by omega), Wide.shiftedUp_ofNat (by omega), Option.bind_some,
    divideWide_eq (by omega) (Nat.pos_of_ne_zero hzr) (by omega), Option.bind_some,
    checked_of_fits (by unfold Fits; omega)]
  simp only [Option.bind_some]
  rw [checked_of_fits (by unfold Fits; omega), Option.bind_some]
  refine roundFrom_eq (quad.mixed_eq left right) (Nat.lt_of_le_of_lt (Nat.size_le.mpr ?_)
    (by norm_num : 241 < 256)) (by omega) (by omega)
  exact (Nat.div_le_self _ _).trans_lt hdividend

/-! ## Order -/

/-- The sign of a pattern, as the comparisons and the conversions test it. -/
theorem sign_ne_zero (h : bits < 2^128) : bits &&& SIGN ≠ 0 ↔ quad.Negative bits := by
  rw [signOf_eq h, signOf]
  split_ifs with hn
  · exact iff_of_true quad.sign_pos.ne' hn
  · exact iff_of_false (not_not.mpr rfl) hn

/-- The comparison of two magnitudes overflows nothing. -/
theorem orderParts_eq (hl : quad.significand left ≠ 0) (hr : quad.significand right ≠ 0) :
    orderParts ⟨quad.significand left, quad.scale left⟩ ⟨quad.significand right, quad.scale right⟩ =
      some ((compare (quad.scale left + ((quad.significand left).size - 1))
        (quad.scale right + ((quad.significand right).size - 1))).then
        (compare (quad.significand left * 2^(128 - (quad.significand left).size))
          (quad.significand right * 2^(128 - (quad.significand right).size)))) := by
  have hsl := scale_bounds left
  have hsr := scale_bounds right
  have hwl := @size_le left
  have hwr := @size_le right
  have hl0 : 0 < (quad.significand left).size := Nat.size_pos.mpr (Nat.pos_of_ne_zero hl)
  have hr0 : 0 < (quad.significand right).size := Nat.size_pos.mpr (Nat.pos_of_ne_zero hr)
  have hplace : ∀ m : ℕ, m.size ≤ 113 → (127 : ℤ) - (leadingZeros 128 m : ℕ) = m.size - 1 := by
    intro m hm
    unfold leadingZeros
    omega
  unfold orderParts
  dsimp only
  rw [hplace _ hwl, hplace _ hwr]
  unfold leadingZeros
  rw [shl_eq (by omega) (mul_pow_lt (by omega)), shl_eq (by omega) (mul_pow_lt (by omega))]
  simp only [Option.bind_eq_bind, Option.bind_some]
  rw [checked_of_fits (by unfold Fits; omega), Option.bind_some,
    checked_of_fits (by unfold Fits; omega), Option.bind_some,
    checked_of_fits (by unfold Fits; omega), Option.bind_some,
    checked_of_fits (by unfold Fits; omega), Option.bind_some]

/-- The order of two patterns is the format's. -/
theorem order_eq' (hl : left < 2^128) (hr : right < 2^128) :
    Quad.order left right = some (quad.order 128 left right) := by
  unfold Quad.order Interchange.order
  rw [parts_eq, parts_eq]
  simp only [Option.bind_eq_bind, Option.bind_some, sign_ne_zero hl, sign_ne_zero hr]
  by_cases hzl : quad.significand left = 0
  · simp only [hzl, true_and, if_true]
    split_ifs <;> rfl
  by_cases hzr : quad.significand right = 0
  · simp only [hzl, hzr, false_and, if_false, if_true]
  · simp only [hzl, hzr, false_and, if_false, orderParts_eq hzl hzr, Option.bind_some]
    split_ifs <;> rfl

/-! ## Integers -/

/-- The quad that an integer becomes is the nearest one. -/
theorem quadFromInteger_spec {z : ℤ} (hlo : -2^127 ≤ z) (hhi : z < 2^128) :
    ∃ bits, quadFromInteger (if z < 0 then SIGN else 0) z.natAbs = some bits ∧
      quad.RoundsTo z bits := by
  have hsize : z.natAbs < 2^128 := by omega
  have hsign : (if z < 0 then SIGN else 0) = 0 ∨ (if z < 0 then SIGN else 0) = quad.sign := by
    split_ifs
    · exact Or.inr rfl
    · exact Or.inl rfl
  have hround := @roundFrom_eq _ z.natAbs 0 false hsign
    (Nat.lt_of_le_of_lt (Nat.size_le.mpr hsize) (by norm_num)) (by norm_num) (by norm_num)
  unfold quadFromInteger
  rw [Wide.ofNat_narrow hsize, hround]
  refine ⟨_, rfl, ?_⟩
  by_cases h0 : z = 0
  · rw [h0]
    exact quad.roundsTo_zero
  · refine quad.round_spec hsign (Int.natAbs_ne_zero.mpr h0) (Stands.exact _) (by simp) ?_ ?_
    · rw [zpow_zero, mul_one, Nat.cast_natAbs, Int.cast_abs]
    · rw [Int.cast_lt_zero]
      split_ifs with hz
      · exact iff_of_true rfl hz
      · exact iff_of_false quad.sign_pos.ne hz

/-- A number's size is one more than its logarithm. -/
theorem size_eq_log2 {m : ℕ} (h : m ≠ 0) : m.size = m.log2 + 1 :=
  le_antisymm (Nat.size_le.mpr Nat.lt_log2_self) (Nat.lt_size.mpr (Nat.log2_self_le h))

/-- The integer part is short of a power of two exactly when the leading bit is. -/
theorem integerPart_lt (h0 : quad.significand bits ≠ 0) : quad.integerPart bits < 2^(widest + 1) ↔
      quad.scale bits + (quad.significand bits).log2 ≤ widest := by
  obtain ⟨hlo, hhi⟩ := quad.magnitude_between h0
  have hfloor := quad.floor_magnitude bits
  have hcast : quad.integerPart bits < 2^(widest + 1) ↔
      quad.magnitude bits < (2 : ℚ)^((widest : ℤ) + 1) := by
    rw [← Nat.cast_add_one, zpow_natCast, ← Nat.cast_lt (α := ℤ), ← hfloor, Int.floor_lt]
    norm_cast
  rw [size_eq_log2 h0] at hlo hhi
  push_cast at hlo hhi
  rw [add_sub_cancel_right] at hlo hhi
  rw [hcast]
  constructor
  · intro hlt
    by_contra! hout
    have hpow : (2 : ℚ)^((widest : ℤ) + 1) ≤ 2^(quad.scale bits + (quad.significand bits).log2) :=
      zpow_le_zpow_right₀ (by norm_num) (by omega)
    exact absurd (hpow.trans hlo) (not_le.mpr hlt)
  · intro hle
    exact hhi.trans_le (zpow_le_zpow_right₀ (by norm_num) (by omega))

/-- The integer side of a pattern that is a number and no further out than the type. -/
theorem integerFromQuad_eq (h : bits < 2^128) (hw : widest ≤ 127) : integerFromQuad bits widest =
      some (if quad.Finite bits ∧ quad.integerPart bits < 2^(widest + 1) then
        some (quad.signOf bits, quad.integerPart bits) else none) := by
  have hs := scale_bounds bits
  have hlt := significand_lt' bits
  unfold integerFromQuad
  rw [stored_eq, ← top_eq, parts_eq, signOf_eq h]
  by_cases hfin : quad.Finite bits
  swap
  · rw [if_pos (not_not.mp hfin), if_neg fun hboth => hfin hboth.1]
  rw [if_neg hfin]
  simp only [Option.bind_eq_bind, Option.bind_some]
  by_cases h0 : quad.significand bits = 0
  · have hpart : quad.integerPart bits = 0 := by
      unfold integerPart
      rw [h0, zero_mul, Nat.zero_div, ite_self]
    rw [if_pos h0, hpart, if_pos ⟨hfin, by positivity⟩]
  have hlog : (quad.significand bits).log2 < 113 := (Nat.log2_lt h0).mpr hlt
  rw [if_neg h0, checked_of_fits (by unfold Fits; omega), Option.bind_some]
  by_cases hout : quad.scale bits + (quad.significand bits).log2 ≤ widest
  swap
  · rw [if_pos (not_le.mp hout), if_neg fun hboth => hout ((integerPart_lt h0).mp hboth.2)]
  have hpart := (integerPart_lt h0).mpr hout
  have hsome : (if quad.Finite bits ∧ quad.integerPart bits < 2^(widest + 1) then
      some (quad.signOf bits, quad.integerPart bits) else none) =
      some (quad.signOf bits, quad.integerPart bits) := if_pos ⟨hfin, hpart⟩
  rw [if_neg (not_lt.mpr hout), hsome]
  have hfits : quad.integerPart bits < 2^128 :=
    hpart.trans_le (Nat.pow_le_pow_right (by norm_num) (by omega))
  unfold integerPart at hfits ⊢
  by_cases hscale : 0 ≤ quad.scale bits
  · rw [if_pos hscale] at hfits ⊢
    have hcount : (quad.scale bits).toNat < 128 := by omega
    rw [if_pos hscale, shl_eq hcount hfits, Option.bind_some]
  · rw [if_neg hscale, if_neg hscale, checked_of_fits (by unfold Fits; omega), Option.bind_some]
    by_cases hdeep : 128 ≤ -quad.scale bits
    · have hzero : quad.significand bits / 2^(-quad.scale bits).toNat = 0 :=
        Nat.div_eq_of_lt (hlt.trans_le (Nat.pow_le_pow_right (by norm_num) (by omega)))
      rw [if_pos hdeep, hzero]
    · rw [if_neg hdeep, shr_eq (by omega), Option.bind_some]

/-- The value without its fraction is in a signed type exactly when its magnitude is, on its side. -/
theorem truncate_eq (h : bits < 2^128) (hw0 : 0 < w) (hw : w ≤ 128) : truncate bits (2^(w - 1)) =
      some (if quad.Finite bits ∧ -2^(w - 1) ≤ truncated (quad.value bits) ∧
          truncated (quad.value bits) < 2^(w - 1) then
        some (truncated (quad.value bits)) else none) := by
  have hpos : 0 < 2^(w - 1) := by positivity
  have hle : 2^(w - 1) ≤ 2^127 := Nat.pow_le_pow_right (by norm_num) (by omega)
  have hcast : (2 : ℤ)^(w - 1) = (2^(w - 1) : ℕ) := by norm_cast
  have hvalue := quad.truncated_value bits
  unfold truncate
  rw [if_neg hpos.ne', Nat.log2_two_pow, integerFromQuad_eq h (by omega), pow_succ, hcast]
  simp only [Option.bind_eq_bind, Option.bind_some]
  generalize 2^(w - 1) = bound at *
  generalize quad.integerPart bits = n at *
  generalize truncated (quad.value bits) = t at *
  by_cases hfin : quad.Finite bits ∧ n < bound * 2
  · rw [if_pos hfin]
    have hneg : quad.signOf bits ≠ 0 ↔ quad.Negative bits := by
      rw [← signOf_eq h]
      exact sign_ne_zero h
    simp only [hneg, hfin.1, true_and]
    by_cases hn : quad.Negative bits
    · rw [if_pos hn] at hvalue
      by_cases h0 : n = 0
      · rw [h0, Nat.cast_zero, neg_zero] at hvalue
        simp only [h0, hvalue, ne_eq, not_true, and_false, if_false, Nat.not_lt_zero]
        rw [if_pos (by omega)]
        rfl
      · simp only [hn, h0, ne_eq, not_false_eq_true, and_self, if_true]
        by_cases hout : bound < n
        · rw [if_pos hout, if_neg (by omega)]
        · rw [if_neg hout, if_pos (by omega), U128.toI128_neg (by omega), hvalue]
    · rw [if_neg hn] at hvalue
      simp only [hn, false_and, if_false]
      by_cases hout : bound - 1 < n
      · rw [if_pos hout, if_neg (by omega)]
      · rw [if_neg hout, if_pos (by omega), U128.toI128_of_lt (by omega), hvalue]
  · rw [if_neg hfin, if_neg]
    rintro ⟨hf, hlo, hhi⟩
    split_ifs at hvalue <;> exact hfin ⟨hf, by omega⟩

theorem truncateUnsigned_eq (h : bits < 2^128) (hw0 : 0 < w) (hw : w ≤ 128) : truncateUnsigned bits (2^w - 1) =
      some (if quad.Finite bits ∧ 0 ≤ truncated (quad.value bits) ∧
          truncated (quad.value bits) < 2^w then
        some (truncated (quad.value bits)).toNat else none) := by
  have hlog : (2^w - 1).log2 = w - 1 := by
    have htwo : (2 : ℕ)^w = 2^(w - 1) * 2 := by
      rw [← pow_succ, Nat.sub_add_cancel hw0]
    have hpos : 0 < 2^(w - 1) := by positivity
    refine le_antisymm ?_ ((Nat.le_log2 (by omega)).mpr (by omega))
    have := (Nat.log2_lt (by omega : 2^w - 1 ≠ 0)).mpr (by omega : 2^w - 1 < 2^w)
    omega
  have hone : 1 < 2^w := Nat.one_lt_two_pow hw0.ne'
  have hcast : (2 : ℤ)^w = (2^w : ℕ) := by norm_cast
  have hvalue := quad.truncated_value bits
  unfold truncateUnsigned
  rw [if_neg (by omega), hlog, integerFromQuad_eq h (by omega), Nat.sub_add_cancel hw0, hcast]
  simp only [Option.bind_eq_bind, Option.bind_some]
  generalize 2^w = size at *
  generalize quad.integerPart bits = n at *
  generalize truncated (quad.value bits) = t at *
  by_cases hfin : quad.Finite bits ∧ n < size
  · rw [if_pos hfin]
    have hneg : quad.signOf bits ≠ 0 ↔ quad.Negative bits := by
      rw [← signOf_eq h]
      exact sign_ne_zero h
    simp only [hneg, hfin.1, true_and]
    by_cases hn : quad.Negative bits ∧ n ≠ 0
    · rw [if_pos hn.1] at hvalue
      rw [if_pos hn, if_neg (by omega)]
    · have ht : t = n := by
        split_ifs at hvalue with h1
        · have h0 : n = 0 := by tauto
          omega
        · exact hvalue
      rw [if_neg hn, if_neg (by omega), if_pos (by omega), ht, Int.toNat_natCast]
  · rw [if_neg hfin, if_neg]
    rintro ⟨hf, hlo, hhi⟩
    split_ifs at hvalue <;> exact hfin ⟨hf, by omega⟩

/-! ## The whole -/

/-- Quad arithmetic is that of IEEE 754 binary128, rounded to nearest with ties to even. On every pair of
patterns the sum, the difference, the product and the quotient are what the standard says; the order of two
patterns that are numbers is the order of what they stand for; an integer of up to 128 bits, with a sign or
without, becomes the nearest quad; and a quad becomes the integer on its side of the point exactly where
the type has it. Every result is there, so nothing overflows on the way. -/
theorem ieee_correct {left right : ℕ} (hl : left < 2^128) (hr : right < 2^128) :
    (∃ bits, Quad.add left right = some bits ∧ quad.Adds left right bits) ∧
    (∃ bits, Quad.add left (negated right) = some bits ∧ quad.Subtracts left right bits) ∧
    (∃ bits, Quad.multiply left right = some bits ∧ quad.Multiplies left right bits) ∧
    (∃ bits, Quad.divide left right = some bits ∧ quad.Divides left right bits) ∧
    (∃ ordering, Quad.order left right = some ordering ∧ (¬quad.NaN left → ¬quad.NaN right →
      ordering = cmp (quad.extended left) (quad.extended right))) ∧
    (∀ z : ℤ, -2^127 ≤ z → z < 2^128 →
      ∃ bits, quadFromInteger (if z < 0 then SIGN else 0) z.natAbs = some bits ∧
        quad.RoundsTo z bits) ∧
    (∀ w : ℕ, 0 < w → w ≤ 128 →
      truncate left (2^(w - 1)) =
        some (if quad.Finite left ∧ -2^(w - 1) ≤ truncated (quad.value left) ∧
            truncated (quad.value left) < 2^(w - 1) then
          some (truncated (quad.value left)) else none) ∧
      truncateUnsigned left (2^w - 1) =
        some (if quad.Finite left ∧ 0 ≤ truncated (quad.value left) ∧
            truncated (quad.value left) < 2^w then
          some (truncated (quad.value left)).toNat else none)) := by
  have hpl := pattern_iff.mpr hl
  have hpr := pattern_iff.mpr hr
  have hfar : (quad.fraction : ℤ) + 2 ≤ TOO_FAR := by decide
  have hbits : quad.fraction + 2 ≤ QUOTIENT_BITS := by decide
  have hneg : quad.Pattern (negated right) := by
    rw [negated_eq]
    split_ifs
    · exact hpr
    · exact (quad.flip_fields hpr).1
  refine ⟨⟨_, add_eq' hl hr, quad.add_spec hfar hpl hpr⟩,
    ⟨_, add_eq' hl (pattern_iff.mp hneg), ?_⟩, ⟨_, multiply_eq hl hr, quad.multiply_spec left right⟩,
    ⟨_, divide_eq hl hr, quad.divide_spec hbits left right⟩, ⟨_, order_eq' hl hr, ?_⟩,
    fun z hlo hhi => quadFromInteger_spec hlo hhi,
    fun w hw0 hw => ⟨truncate_eq hl hw0 hw, truncateUnsigned_eq hl hw0 hw⟩⟩
  · refine quad.subtracts_of_adds hpr ?_
    rw [← negated_eq]
    exact quad.add_spec hfar hpl hneg
  · intro hnl hnr
    have hwide : ∀ {bits : ℕ}, (quad.significand bits).size ≤ 128 := size_le.trans (by norm_num)
    rw [quad.cmp_extended hnl hnr]
    exact quad.order_eq hwide hwide

/-- The smallest subnormal against negative infinity. -/
theorem ieee_correct_subnormal :
    ∃ bits, Quad.add 1 (infinity SIGN) = some bits ∧ quad.Adds 1 (infinity SIGN) bits :=
  (ieee_correct (by norm_num) (by decide)).1

end Rucc.Builtins.Quad
