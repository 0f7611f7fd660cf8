import Rucc.Builtins.Float

/-!
# Single precision is correctly rounded

The functions of `Rucc.Builtins.Float` are the ones of the format with 23 bits of fraction and 8 of
exponent, and no word overflows on the way: a scale stays within a few hundred, an aligned significand
within 64 bits, and a dividend within the 64 bits it is made in.
-/

namespace Rucc.Builtins.Float

open Checked Words Interchange

variable {bits left right : ℕ} {low : ℤ}

theorem single_fraction_pos : 0 < 23 := by norm_num

theorem one_lt_single_exponent : 1 < 8 := by norm_num

/-- The format. -/
def single : Interchange := ⟨23, 8, single_fraction_pos, one_lt_single_exponent⟩

theorem fraction_eq : single.fraction = FRACTION := rfl

theorem bias_eq : single.bias = BIAS := by decide

theorem top_eq : single.top = TOP := by decide

theorem implicit_eq : single.implicit = IMPLICIT := by decide

theorem sign_eq : single.sign = SIGN := by decide

theorem smallest_eq : single.smallest = SMALLEST := by decide

/-- A pattern is a word of 32 bits. -/
theorem pattern_iff : single.Pattern bits ↔ bits < 2^32 := by
  unfold Pattern
  rw [sign_eq]
  rfl

/-! ## The fields -/

theorem stored_eq (bits : ℕ) : (bits >>> FRACTION) &&& TOP = single.stored bits := by
  rw [← top_eq]
  exact single.shift_and_top bits

theorem fractionOf_eq (bits : ℕ) : bits &&& FRACTION_MASK = single.fractionOf bits :=
  single.and_mask bits

theorem isNan_eq (bits : ℕ) : isNan bits = decide (single.NaN bits) := by
  unfold isNan NaN
  simp only [stored_eq, fractionOf_eq, top_eq]

theorem isInfinite_eq (bits : ℕ) : isInfinite bits = decide (single.Infinite bits) := by
  unfold isInfinite Interchange.Infinite
  simp only [stored_eq, fractionOf_eq, top_eq]

theorem signOf_eq (h : bits < 2^32) : bits &&& SIGN = single.signOf bits := by
  rw [← sign_eq]
  exact single.and_sign (pattern_iff.mpr h)

theorem mixed_eq (hl : left < 2^32) (hr : right < 2^32) : (left ^^^ right) &&& SIGN = single.mixed left right := by
  rw [← sign_eq]
  exact single.xor_and_sign (pattern_iff.mpr hl) (pattern_iff.mpr hr)

theorem unsigned_eq (h : bits < 2^32) : bits &&& complement SIGN = single.unsigned bits :=
  single.and_not_sign (pattern_iff.mpr h)

theorem isZero_eq (h : bits < 2^32) : isZero bits = decide (single.significand bits = 0) := by
  unfold isZero
  rw [unsigned_eq h, decide_eq_decide]
  exact single.unsigned_eq_zero

theorem infinity_eq {sign : ℕ} (h : sign = 0 ∨ sign = single.sign) :
    infinity sign = single.infinity sign := by
  unfold infinity Interchange.infinity
  rw [single.or_of_lt h (by decide)]
  rfl

/-- Taking a pattern apart overflows nothing. -/
theorem parts_eq (bits : ℕ) : parts bits = some ⟨single.significand bits, single.scale bits⟩ := by
  have hst := single.stored_le bits
  rw [top_eq, TOP] at hst
  unfold parts significand scale
  rw [stored_eq, fractionOf_eq, bias_eq, fraction_eq, smallest_eq]
  dsimp only
  split_ifs with h0
  · rfl
  · rw [checked_of_fits (by unfold Fits BIAS; omega)]
    simp only [Option.bind_eq_bind, Option.bind_some]
    rw [checked_of_fits (by unfold Fits BIAS FRACTION; omega), Option.bind_some, ← implicit_eq,
      single.or_implicit (single.fractionOf_lt bits)]

/-! ## The rounding -/

/-- The integer that is kept, where nothing is moved past the top of the word. -/
theorem rounded_eq {m : ℕ} {scale : ℤ} {above : Bool} (hm : m.size < 128)
    (hdrop : Fits 32 (scale - low)) (hdrop' : Fits 32 (low - scale))
    (hup : low ≤ scale → m.size + (scale - low).toNat ≤ 24) :
    rounded m (low - scale) above = some (kept m scale low above) := by
  unfold Fits at hdrop hdrop'
  unfold rounded kept
  by_cases hle : low ≤ scale
  · have hsize := hup hle
    rw [if_pos (by omega), if_pos hle, neg_sub, checked_of_fits (by unfold Fits; omega)]
    simp only [Option.bind_eq_bind, Option.bind_some]
    rw [asU32_eq (by omega) (by omega), shl_eq (by omega) (mul_pow_lt (by omega))]
  · rw [if_neg (by omega), if_neg hle]
    obtain ⟨drop, hd⟩ : ∃ drop : ℕ, low - scale = drop := ⟨(low - scale).toNat, by omega⟩
    rw [hd, Int.toNat_natCast]
    by_cases hfar : 128 ≤ drop
    · rw [if_pos (by exact_mod_cast hfar), cut_eq_zero (by omega)]
    · have hpos : 0 < drop := by omega
      have hone : ∀ count < 128, shl 128 1 count = some (2^count) := fun count hc => by
        rw [shl_eq hc (by rw [one_mul]; exact Nat.pow_lt_pow_right (by norm_num) hc), one_mul]
      rw [if_neg (by exact_mod_cast hfar), show ((drop : ℤ) - 1).toNat = drop - 1 by omega,
        hone drop (by omega), hone (drop - 1) (by omega), shr_eq (by omega)]
      simp only [Option.bind_eq_bind, Option.bind_some]
      rw [checkedSub_of_le Nat.one_le_two_pow]
      simp only [Option.bind_some]
      have hkept : m / 2^drop + 1 < 2^128 := by
        have : m < 2^127 := Nat.size_le.mp (by omega)
        have : m / 2^drop ≤ m := Nat.div_le_self _ _
        omega
      rw [Nat.and_two_pow_sub_one_eq_mod, Nat.and_one_is_mod, add_eq hkept, cut]
      split_ifs <;> rfl

/-- The pattern of what is kept. -/
theorem packed_eq {sign k : ℕ} (hsign : sign = 0 ∨ sign = single.sign)
    (hk : k < 2 * single.implicit) (hlow : single.smallest ≤ low) (hhigh : low ≤ 2000) :
    packed sign k low = some (single.pack sign k low) := by
  have hi := implicit_eq
  have hmod : k % 2^32 = k := Nat.mod_eq_of_lt (by rw [hi, IMPLICIT] at hk; omega)
  unfold packed pack
  rw [hmod, ← hi, bias_eq, fraction_eq, top_eq]
  rw [smallest_eq, SMALLEST, BIAS, FRACTION] at hlow
  by_cases h0 : k = 0
  · rw [if_pos h0, if_pos (by rw [h0]; exact single.implicit_pos), h0, add_zero]
  · rw [if_neg h0]
    by_cases hsmall : k < single.implicit
    · have hlt : k < single.sign := hsmall.trans_le (by decide)
      rw [if_pos hsmall, if_pos hsmall, single.or_of_lt hsign hlt]
    · rw [if_neg hsmall, if_neg hsmall]
      rw [checked_of_fits (by unfold Fits FRACTION; omega)]
      simp only [Option.bind_eq_bind, Option.bind_some]
      rw [checked_of_fits (by unfold Fits FRACTION BIAS; omega)]
      simp only [Option.bind_some]
      by_cases hinf : (TOP : ℤ) ≤ low + FRACTION + BIAS
      · rw [if_pos hinf, if_pos hinf, infinity_eq hsign]
        rfl
      · rw [if_neg hinf, if_neg hinf]
        obtain ⟨e, he⟩ : ∃ e : ℕ, low + FRACTION + BIAS = e :=
          ⟨(low + FRACTION + BIAS).toNat, by unfold FRACTION BIAS; omega⟩
        have hetop : e ≤ single.top := by
          rw [top_eq]
          omega
        have hlt : e < 256 := by
          rw [top_eq, TOP] at hetop
          omega
        rw [he, Int.toNat_natCast, asU32_eq (by omega) (by omega), Int.toNat_natCast,
          shl_eq (by decide) (by unfold FRACTION; omega), fractionOf_eq, Option.bind_some,
          Nat.or_assoc]
        exact congrArg some (single.or_exponent hsign hetop (single.fractionOf_lt k))

/-- The one rounding overflows nothing and is the format's. -/
theorem roundFrom_eq {sign m : ℕ} {scale : ℤ} {above : Bool}
    (hsign : sign = 0 ∨ sign = single.sign) (hm : m.size < 128) (hlo : -1000 ≤ scale)
    (hhi : scale ≤ 1000) : roundFrom sign m scale above = some (single.round sign m scale above) := by
  unfold roundFrom Interchange.round
  by_cases h0 : m = 0
  · rw [if_pos h0, if_pos h0]
  have hsize : 0 < m.size := Nat.size_pos.mpr (Nat.pos_of_ne_zero h0)
  have hplace : (127 : ℤ) - (leadingZeros 128 m : ℕ) = m.size - 1 := by
    unfold leadingZeros
    omega
  rw [if_neg h0, if_neg h0, hplace, checked_of_fits (by unfold Fits; omega)]
  simp only [Option.bind_eq_bind, Option.bind_some]
  rw [checked_of_fits (by unfold Fits; omega)]
  simp only [Option.bind_some]
  have hlowest : lowestBit (scale + (m.size - 1)) = some (single.lowest (scale + (m.size - 1))) := by
    unfold lowestBit lowest
    rw [bias_eq, smallest_eq, fraction_eq]
    split_ifs
    · exact checked_of_fits (by unfold Fits FRACTION; omega)
    · rfl
  have hge := single.le_lowest (scale + (m.size - 1))
  have hge' := single.smallest_le_lowest (scale + (m.size - 1))
  have hle := single.lowest_le (scale + (m.size - 1))
  have hkept := @kept_le single m scale above
  rw [hlowest, Option.bind_some]
  rw [fraction_eq] at hge hle
  have hsm : single.smallest = -149 := by decide
  rw [hsm] at hle
  unfold FRACTION at hge hle
  generalize single.lowest (scale + (m.size - 1)) = low at *
  rw [checked_of_fits (by unfold Fits; omega), Option.bind_some,
    rounded_eq hm (by unfold Fits; omega) (by unfold Fits; omega) (by omega), Option.bind_some]
  generalize kept m scale low above = k at *
  have hcarry : k >>> (FRACTION + 1) ≠ 0 ↔ 2 * single.implicit ≤ k := by
    rw [Nat.shiftRight_eq_div_pow, Nat.ne_zero_iff_zero_lt, Nat.div_pos_iff]
    have : (2 : ℕ)^(FRACTION + 1) = 2 * single.implicit := by decide
    rw [this]
    have := single.implicit_pos
    omega
  by_cases hc : 2 * single.implicit ≤ k
  · rw [if_pos (hcarry.mpr hc), if_pos hc, checked_of_fits (by unfold Fits; omega),
      Option.bind_some, Nat.shiftRight_one]
    have := single.implicit_pos
    exact packed_eq hsign (by omega) (by omega) (by omega)
  · rw [if_neg (mt hcarry.mp hc), if_neg hc]
    exact packed_eq hsign (by omega) hge' (by omega)

/-! ## The operations -/

theorem size_le {bits : ℕ} : (single.significand bits).size ≤ 24 := by
  have := single.significand_lt bits
  exact Nat.size_le.mpr (by rw [implicit_eq, IMPLICIT] at this; omega)

theorem scale_bounds (bits : ℕ) : -149 ≤ single.scale bits ∧ single.scale bits ≤ 105 := by
  have := single.stored_le bits
  rw [top_eq, TOP] at this
  unfold scale
  rw [smallest_eq, bias_eq, fraction_eq]
  unfold SMALLEST BIAS FRACTION
  split_ifs <;> omega

/-- The sum of two finite patterns overflows nothing. -/
theorem addParts_eq {larger smaller : ℕ} (hlarge : larger < 2^32) (hl : left < 2^32) (hr : right < 2^32)
    (hle : single.unsigned smaller ≤ single.unsigned larger)
    (hmixed : single.mixed left right = single.mixed larger smaller) :
    addParts larger smaller left right = some (single.sum TOO_FAR larger smaller) := by
  obtain ⟨hscale, hsig⟩ := single.lines_up hle
  have hsl := scale_bounds larger
  have hss := scale_bounds smaller
  have hbl := @size_le larger
  have hbs := single.significand_lt smaller
  have hopp : (left ^^^ right) &&& SIGN ≠ 0 ↔
      ¬(single.Negative larger ↔ single.Negative smaller) := by
    rw [mixed_eq hl hr, hmixed]
    exact single.mixed_ne_zero
  unfold addParts sum
  rw [parts_eq, parts_eq, signOf_eq hlarge]
  simp only [Option.bind_eq_bind, Option.bind_some]
  rw [checked_of_fits (by unfold Fits; omega), Option.bind_some]
  by_cases hfar : TOO_FAR < single.scale larger - single.scale smaller
  · rw [if_pos hfar, if_pos hfar]
  unfold TOO_FAR at hfar ⊢
  rw [if_neg hfar, if_neg hfar, asU32_eq (by omega) (by omega),
    shl_eq (by omega) (mul_pow_lt (by omega))]
  have hwide : single.significand larger * 2^(single.scale larger - single.scale smaller).toNat <
      2^64 := mul_pow_lt (by omega)
  simp only [Option.bind_some]
  generalize single.significand larger * 2^(single.scale larger - single.scale smaller).toNat =
    aligned at *
  rw [implicit_eq, IMPLICIT] at hbs
  by_cases hsame : single.Negative larger ↔ single.Negative smaller
  · rw [if_neg (not_not.mpr hsame ∘ hopp.mp), if_pos hsame, add_eq (by omega), Option.bind_some]
    refine roundFrom_eq (single.signOf_eq larger) (Nat.lt_succ_of_le (Nat.size_le.mpr ?_)) (by omega)
      (by omega)
    omega
  · rw [if_pos (hopp.mpr hsame), if_neg hsame]
    by_cases heq : aligned = single.significand smaller
    · rw [if_pos heq, if_pos heq]
    · rw [if_neg heq, if_neg heq, checkedSub_of_le hsig, Option.bind_some]
      refine roundFrom_eq (single.signOf_eq larger) (Nat.lt_succ_of_le (Nat.size_le.mpr ?_))
        (by omega) (by omega)
      omega

/-- The sum is the format's. -/
theorem add_eq' (hl : left < 2^32) (hr : right < 2^32) :
    Float.add left right = some (single.add TOO_FAR left right) := by
  have hopp : (left ^^^ right) &&& SIGN ≠ 0 ↔
      ¬(single.Negative left ↔ single.Negative right) := by
    rw [mixed_eq hl hr]
    exact single.mixed_ne_zero
  have hboth : left &&& right &&& SIGN =
      if single.Negative left ∧ single.Negative right then single.sign else 0 := by
    rw [← sign_eq]
    exact single.and_and_sign (pattern_iff.mpr hl) (pattern_iff.mpr hr)
  unfold Float.add Interchange.add
  simp only [isNan_eq, isInfinite_eq, isZero_eq hl, isZero_eq hr, decide_eq_true_eq, hopp,
    unsigned_eq hl, unsigned_eq hr, hboth]
  by_cases hnl : single.NaN left
  · rw [if_pos hnl, if_pos hnl]
    rfl
  rw [if_neg hnl, if_neg hnl]
  by_cases hnr : single.NaN right
  · rw [if_pos hnr, if_pos hnr]
    rfl
  rw [if_neg hnr, if_neg hnr]
  by_cases hil : single.Infinite left
  · rw [if_pos hil, if_pos hil]
    split <;> rfl
  rw [if_neg hil, if_neg hil]
  by_cases hir : single.Infinite right
  · rw [if_pos hir, if_pos hir]
  rw [if_neg hir, if_neg hir]
  by_cases hzero : single.significand left = 0 ∧ single.significand right = 0
  · rw [if_pos hzero, if_pos hzero]
  rw [if_neg hzero, if_neg hzero]
  by_cases hzl : single.significand left = 0
  · rw [if_pos hzl, if_pos hzl]
  rw [if_neg hzl, if_neg hzl]
  by_cases hzr : single.significand right = 0
  · rw [if_pos hzr, if_pos hzr]
  rw [if_neg hzr, if_neg hzr]
  split_ifs with hle
  · exact addParts_eq hl hl hr hle rfl
  · exact addParts_eq hr hl hr (not_le.mp hle).le (single.mixed_comm left right)

/-- The product is the format's. -/
theorem multiply_eq (hl : left < 2^32) (hr : right < 2^32) :
    Float.multiply left right = some (single.multiply left right) := by
  have hinf := @infinity_eq (single.mixed left right) (single.mixed_eq left right)
  unfold Float.multiply Interchange.multiply
  simp only [isNan_eq, isInfinite_eq, isZero_eq hl, isZero_eq hr, decide_eq_true_eq,
    mixed_eq hl hr, hinf]
  split_ifs with hnl hnr hi hz hz
  all_goals try rfl
  have hsl := scale_bounds left
  have hsr := scale_bounds right
  have hwl := single.significand_lt left
  have hwr := single.significand_lt right
  rw [implicit_eq, IMPLICIT] at hwl hwr
  have hprod : single.significand left * single.significand right < 2^48 := by
    calc single.significand left * single.significand right < 2^24 * 2^24 :=
          Nat.mul_lt_mul'' (by omega) (by omega)
      _ = 2^48 := by norm_num
  rw [parts_eq, parts_eq]
  simp only [Option.bind_eq_bind, Option.bind_some]
  rw [mul_eq (by omega), Option.bind_some, checked_of_fits (by unfold Fits; omega),
    Option.bind_some]
  exact roundFrom_eq (single.mixed_eq left right) (Nat.lt_of_le_of_lt (Nat.size_le.mpr hprod)
    (by norm_num)) (by omega) (by omega)

/-- The quotient is the format's. -/
theorem divide_eq (hl : left < 2^32) (hr : right < 2^32) :
    Float.divide left right = some (single.divide QUOTIENT_BITS left right) := by
  have hinf := @infinity_eq (single.mixed left right) (single.mixed_eq left right)
  unfold Float.divide Interchange.divide
  simp only [isNan_eq, isInfinite_eq, isZero_eq hl, isZero_eq hr, decide_eq_true_eq,
    mixed_eq hl hr, hinf]
  by_cases hnl : single.NaN left
  · rw [if_pos hnl, if_pos hnl]
    rfl
  rw [if_neg hnl, if_neg hnl]
  by_cases hnr : single.NaN right
  · rw [if_pos hnr, if_pos hnr]
    rfl
  rw [if_neg hnr, if_neg hnr]
  by_cases hil : single.Infinite left
  · rw [if_pos hil, if_pos hil]
    split <;> rfl
  rw [if_neg hil, if_neg hil]
  by_cases hir : single.Infinite right
  · rw [if_pos hir, if_pos hir]
  rw [if_neg hir, if_neg hir]
  by_cases hzr : single.significand right = 0
  · rw [if_pos hzr, if_pos hzr]
    split <;> rfl
  rw [if_neg hzr, if_neg hzr]
  by_cases hzl : single.significand left = 0
  · rw [if_pos hzl, if_pos hzl]
  rw [if_neg hzl, if_neg hzl]
  have hsl := scale_bounds left
  have hsr := scale_bounds right
  have hwl := @size_le left
  have hwr := @size_le right
  have hwl0 : 0 < (single.significand left).size := Nat.size_pos.mpr (Nat.pos_of_ne_zero hzl)
  rw [parts_eq, parts_eq]
  simp only [Option.bind_eq_bind, Option.bind_some]
  rw [add_eq (by unfold leadingZeros QUOTIENT_BITS; omega), Option.bind_some,
    checkedSub_of_le (by unfold leadingZeros QUOTIENT_BITS; omega)]
  simp only [Option.bind_some]
  have hup : QUOTIENT_BITS + leadingZeros 64 (single.significand left) -
      leadingZeros 64 (single.significand right) =
      QUOTIENT_BITS + (single.significand right).size - (single.significand left).size := by
    unfold leadingZeros QUOTIENT_BITS
    omega
  rw [hup]
  unfold quotient
  dsimp only
  have hbound : (single.significand left).size +
        (QUOTIENT_BITS + (single.significand right).size - (single.significand left).size) ≤ 64 ∧
      QUOTIENT_BITS + (single.significand right).size - (single.significand left).size < 64 := by
    unfold QUOTIENT_BITS
    omega
  generalize QUOTIENT_BITS + (single.significand right).size - (single.significand left).size =
    up at *
  rw [shl_eq (by omega) (mul_pow_lt (by omega)), Option.bind_some, if_neg hzr,
    checked_of_fits (by unfold Fits; omega)]
  simp only [Option.bind_some]
  rw [checked_of_fits (by unfold Fits; omega), Option.bind_some]
  refine roundFrom_eq (single.mixed_eq left right) (Nat.lt_of_le_of_lt (Nat.size_le.mpr ?_)
    (by norm_num : 64 < 128)) (by omega) (by omega)
  exact (Nat.div_le_self _ _).trans_lt (mul_pow_lt (by omega))

/-! ## Correct rounding -/

theorem negated_eq (h : ¬single.NaN bits) : negated bits = bits ^^^ single.sign := by
  unfold negated
  rw [if_neg (by rw [isNan_eq, decide_eq_true_eq]; exact h), sign_eq]

/-- What the format's operations come to on patterns that are finite and not zero. -/
theorem finite_cases (h : single.Finite bits) : ¬single.NaN bits ∧ ¬single.Infinite bits :=
  ⟨fun hn => h hn.1, fun hi => h hi.1⟩

/-- Single precision is correctly rounded: the sum, the difference, the product and the quotient of two
finite patterns that are not zero are the patterns that the exact results round to, and nothing
overflows on the way. An operand whose scale is more than forty above the other's is both the
rounded sum and the rounded difference. -/
theorem correctly_rounded {left right : ℕ} (hl : left < 2^32) (hr : right < 2^32)
    (hfl : single.Finite left) (hfr : single.Finite right) (hl0 : single.value left ≠ 0)
    (hr0 : single.value right ≠ 0) :
    (∃ bits, Float.add left right = some bits ∧
      single.RoundsTo (single.value left + single.value right) bits) ∧
    (∃ bits, Float.add left (negated right) = some bits ∧
      single.RoundsTo (single.value left - single.value right) bits) ∧
    (∃ bits, Float.multiply left right = some bits ∧
      single.RoundsTo (single.value left * single.value right) bits) ∧
    (∃ bits, Float.divide left right = some bits ∧
      single.RoundsTo (single.value left / single.value right) bits) ∧
    (TOO_FAR < single.scale left - single.scale right →
      single.RoundsTo (single.value left + single.value right) left ∧
        single.RoundsTo (single.value left - single.value right) left) := by
  have hpl := pattern_iff.mpr hl
  have hpr := pattern_iff.mpr hr
  obtain ⟨hnl, hil⟩ := finite_cases hfl
  obtain ⟨hnr, hir⟩ := finite_cases hfr
  obtain ⟨hpf, hsf, hff, -⟩ := single.flip_fields hpr
  obtain ⟨hgf, hcf⟩ := single.significand_flip hpr
  have hvf := single.value_flip hpr
  have hnf : ¬single.NaN (right ^^^ single.sign) := by
    unfold NaN
    rw [hsf, hff]
    exact hnr
  have hif : ¬single.Infinite (right ^^^ single.sign) := by
    unfold Interchange.Infinite
    rw [hsf, hff]
    exact hir
  have hvf0 : single.value (right ^^^ single.sign) ≠ 0 := by
    rw [hvf]
    exact neg_ne_zero.mpr hr0
  have hfar : (single.fraction : ℤ) + 2 ≤ TOO_FAR := by decide
  have hsum : ∀ {other : ℕ}, single.Pattern other → ¬single.NaN other → ¬single.Infinite other →
      single.value other ≠ 0 → ∃ bits, Float.add left other = some bits ∧
        single.RoundsTo (single.value left + single.value other) bits := by
    intro other hp hn hi h0
    have hspec := single.add_spec hfar hpl hp
    unfold Adds at hspec
    rw [if_neg hnl, if_neg hn, if_neg hil, if_neg hi, if_neg fun h => h0 h.2] at hspec
    exact ⟨_, add_eq' hl (pattern_iff.mp hp), hspec⟩
  refine ⟨hsum hpr hnr hir hr0, ?_, ?_, ?_, ?_⟩
  · rw [negated_eq hnr, sub_eq_add_neg, ← hvf]
    exact hsum hpf hnf hif hvf0
  · have hspec := single.multiply_spec left right
    unfold Multiplies at hspec
    rw [if_neg hnl, if_neg hnr, if_neg (not_or.mpr ⟨hil, hir⟩), if_neg (not_or.mpr ⟨hl0, hr0⟩)]
      at hspec
    exact ⟨_, multiply_eq hl hr, hspec⟩
  · have hspec := single.divide_spec (by decide : single.fraction + 2 ≤ QUOTIENT_BITS) left right
    unfold Divides at hspec
    rw [if_neg hnl, if_neg hnr, if_neg hil, if_neg hir, if_neg hr0, if_neg hl0] at hspec
    exact ⟨_, divide_eq hl hr, hspec⟩
  · -- The larger scale has the larger pattern, and the sum stops at the shortcut.
    intro hapart
    have hshort : ∀ {other : ℕ}, single.significand other ≠ 0 →
        TOO_FAR < single.scale left - single.scale other →
        single.RoundsTo (single.value left + single.value other) left := by
      intro other h0 hout
      have hle : single.unsigned other ≤ single.unsigned left := by
        by_contra! hlt
        have := (single.lines_up hlt.le).1
        unfold TOO_FAR at hout
        omega
      have hspec := single.sum_spec hfar hpl hfl (mt single.value_eq_zero.mpr hl0) h0 hle
      unfold sum at hspec
      rwa [if_pos hout] at hspec
    refine ⟨hshort (mt single.value_eq_zero.mpr hr0) hapart, ?_⟩
    rw [sub_eq_add_neg, ← hvf]
    exact hshort (mt single.value_eq_zero.mpr hvf0) (by rw [hcf]; exact hapart)

/-- One and a half, and the smallest subnormal: the sum and the difference are the larger operand. -/
theorem correctly_rounded_apart :
    (∃ bits, Float.add 0x3fc00000 1 = some bits ∧
      single.RoundsTo (single.value 0x3fc00000 + single.value 1) bits) ∧
    (∃ bits, Float.add 0x3fc00000 (negated 1) = some bits ∧
      single.RoundsTo (single.value 0x3fc00000 - single.value 1) bits) ∧
    (∃ bits, Float.multiply 0x3fc00000 1 = some bits ∧
      single.RoundsTo (single.value 0x3fc00000 * single.value 1) bits) ∧
    (∃ bits, Float.divide 0x3fc00000 1 = some bits ∧
      single.RoundsTo (single.value 0x3fc00000 / single.value 1) bits) ∧
    (TOO_FAR < single.scale 0x3fc00000 - single.scale 1 →
      single.RoundsTo (single.value 0x3fc00000 + single.value 1) 0x3fc00000 ∧
        single.RoundsTo (single.value 0x3fc00000 - single.value 1) 0x3fc00000) :=
  correctly_rounded (by norm_num) (by norm_num) (by decide) (by decide)
    (mt single.value_eq_zero.mp (by decide)) (mt single.value_eq_zero.mp (by decide))

end Rucc.Builtins.Float
