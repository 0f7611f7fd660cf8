import Mathlib.Order.CountableDenseLinearOrder
import Rucc.Lib.SoftFloat

/-!
# The operations on interchange formats

Sums, products, quotients and comparisons of patterns in integers, for any format. A sum whose operands
lie too far apart is the larger operand, and a quotient is cut to so many bits that what is cut off can
only break a tie. `sum_spec`, `product_spec` and `quotient_spec` say that each comes to the pattern
nearest the exact result, and `add_spec`, `multiply_spec` and `divide_spec` put around them what
IEEE 754 says about the patterns that are no numbers, the infinities and the zeros.
-/

namespace Rucc.Interchange

open Rounding

variable (f : Interchange)

variable {bits big small left right width : ℕ} {tooFar : ℤ}

/-! ## Sums -/

/-- The sum of two patterns that are finite and not zero, the larger magnitude first. -/
def sum (tooFar : ℤ) (big small : ℕ) : ℕ :=
  if tooFar < f.scale big - f.scale small then big
  else
    let aligned := f.significand big * 2^(f.scale big - f.scale small).toNat
    if f.Negative big ↔ f.Negative small then
      f.round (f.signOf big) (aligned + f.significand small) (f.scale small) false
    else if aligned = f.significand small then 0
    else f.round (f.signOf big) (aligned - f.significand small) (f.scale small) false

theorem negative_signOf : f.signOf bits = f.sign ↔ f.Negative bits := by
  unfold signOf
  split_ifs with h
  · exact iff_of_true rfl h
  · exact iff_of_false f.sign_pos.ne h

/-- The value of a sum by the two magnitudes. -/
theorem abs_add_value (h : f.magnitude small ≤ f.magnitude big) (hsmall : 0 < f.magnitude small) :
    (|f.value big + f.value small| = if f.Negative big ↔ f.Negative small
      then f.magnitude big + f.magnitude small else f.magnitude big - f.magnitude small) ∧
    ((f.Negative big ↔ f.Negative small) ∨ f.magnitude small ≠ f.magnitude big →
      (f.value big + f.value small < 0 ↔ f.Negative big)) := by
  have hlt : f.magnitude small ≠ f.magnitude big → f.magnitude small < f.magnitude big :=
    lt_of_le_of_ne h
  unfold value
  by_cases hb : f.Negative big <;> by_cases hs : f.Negative small
  · simp only [hb, hs, if_true, iff_self, true_or, true_implies, iff_true]
    refine ⟨?_, by linarith⟩
    rw [← neg_add, abs_neg, abs_of_nonneg (by linarith)]
  · simp only [hb, hs, if_true, if_false, iff_false, not_true, false_or, iff_true]
    refine ⟨?_, fun hne => by have := hlt hne; linarith⟩
    rw [neg_add_eq_sub, abs_sub_comm, abs_of_nonneg (by linarith)]
  · simp only [hb, hs, if_true, if_false, iff_true, false_or, iff_false, not_lt]
    refine ⟨?_, fun hne => by have := hlt hne; linarith⟩
    rw [← sub_eq_add_neg, abs_of_nonneg (by linarith)]
  · simp only [hb, hs, if_false, iff_self, if_true, true_or, true_implies, iff_false, not_lt]
    exact ⟨abs_of_nonneg (by linarith), by linarith⟩

/-- A sum rounds to what `sum` makes of it, wherever too far is at least three more than the fraction. -/
theorem sum_spec (hfar : (f.fraction : ℤ) + 2 ≤ tooFar)
    (hpb : f.Pattern big) (hb : f.Finite big) (hb0 : f.significand big ≠ 0)
    (hs0 : f.significand small ≠ 0) (h : f.unsigned small ≤ f.unsigned big) :
    f.RoundsTo (f.value big + f.value small) (f.sum tooFar big small) := by
  obtain ⟨hscale, hsig⟩ := f.lines_up h
  have hmb := f.magnitude_aligned hscale
  have hms : f.magnitude small = f.significand small * 2^f.scale small := rfl
  have hu : (0 : ℚ) < 2^f.scale small := by positivity
  have hpos : 0 < f.magnitude small := by
    rw [hms]
    have : (0 : ℚ) < f.significand small := by exact_mod_cast Nat.pos_of_ne_zero hs0
    positivity
  have hle : f.magnitude small ≤ f.magnitude big := by
    rw [hmb, hms]
    exact mul_le_mul_of_nonneg_right (by exact_mod_cast hsig) hu.le
  obtain ⟨habs, hneg⟩ := f.abs_add_value hle hpos
  unfold sum
  dsimp only
  split_ifs with hout hsame heq
  · -- The smaller operand cannot reach the lowest bit that the larger one holds.
    have hfull := @implicit_le_significand f big (by have := f.smallest_le_scale small; omega)
    have hquarter : f.magnitude small < 2^f.scale big / 4 := by
      have hm : (f.significand small : ℚ) < 2^(f.fraction + 1) := by
        have := f.significand_lt small
        rw [implicit, ← pow_succ'] at this
        exact_mod_cast this
      calc f.magnitude small < 2^(f.fraction + 1) * 2^f.scale small :=
            mul_lt_mul_of_pos_right hm hu
        _ = (2 : ℚ)^((f.fraction : ℤ) + 1 + f.scale small) := by
            rw [zpow_add₀ (by norm_num)]
            norm_cast
        _ ≤ 2^(f.scale big - 2) := zpow_le_zpow_right₀ (by norm_num) (by omega)
        _ = 2^f.scale big / 4 := by
            rw [zpow_sub₀ (by norm_num)]
            norm_num
    have hmag : f.magnitude big = f.significand big * 2^f.scale big := rfl
    have hbig : 2^f.scale big / 4 < f.magnitude big := by
      have h1 : (1 : ℚ) ≤ f.significand big := by exact_mod_cast Nat.one_le_iff_ne_zero.mpr hb0
      have : (0 : ℚ) < 2^f.scale big := by positivity
      rw [hmag]
      nlinarith
    have hne : f.magnitude small ≠ f.magnitude big := by linarith
    refine ⟨hpb, fun hnan => hb hnan.1, (hneg (Or.inr hne)).symm, ?_⟩
    rw [if_pos hb]
    refine f.rounds_close (abs_nonneg _) hfull (f.significand_lt big) (f.smallest_le_scale big)
      (f.scale_le hb) ?_
    rw [← hmag, habs]
    split_ifs
    · rw [add_sub_cancel_left, abs_of_pos hpos]
      exact hquarter
    · rw [sub_sub_cancel_left, abs_neg, abs_of_pos hpos]
      exact hquarter
  · rw [if_pos hsame, hmb, hms, ← add_mul, ← Nat.cast_add] at habs
    exact f.round_spec (f.signOf_eq big) (by omega) (Stands.exact _) (by simp) habs
      (f.negative_signOf.trans (hneg (Or.inl hsame)).symm)
  · rw [if_neg hsame, hmb, hms, heq, sub_self, abs_eq_zero] at habs
    rw [habs]
    exact f.roundsTo_zero
  · rw [if_neg hsame, hmb, hms, ← sub_mul, ← Nat.cast_sub hsig] at habs
    have hne : f.magnitude small ≠ f.magnitude big := by
      rw [hmb, hms]
      intro hmul
      exact heq (by exact_mod_cast (mul_right_cancel₀ hu.ne' hmul).symm)
    exact f.round_spec (f.signOf_eq big) (by omega) (Stands.exact _) (by simp) habs
      (f.negative_signOf.trans (hneg (Or.inr hne)).symm)

/-! ## Products and quotients -/

/-- The sign bit of a product or a quotient. -/
def mixed (left right : ℕ) : ℕ := if f.Negative left ↔ f.Negative right then 0 else f.sign

theorem mixed_eq (left right : ℕ) : f.mixed left right = 0 ∨ f.mixed left right = f.sign := by
  unfold mixed
  split_ifs
  · exact Or.inl rfl
  · exact Or.inr rfl

theorem mixed_eq_sign : f.mixed left right = f.sign ↔ ¬(f.Negative left ↔ f.Negative right) := by
  unfold mixed
  split_ifs with h
  · exact iff_of_false f.sign_pos.ne (not_not.mpr h)
  · exact iff_of_true rfl h

/-- The product of two patterns that are finite and not zero. -/
def product (left right : ℕ) : ℕ :=
  f.round (f.mixed left right) (f.significand left * f.significand right)
    (f.scale left + f.scale right) false

/-- The quotient of two patterns that are finite and not zero, to `bits` bits and whether anything is
left after them. -/
def quotient (bits left right : ℕ) : ℕ :=
  let up := bits + (f.significand right).size - (f.significand left).size
  let dividend := f.significand left * 2^up
  f.round (f.mixed left right) (dividend / f.significand right)
    (f.scale left - f.scale right - up) (dividend % f.significand right != 0)

theorem magnitude_pos (h : f.significand bits ≠ 0) : 0 < f.magnitude bits :=
  lt_of_le_of_ne (f.magnitude_nonneg bits) fun h0 => h (f.magnitude_eq_zero.mp h0.symm)

theorem value_neg_iff (h : f.significand bits ≠ 0) : f.value bits < 0 ↔ f.Negative bits := by
  have := f.magnitude_pos h
  unfold value
  split_ifs with hn
  · exact iff_of_true (by linarith) hn
  · exact iff_of_false (by linarith) hn

theorem value_pos_iff (h : f.significand bits ≠ 0) : 0 < f.value bits ↔ ¬f.Negative bits := by
  have := f.magnitude_pos h
  unfold value
  split_ifs with hn
  · exact iff_of_false (by linarith) (not_not.mpr hn)
  · exact iff_of_true (by linarith) hn

/-- A product is negative where the signs differ. -/
theorem mul_value_neg (hl : f.significand left ≠ 0) (hr : f.significand right ≠ 0) :
    f.mixed left right = f.sign ↔ f.value left * f.value right < 0 := by
  rw [mixed_eq_sign, mul_neg_iff, f.value_pos_iff hl, f.value_pos_iff hr, f.value_neg_iff hl,
    f.value_neg_iff hr]
  tauto

/-- A quotient is negative where the signs differ. -/
theorem div_value_neg (hl : f.significand left ≠ 0) (hr : f.significand right ≠ 0) :
    f.mixed left right = f.sign ↔ f.value left / f.value right < 0 := by
  rw [mixed_eq_sign, div_neg_iff, f.value_pos_iff hl, f.value_pos_iff hr, f.value_neg_iff hl,
    f.value_neg_iff hr]
  tauto

/-- The product of two patterns is the nearest to the product of the two numbers. -/
theorem product_spec (hl : f.significand left ≠ 0) (hr : f.significand right ≠ 0) :
    f.RoundsTo (f.value left * f.value right) (f.product left right) := by
  refine f.round_spec (f.mixed_eq left right) (Nat.mul_ne_zero hl hr) (Stands.exact _) (by simp) ?_
    (f.mul_value_neg hl hr)
  rw [abs_mul, abs_value, abs_value, magnitude, magnitude, zpow_add₀ (by norm_num)]
  push_cast
  ring

/-- A quotient in integers, with what is left over, stands for the exact one. -/
theorem stands_div {a b : ℕ} (hb : 0 < b) : Stands (a / b) (a % b != 0) ((a : ℚ) / b) := by
  have hb' : (0 : ℚ) < b := by exact_mod_cast hb
  have hsplit : (a : ℚ) = b * (a / b : ℕ) + (a % b : ℕ) := by exact_mod_cast (Nat.div_add_mod a b).symm
  have hlt : ((a % b : ℕ) : ℚ) < b := by exact_mod_cast Nat.mod_lt a hb
  have h0 : (0 : ℚ) ≤ (a % b : ℕ) := Nat.cast_nonneg _
  refine ⟨?_, ?_, ?_⟩
  · rw [le_div_iff₀ hb']
    linarith
  · rw [div_lt_iff₀ hb']
    linarith
  · rw [lt_div_iff₀ hb', bne_iff_ne, ← Nat.pos_iff_ne_zero, ← Nat.cast_pos (α := ℚ)]
    constructor <;> intro h <;> linarith

/-- The quotient has as many bits as were asked for. -/
theorem le_size_quotient {bits a b : ℕ} (ha : a ≠ 0) (hb : b ≠ 0) (hab : a.size ≤ bits + b.size) :
    bits ≤ (a * 2^(bits + b.size - a.size) / b).size := by
  rcases Nat.eq_zero_or_pos bits with rfl | hbits
  · exact Nat.zero_le _
  have hasize : 0 < a.size := Nat.size_pos.mpr (Nat.pos_of_ne_zero ha)
  have hlo : 2^(a.size - 1) ≤ a := Nat.lt_size.mp (by omega)
  have hhi : b < 2^b.size := Nat.lt_size_self b
  have hle : 2^(bits - 1) ≤ a * 2^(bits + b.size - a.size) / b := by
    rw [Nat.le_div_iff_mul_le (Nat.pos_of_ne_zero hb)]
    calc 2^(bits - 1) * b ≤ 2^(bits - 1) * 2^b.size := Nat.mul_le_mul_left _ hhi.le
      _ = 2^(a.size - 1) * 2^(bits + b.size - a.size) := by
          rw [← pow_add, ← pow_add]
          congr 1
          omega
      _ ≤ a * 2^(bits + b.size - a.size) := Nat.mul_le_mul_right _ hlo
  have := Nat.lt_size.mpr hle
  omega

/-- The quotient of two patterns is the nearest to the quotient of the two numbers. -/
theorem quotient_spec (hbits : f.fraction + 2 ≤ bits) (hl : f.significand left ≠ 0) (hr : f.significand right ≠ 0) :
    f.RoundsTo (f.value left / f.value right) (f.quotient bits left right) := by
  have hsize : (f.significand left).size ≤ f.fraction + 1 := by
    have := f.significand_lt left
    rw [implicit, ← pow_succ'] at this
    exact Nat.size_le.mpr this
  have hlong := @le_size_quotient bits _ _ hl hr (by omega)
  have hup : ((bits + (f.significand right).size - (f.significand left).size : ℕ) : ℤ) =
      (bits : ℤ) + (f.significand right).size - (f.significand left).size := by omega
  unfold quotient
  dsimp only
  generalize bits + (f.significand right).size - (f.significand left).size = up at *
  refine f.round_spec (f.mixed_eq left right) ?_ (stands_div (Nat.pos_of_ne_zero hr))
    (fun _ => by omega) ?_ (f.div_value_neg hl hr)
  · intro h0
    rw [h0, Nat.size_zero] at hlong
    omega
  · have hr' : (f.significand right : ℚ) ≠ 0 := by exact_mod_cast hr
    rw [abs_div, abs_value, abs_value, magnitude, magnitude, zpow_sub₀ (by norm_num),
      zpow_sub₀ (by norm_num), zpow_natCast]
    push_cast
    field_simp

/-! ## The patterns that are no numbers, the infinities and the zeros -/

/-- A pattern that is no number, made quiet. -/
def quieted (bits : ℕ) : ℕ := bits ||| 2^(f.fraction - 1)

/-- The quiet pattern of an operation with no answer: an empty payload and a clear sign. -/
def empty : ℕ := f.top * f.implicit + 2^(f.fraction - 1)

/-- The infinity with a sign bit. -/
def infinity (sign : ℕ) : ℕ := sign + f.top * f.implicit

/-- What IEEE 754 says about a sum: a pattern that is no number comes back quiet, the left one first; two
infinities of different signs have no sum; two zeros have the negative one only when both are;
everything else is the exact sum, rounded. -/
def Adds (left right bits : ℕ) : Prop :=
  if f.NaN left then bits = f.quieted left
  else if f.NaN right then bits = f.quieted right
  else if f.Infinite left then
    if f.Infinite right ∧ ¬(f.Negative left ↔ f.Negative right) then bits = f.empty
    else bits = left
  else if f.Infinite right then bits = right
  else if f.value left = 0 ∧ f.value right = 0 then
    bits = if f.Negative left ∧ f.Negative right then f.sign else 0
  else f.RoundsTo (f.value left + f.value right) bits

/-- What IEEE 754 says about a difference: it is the sum with the right sign the other way, and a right
operand that is no number comes back as it is, made quiet. -/
def Subtracts (left right bits : ℕ) : Prop :=
  if f.NaN left then bits = f.quieted left
  else if f.NaN right then bits = f.quieted right
  else if f.Infinite left then
    if f.Infinite right ∧ (f.Negative left ↔ f.Negative right) then bits = f.empty
    else bits = left
  else if f.Infinite right then bits = f.infinity (if f.Negative right then 0 else f.sign)
  else if f.value left = 0 ∧ f.value right = 0 then
    bits = if f.Negative left ∧ ¬f.Negative right then f.sign else 0
  else f.RoundsTo (f.value left - f.value right) bits

/-- What IEEE 754 says about a product: a zero times an infinity has none, and the sign of a zero and of
an infinity is the two signs mixed. -/
def Multiplies (left right bits : ℕ) : Prop :=
  if f.NaN left then bits = f.quieted left
  else if f.NaN right then bits = f.quieted right
  else if f.Infinite left ∨ f.Infinite right then
    if f.value left = 0 ∨ f.value right = 0 then bits = f.empty
    else bits = f.infinity (f.mixed left right)
  else if f.value left = 0 ∨ f.value right = 0 then bits = f.mixed left right
  else f.RoundsTo (f.value left * f.value right) bits

/-- What IEEE 754 says about a quotient: two infinities and two zeros have none, anything else over a zero
is an infinity and over an infinity a zero, with the two signs mixed. -/
def Divides (left right bits : ℕ) : Prop :=
  if f.NaN left then bits = f.quieted left
  else if f.NaN right then bits = f.quieted right
  else if f.Infinite left then
    if f.Infinite right then bits = f.empty else bits = f.infinity (f.mixed left right)
  else if f.Infinite right then bits = f.mixed left right
  else if f.value right = 0 then
    if f.value left = 0 then bits = f.empty else bits = f.infinity (f.mixed left right)
  else if f.value left = 0 then bits = f.mixed left right
  else f.RoundsTo (f.value left / f.value right) bits

/-- The sum of any two patterns. -/
def add (tooFar : ℤ) (left right : ℕ) : ℕ :=
  if f.NaN left then f.quieted left
  else if f.NaN right then f.quieted right
  else if f.Infinite left then
    if f.Infinite right ∧ ¬(f.Negative left ↔ f.Negative right) then f.empty else left
  else if f.Infinite right then right
  else if f.significand left = 0 ∧ f.significand right = 0 then
    if f.Negative left ∧ f.Negative right then f.sign else 0
  else if f.significand left = 0 then right
  else if f.significand right = 0 then left
  else if f.unsigned right ≤ f.unsigned left then f.sum tooFar left right
  else f.sum tooFar right left

/-- The product of any two patterns. -/
def multiply (left right : ℕ) : ℕ :=
  if f.NaN left then f.quieted left
  else if f.NaN right then f.quieted right
  else if f.Infinite left ∨ f.Infinite right then
    if f.significand left = 0 ∨ f.significand right = 0 then f.empty
    else f.infinity (f.mixed left right)
  else if f.significand left = 0 ∨ f.significand right = 0 then f.mixed left right
  else f.product left right

/-- The quotient of any two patterns, from a quotient of `bits` bits. -/
def divide (bits left right : ℕ) : ℕ :=
  if f.NaN left then f.quieted left
  else if f.NaN right then f.quieted right
  else if f.Infinite left then
    if f.Infinite right then f.empty else f.infinity (f.mixed left right)
  else if f.Infinite right then f.mixed left right
  else if f.significand right = 0 then
    if f.significand left = 0 then f.empty else f.infinity (f.mixed left right)
  else if f.significand left = 0 then f.mixed left right
  else f.quotient bits left right

theorem value_eq_zero : f.value bits = 0 ↔ f.significand bits = 0 := by
  rw [← magnitude_eq_zero, value]
  split_ifs
  · exact neg_eq_zero
  · exact Iff.rfl

/-- What is neither an infinity nor no number is finite. -/
theorem finite_of_not (hnan : ¬f.NaN bits) (hinf : ¬f.Infinite bits) : f.Finite bits := by
  intro htop
  by_cases h0 : f.fractionOf bits = 0
  · exact hinf ⟨htop, h0⟩
  · exact hnan ⟨htop, h0⟩

theorem add_spec (hfar : (f.fraction : ℤ) + 2 ≤ tooFar)
    (hpl : f.Pattern left) (hpr : f.Pattern right) : f.Adds left right (f.add tooFar left right) := by
  unfold Adds add
  simp only [value_eq_zero]
  by_cases hnl : f.NaN left
  · rw [if_pos hnl, if_pos hnl]
  rw [if_neg hnl, if_neg hnl]
  by_cases hnr : f.NaN right
  · rw [if_pos hnr, if_pos hnr]
  rw [if_neg hnr, if_neg hnr]
  by_cases hil : f.Infinite left
  · rw [if_pos hil, if_pos hil]
    split <;> rfl
  rw [if_neg hil, if_neg hil]
  by_cases hir : f.Infinite right
  · rw [if_pos hir, if_pos hir]
  rw [if_neg hir, if_neg hir]
  by_cases hzero : f.significand left = 0 ∧ f.significand right = 0
  · rw [if_pos hzero, if_pos hzero]
  rw [if_neg hzero, if_neg hzero]
  split_ifs with hl hr hle
  · rw [f.value_eq_zero.mpr hl, zero_add]
    exact f.roundsTo_self hpr (f.finite_of_not hnr hir) fun h => hzero ⟨hl, h⟩
  · rw [f.value_eq_zero.mpr hr, add_zero]
    exact f.roundsTo_self hpl (f.finite_of_not hnl hil) hl
  · exact f.sum_spec hfar hpl (f.finite_of_not hnl hil) hl hr hle
  · rw [add_comm]
    exact f.sum_spec hfar hpr (f.finite_of_not hnr hir) hr hl (not_le.mp hle).le

theorem multiply_spec (left right : ℕ) : f.Multiplies left right (f.multiply left right) := by
  unfold Multiplies multiply
  simp only [value_eq_zero]
  split_ifs with hnl hnr hinf hzero hzero
  all_goals try rfl
  rw [not_or] at hzero
  exact f.product_spec hzero.1 hzero.2

theorem divide_spec (hbits : f.fraction + 2 ≤ bits) (left right : ℕ) :
    f.Divides left right (f.divide bits left right) := by
  unfold Divides divide
  simp only [value_eq_zero]
  by_cases hnl : f.NaN left
  · rw [if_pos hnl, if_pos hnl]
  rw [if_neg hnl, if_neg hnl]
  by_cases hnr : f.NaN right
  · rw [if_pos hnr, if_pos hnr]
  rw [if_neg hnr, if_neg hnr]
  by_cases hil : f.Infinite left
  · rw [if_pos hil, if_pos hil]
    split <;> rfl
  rw [if_neg hil, if_neg hil]
  by_cases hir : f.Infinite right
  · rw [if_pos hir, if_pos hir]
  rw [if_neg hir, if_neg hir]
  by_cases hr : f.significand right = 0
  · rw [if_pos hr, if_pos hr]
    split <;> rfl
  rw [if_neg hr, if_neg hr]
  by_cases hl : f.significand left = 0
  · rw [if_pos hl, if_pos hl]
  rw [if_neg hl, if_neg hl]
  exact f.quotient_spec hbits hl hr

/-! ## Order -/

/-- The order of two patterns by the place of their leading bits, and where these agree by their
significands with the leading bits lined up in `width` bits. -/
def order (width left right : ℕ) : Ordering :=
  if f.significand left = 0 ∧ f.significand right = 0 then .eq
  else if f.significand left = 0 then if f.Negative right then .gt else .lt
  else if f.significand right = 0 then if f.Negative left then .lt else .gt
  else if f.Negative left ↔ f.Negative right then
    let magnitudes :=
      (compare (f.scale left + ((f.significand left).size - 1))
        (f.scale right + ((f.significand right).size - 1))).then
        (compare (f.significand left * 2^(width - (f.significand left).size))
          (f.significand right * 2^(width - (f.significand right).size)))
    if f.Negative left then magnitudes.swap else magnitudes
  else if f.Negative left then .lt else .gt

/-- A magnitude lies between the power of two of its leading bit and the next. -/
theorem magnitude_between (h : f.significand bits ≠ 0) :
    (2 : ℚ)^(f.scale bits + ((f.significand bits).size - 1)) ≤ f.magnitude bits ∧
      f.magnitude bits < 2^(f.scale bits + ((f.significand bits).size - 1) + 1) := by
  have hsize : 0 < (f.significand bits).size := Nat.size_pos.mpr (Nat.pos_of_ne_zero h)
  have hlo : 2^((f.significand bits).size - 1) ≤ f.significand bits := Nat.lt_size.mp (by omega)
  have hhi : f.significand bits < 2^(f.significand bits).size := Nat.lt_size_self _
  have hu : (0 : ℚ) < 2^f.scale bits := by positivity
  unfold magnitude
  constructor
  · rw [zpow_add₀ (by norm_num), mul_comm, ← Nat.cast_pred hsize, zpow_natCast]
    exact mul_le_mul_of_nonneg_right (by exact_mod_cast hlo) hu.le
  · rw [add_assoc, sub_add_cancel, zpow_add₀ (by norm_num), mul_comm, zpow_natCast]
    exact mul_lt_mul_of_pos_left (by exact_mod_cast hhi) hu

/-- The magnitudes compare as their leading bits do, and then as their lined up significands. -/
theorem compare_magnitudes (hl : f.significand left ≠ 0)
    (hr : f.significand right ≠ 0) (hwl : (f.significand left).size ≤ width)
    (hwr : (f.significand right).size ≤ width) :
    (compare (f.scale left + ((f.significand left).size - 1) : ℤ)
      (f.scale right + ((f.significand right).size - 1))).then
      (compare (f.significand left * 2^(width - (f.significand left).size))
        (f.significand right * 2^(width - (f.significand right).size))) =
      cmp (f.magnitude left) (f.magnitude right) := by
  obtain ⟨hl1, hl2⟩ := f.magnitude_between hl
  obtain ⟨hr1, hr2⟩ := f.magnitude_between hr
  rcases lt_trichotomy (f.scale left + ((f.significand left).size - 1) : ℤ)
    (f.scale right + ((f.significand right).size - 1)) with h | h | h
  · have hlt : f.magnitude left < f.magnitude right :=
      hl2.trans_le (le_trans (zpow_le_zpow_right₀ (by norm_num) (by omega)) hr1)
    rw [compare_lt_iff_lt.mpr h, (cmp_eq_lt_iff _ _).mpr hlt]
    rfl
  · -- Lined up, both are in units of the same power.
    have hunit : ∀ bits : ℕ, (f.significand bits).size ≤ width →
        f.magnitude bits = ((f.significand bits * 2^(width - (f.significand bits).size) : ℕ) : ℚ) *
          2^(f.scale bits + (f.significand bits).size - width) := by
      intro bits hw
      have hpow : (2 : ℚ)^f.scale bits = ((2^(width - (f.significand bits).size) : ℕ) : ℚ) *
          2^(f.scale bits + (f.significand bits).size - width) := by
        rw [Nat.cast_pow, Nat.cast_ofNat, ← zpow_natCast, ← zpow_add₀ (by norm_num)]
        congr 1
        rw [Nat.cast_sub hw]
        ring
      rw [magnitude, hpow, Nat.cast_mul, mul_assoc]
    have hsame : f.scale right + (f.significand right).size - width =
        f.scale left + (f.significand left).size - width := by omega
    rw [compare_eq_iff_eq.mpr h, hunit left hwl, hunit right hwr, hsame]
    have hu : (0 : ℚ) < 2^(f.scale left + (f.significand left).size - width) := by positivity
    generalize f.significand left * 2^(width - (f.significand left).size) = a
    generalize f.significand right * 2^(width - (f.significand right).size) = b
    change compare a b = _
    rcases lt_trichotomy a b with hab | hab | hab
    · rw [compare_lt_iff_lt.mpr hab, (cmp_eq_lt_iff _ _).mpr]
      exact mul_lt_mul_of_pos_right (by exact_mod_cast hab) hu
    · rw [compare_eq_iff_eq.mpr hab, hab, cmp_self_eq_eq]
    · rw [compare_gt_iff_gt.mpr hab, (cmp_eq_gt_iff _ _).mpr]
      exact mul_lt_mul_of_pos_right (by exact_mod_cast hab) hu
  · have hlt : f.magnitude right < f.magnitude left :=
      hr2.trans_le (le_trans (zpow_le_zpow_right₀ (by norm_num) (by omega)) hl1)
    rw [compare_gt_iff_gt.mpr h, (cmp_eq_gt_iff _ _).mpr hlt]
    rfl

/-- The order of two patterns is the order of their values. -/
theorem order_eq (hwl : (f.significand left).size ≤ width) (hwr : (f.significand right).size ≤ width) :
    f.order width left right = cmp (f.value left) (f.value right) := by
  unfold order
  dsimp only
  split_ifs with hzero hl hnr hr hnl hsame hnl hnl
  · rw [f.value_eq_zero.mpr hzero.1, f.value_eq_zero.mpr hzero.2, cmp_self_eq_eq]
  · rw [f.value_eq_zero.mpr hl]
    exact ((cmp_eq_gt_iff _ _).mpr ((f.value_neg_iff fun h => hzero ⟨hl, h⟩).mpr hnr)).symm
  · rw [f.value_eq_zero.mpr hl]
    exact ((cmp_eq_lt_iff _ _).mpr ((f.value_pos_iff fun h => hzero ⟨hl, h⟩).mpr hnr)).symm
  · rw [f.value_eq_zero.mpr hr]
    exact ((cmp_eq_lt_iff _ _).mpr ((f.value_neg_iff hl).mpr hnl)).symm
  · rw [f.value_eq_zero.mpr hr]
    exact ((cmp_eq_gt_iff _ _).mpr ((f.value_pos_iff hl).mpr hnl)).symm
  · rw [f.compare_magnitudes hl hr hwl hwr, cmp_swap, value, value, if_pos hnl,
      if_pos (hsame.mp hnl)]
    rcases lt_trichotomy (f.magnitude right) (f.magnitude left) with h | h | h
    · rw [(cmp_eq_lt_iff _ _).mpr h, (cmp_eq_lt_iff _ _).mpr (neg_lt_neg h)]
    · rw [h, cmp_self_eq_eq, cmp_self_eq_eq]
    · rw [(cmp_eq_gt_iff _ _).mpr h, (cmp_eq_gt_iff _ _).mpr (neg_lt_neg h)]
  · rw [f.compare_magnitudes hl hr hwl hwr, value, value, if_neg hnl,
      if_neg fun h => hnl (hsame.mpr h)]
  · refine ((cmp_eq_lt_iff _ _).mpr ?_).symm
    exact ((f.value_neg_iff hl).mpr hnl).trans ((f.value_pos_iff hr).mpr fun h => hsame (by tauto))
  · refine ((cmp_eq_gt_iff _ _).mpr ?_).symm
    exact ((f.value_neg_iff hr).mpr (by tauto)).trans ((f.value_pos_iff hl).mpr hnl)

/-- The real number a pattern stands for, with the two infinities around them. -/
def extended (bits : ℕ) : WithBot (WithTop ℚ) :=
  if f.Infinite bits then if f.Negative bits then ⊥ else ((⊤ : WithTop ℚ) : WithBot (WithTop ℚ))
  else ((f.value bits : WithTop ℚ) : WithBot (WithTop ℚ))

/-- The magnitude an infinity would have is past every finite one. -/
theorem magnitude_infinite (h : f.Infinite bits) : f.magnitude bits = 2^(f.bias + 1) := by
  obtain ⟨hst, hfr⟩ := h
  have hb := f.bias_pos
  have htop := f.top_eq
  have h0 : f.stored bits ≠ 0 := by omega
  unfold magnitude significand scale
  rw [if_neg h0, if_neg h0, hst, hfr, zero_add, implicit, htop, Nat.cast_pow, Nat.cast_ofNat,
    ← zpow_natCast, ← zpow_add₀ (by norm_num)]
  congr 1
  ring

theorem magnitude_finite (h : f.Finite bits) : f.magnitude bits < 2^(f.bias + 1) := by
  have hsig : (f.significand bits : ℚ) < 2^((f.fraction : ℤ) + 1) := by
    have := f.significand_lt bits
    rw [implicit, ← pow_succ'] at this
    rw [← Nat.cast_add_one, zpow_natCast]
    exact_mod_cast this
  have hscale : (2 : ℚ)^f.scale bits ≤ 2^(f.bias - f.fraction) :=
    zpow_le_zpow_right₀ (by norm_num) (f.scale_le h)
  calc f.magnitude bits < 2^((f.fraction : ℤ) + 1) * 2^f.scale bits :=
        mul_lt_mul_of_pos_right hsig (by positivity)
    _ ≤ 2^((f.fraction : ℤ) + 1) * 2^(f.bias - f.fraction) :=
        mul_le_mul_of_nonneg_left hscale (by positivity)
    _ = 2^(f.bias + 1) := by
        rw [← zpow_add₀ (by norm_num)]
        congr 1
        ring

/-- Patterns that are numbers compare as what they stand for, the infinities with them. -/
theorem extended_lt (hl : ¬f.NaN left) (hr : ¬f.NaN right) :
    f.extended left < f.extended right ↔ f.value left < f.value right := by
  have hfl := fun hi => abs_lt.mp ((f.abs_value left).trans_lt (f.magnitude_finite (f.finite_of_not hl hi)))
  have hfr := fun hi =>
    abs_lt.mp ((f.abs_value right).trans_lt (f.magnitude_finite (f.finite_of_not hr hi)))
  have hpos : (0 : ℚ) < 2^(f.bias + 1) := by positivity
  have hinf : ∀ {bits : ℕ}, f.Infinite bits →
      f.value bits = if f.Negative bits then -2^(f.bias + 1) else 2^(f.bias + 1) := fun h => by
    rw [value, f.magnitude_infinite h]
  unfold extended
  by_cases hil : f.Infinite left
  · rw [if_pos hil, hinf hil]
    by_cases hir : f.Infinite right
    · rw [if_pos hir, hinf hir]
      by_cases hnl : f.Negative left <;> by_cases hnr : f.Negative right <;>
        simp [hnl, hnr] <;> linarith
    · have := hfr hir
      rw [if_neg hir]
      by_cases hnl : f.Negative left <;> simp [hnl] <;> linarith
  · have := hfl hil
    rw [if_neg hil]
    by_cases hir : f.Infinite right
    · rw [if_pos hir, hinf hir]
      by_cases hnr : f.Negative right
      · simp [hnr]
        linarith
      · rw [if_neg hnr, if_neg hnr]
        exact iff_of_true (WithBot.coe_lt_coe.mpr (WithTop.coe_lt_top _)) this.2
    · rw [if_neg hir]
      simp

theorem cmp_extended (hl : ¬f.NaN left) (hr : ¬f.NaN right) :
    cmp (f.extended left) (f.extended right) = cmp (f.value left) (f.value right) := by
  unfold cmp cmpUsing
  simp only [f.extended_lt hl hr, f.extended_lt hr hl]

/-! ## Integers -/

/-- A number without its fraction. -/
def truncated (x : ℚ) : ℤ := if x < 0 then ⌈x⌉ else ⌊x⌋

/-- The part of a magnitude on the integer side of the point. -/
def integerPart (bits : ℕ) : ℕ :=
  if 0 ≤ f.scale bits then f.significand bits * 2^(f.scale bits).toNat
  else f.significand bits / 2^(-f.scale bits).toNat

theorem floor_magnitude (bits : ℕ) : ⌊f.magnitude bits⌋ = f.integerPart bits := by
  unfold integerPart magnitude
  split_ifs with h
  · have hpow : (2 : ℚ)^f.scale bits = ((2^(f.scale bits).toNat : ℕ) : ℚ) := by
      rw [Nat.cast_pow, Nat.cast_ofNat, ← zpow_natCast, Int.toNat_of_nonneg h]
    rw [hpow, ← Nat.cast_mul, Int.floor_natCast]
  · have hpow : (2 : ℚ)^f.scale bits = 1 / ((2^(-f.scale bits).toNat : ℕ) : ℚ) := by
      rw [Nat.cast_pow, Nat.cast_ofNat, ← zpow_natCast, Int.toNat_of_nonneg (by omega), zpow_neg,
        one_div, inv_inv]
    rw [hpow, mul_one_div, Rat.floor_natCast_div_natCast]
    rfl

/-- The truncated value is the integer part with the sign of the value. -/
theorem truncated_value (bits : ℕ) : truncated (f.value bits) =
      if f.Negative bits then -(f.integerPart bits : ℤ) else f.integerPart bits := by
  have h0 := f.magnitude_nonneg bits
  rw [← floor_magnitude]
  unfold truncated value
  split_ifs with hn hlt hlt
  · exact Int.ceil_neg
  · have : f.magnitude bits = 0 := by linarith
    rw [this]
    simp
  · linarith
  · rfl

end Rucc.Interchange
