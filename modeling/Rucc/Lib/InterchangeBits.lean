import Mathlib.Data.Nat.Bitwise
import Rucc.Lib.SoftArith

/-!
# The fields of a pattern by bit operations

What a program reads and writes of a pattern with shifts, masks and the exclusive or, as the fields of
the format.
-/

namespace Rucc.Interchange

variable (f : Interchange)

variable {m s bits left right : ℕ}

/-- The exponent, shifted down and masked. -/
theorem shift_and_top (bits : ℕ) : (bits >>> f.fraction) &&& f.top = f.stored bits := by
  rw [top, Nat.and_two_pow_sub_one_eq_mod, Nat.shiftRight_eq_div_pow]
  rfl

/-- The fraction, masked. -/
theorem and_mask (bits : ℕ) : bits &&& (f.implicit - 1) = f.fractionOf bits :=
  Nat.and_two_pow_sub_one_eq_mod _ _

/-- The fraction with the implied bit put in. -/
theorem or_implicit (h : m < f.implicit) : m ||| f.implicit = m + f.implicit := by
  have := Nat.two_pow_add_eq_or_of_lt h 1
  rw [mul_one] at this
  rw [Nat.or_comm, add_comm]
  exact this.symm

/-- A sign bit put in front of what is below it. -/
theorem or_of_lt (hs : s = 0 ∨ s = f.sign) (h : m < f.sign) : s ||| m = s + m := by
  rcases hs with rfl | rfl
  · rw [Nat.zero_or, zero_add]
  · have := Nat.two_pow_add_eq_or_of_lt h 1
    rw [mul_one] at this
    exact this.symm

/-- The sign bit is the one that the pattern tests. -/
theorem testBit_sign (h : f.Pattern bits) : bits.testBit (f.exponent + f.fraction) = decide (f.Negative bits) := by
  have hpos := f.sign_pos
  rw [Nat.testBit_eq_decide_div_mod_eq]
  change decide (bits / f.sign % 2 = 1) = _
  rw [decide_eq_decide]
  unfold Pattern at h
  unfold Negative
  have hlt : bits / f.sign < 2 := (Nat.div_lt_iff_lt_mul hpos).mpr h
  have hle : 1 ≤ bits / f.sign ↔ f.sign ≤ bits := by
    rw [Nat.le_div_iff_mul_le hpos, Nat.one_mul]
  generalize bits / f.sign = q at *
  omega

/-- The sign bit, masked. -/
theorem and_sign (h : f.Pattern bits) : bits &&& f.sign = f.signOf bits := by
  have := Nat.and_two_pow bits (f.exponent + f.fraction)
  rw [f.testBit_sign h] at this
  change bits &&& f.sign = _ * f.sign at this
  rw [this, signOf]
  split_ifs with hn <;> simp [hn]

/-- The pattern without its sign, masked. -/
theorem and_not_sign (h : f.Pattern bits) : bits &&& (f.sign - 1) = f.unsigned bits := by
  have hlow : f.unsigned bits < f.sign := by
    have hs := f.sign_eq_top
    have hfr := f.fractionOf_lt bits
    have : f.stored bits * f.implicit ≤ f.top * f.implicit :=
      Nat.mul_le_mul_right _ (f.stored_le bits)
    unfold unsigned
    omega
  have heq : bits = f.signOf bits + f.unsigned bits := by
    rw [unsigned, ← add_assoc]
    exact f.eq_fields h
  have hmod : bits &&& (f.sign - 1) = bits % f.sign := Nat.and_two_pow_sub_one_eq_mod _ _
  rw [hmod]
  conv_lhs => rw [heq]
  rcases f.signOf_eq bits with hs | hs
  · rw [hs, zero_add, Nat.mod_eq_of_lt hlow]
  · rw [hs, Nat.add_mod_left, Nat.mod_eq_of_lt hlow]

/-- The mixed sign, by the exclusive or of the two patterns. -/
theorem xor_and_sign (hl : f.Pattern left) (hr : f.Pattern right) :
    (left ^^^ right) &&& f.sign = f.mixed left right := by
  have := Nat.and_two_pow (left ^^^ right) (f.exponent + f.fraction)
  rw [Nat.testBit_xor, f.testBit_sign hl, f.testBit_sign hr] at this
  change _ &&& f.sign = _ * f.sign at this
  rw [this, mixed]
  by_cases hnl : f.Negative left <;> by_cases hnr : f.Negative right <;> simp [hnl, hnr]

/-- The mixed sign is there where the signs differ. -/
theorem mixed_ne_zero : f.mixed left right ≠ 0 ↔ ¬(f.Negative left ↔ f.Negative right) := by
  rw [← f.mixed_eq_sign]
  rcases f.mixed_eq left right with h | h
  · rw [h]
    exact iff_of_false (not_not.mpr rfl) f.sign_pos.ne
  · rw [h]
    exact iff_of_true f.sign_pos.ne' rfl

theorem mixed_comm (left right : ℕ) : f.mixed left right = f.mixed right left := by
  unfold mixed
  simp only [iff_comm]

/-- Both sign bits at once. -/
theorem and_and_sign (hl : f.Pattern left) (hr : f.Pattern right) :
    left &&& right &&& f.sign = if f.Negative left ∧ f.Negative right then f.sign else 0 := by
  rw [Nat.and_assoc, f.and_sign hr]
  unfold signOf
  by_cases hnr : f.Negative right
  · rw [if_pos hnr, f.and_sign hl, signOf]
    simp only [hnr, and_true]
  · rw [if_neg hnr, Nat.and_zero]
    simp only [hnr, and_false, if_false]

/-- An exponent and a fraction side by side, below the sign. -/
theorem or_exponent {e : ℕ} (hs : s = 0 ∨ s = f.sign) (he : e ≤ f.top) (hm : m < f.implicit) :
    s ||| (e * f.implicit ||| m) = s + e * f.implicit + m := by
  have hor : e * f.implicit ||| m = e * f.implicit + m := by
    have := Nat.shiftLeft_add_eq_or_of_lt hm e
    rw [Nat.shiftLeft_eq] at this
    exact this.symm
  have hlow : e * f.implicit + m < f.sign := by
    have := f.sign_eq_top
    have : e * f.implicit ≤ f.top * f.implicit := Nat.mul_le_mul_right _ he
    omega
  rw [hor, f.or_of_lt hs hlow, add_assoc]

/-- A pattern has no magnitude bits exactly when its significand is zero. -/
theorem unsigned_eq_zero : f.unsigned bits = 0 ↔ f.significand bits = 0 := by
  have := f.implicit_pos
  unfold unsigned significand
  rw [Nat.add_eq_zero_iff, Nat.mul_eq_zero]
  split_ifs with h
  · simp [h]
  · simp only [h, false_or, this.ne', Nat.add_eq_zero_iff, and_false, false_and]

/-- A low number with a power of two flipped into it. -/
theorem xor_two_pow {k low : ℕ} (h : low < 2^k) : low ^^^ 2^k = 2^k + low := by
  have hor := Nat.two_pow_add_eq_or_of_lt h 1
  rw [mul_one] at hor
  rw [hor]
  refine Nat.eq_of_testBit_eq fun i => ?_
  rw [Nat.testBit_xor, Nat.testBit_or, Nat.testBit_two_pow]
  by_cases hi : k = i
  · rw [← hi, Nat.testBit_lt_two_pow h]
    simp
  · simp [hi]

/-- The sign bit flipped: the other fields stay. -/
theorem flip_fields (h : f.Pattern bits) :
    f.Pattern (bits ^^^ f.sign) ∧ f.stored (bits ^^^ f.sign) = f.stored bits ∧
      f.fractionOf (bits ^^^ f.sign) = f.fractionOf bits ∧
      (f.Negative (bits ^^^ f.sign) ↔ ¬f.Negative bits) := by
  have hlow : f.unsigned bits < f.sign := by
    have := Nat.mod_lt bits f.sign_pos
    have hmod : bits &&& (f.sign - 1) = bits % f.sign := Nat.and_two_pow_sub_one_eq_mod _ _
    rwa [← hmod, f.and_not_sign h] at this
  have heq : bits = f.signOf bits + f.unsigned bits := by
    rw [unsigned, ← add_assoc]
    exact f.eq_fields h
  have hst := f.stored_le bits
  have hfr := f.fractionOf_lt bits
  have hxor : f.unsigned bits ^^^ f.sign = f.sign + f.unsigned bits := xor_two_pow hlow
  by_cases hn : f.Negative bits
  · have hflip : bits ^^^ f.sign = 0 + f.stored bits * f.implicit + f.fractionOf bits := by
      conv_lhs => rw [heq, signOf, if_pos hn, ← hxor]
      rw [Nat.xor_assoc, Nat.xor_self, Nat.xor_zero, zero_add]
      rfl
    obtain ⟨hp, hs, hf, hneg⟩ := @fields f 0 _ _ (Or.inl rfl) hst hfr
    rw [hflip]
    exact ⟨hp, hs, hf, hneg.trans (iff_of_false f.sign_pos.ne (not_not.mpr hn))⟩
  · have hflip : bits ^^^ f.sign = f.sign + f.stored bits * f.implicit + f.fractionOf bits := by
      conv_lhs => rw [heq, signOf, if_neg hn, zero_add, hxor]
      rw [unsigned, add_assoc]
    obtain ⟨hp, hs, hf, hneg⟩ := @fields f f.sign _ _ (Or.inr rfl) hst hfr
    rw [hflip]
    exact ⟨hp, hs, hf, hneg.trans (iff_of_true rfl hn)⟩

/-- The sign bit flipped negates the value. -/
theorem value_flip (h : f.Pattern bits) : f.value (bits ^^^ f.sign) = -f.value bits := by
  obtain ⟨-, hs, hf, hneg⟩ := f.flip_fields h
  have hmag : f.magnitude (bits ^^^ f.sign) = f.magnitude bits := by
    unfold magnitude significand scale
    rw [hs, hf]
  unfold value
  rw [hmag]
  by_cases hn : f.Negative bits
  · rw [if_neg (not_not.mpr hn ∘ hneg.mp), if_pos hn, neg_neg]
  · rw [if_pos (hneg.mpr hn), if_neg hn]

/-- The sign bit flipped keeps the significand and its scale. -/
theorem significand_flip (h : f.Pattern bits) : f.significand (bits ^^^ f.sign) = f.significand bits ∧
      f.scale (bits ^^^ f.sign) = f.scale bits := by
  obtain ⟨-, hs, hf, -⟩ := f.flip_fields h
  unfold significand scale
  rw [hs, hf]
  exact ⟨rfl, rfl⟩

/-- A sum with the sign of a right operand that is a number flipped is the difference. -/
theorem subtracts_of_adds (hr : f.Pattern right)
    (h : f.Adds left (if f.NaN right then right else right ^^^ f.sign) bits) :
    f.Subtracts left right bits := by
  obtain ⟨-, hs, hf, hneg⟩ := f.flip_fields hr
  have hv := f.value_flip hr
  unfold Adds at h
  unfold Subtracts
  by_cases hnr : f.NaN right
  · simp only [if_pos hnr] at h ⊢
    exact h
  have hnf : ¬f.NaN (right ^^^ f.sign) := by
    unfold NaN
    rw [hs, hf]
    exact hnr
  have hif : f.Infinite (right ^^^ f.sign) ↔ f.Infinite right := by
    unfold Infinite
    rw [hs, hf]
  have hinf : f.Infinite right →
      right ^^^ f.sign = f.infinity (if f.Negative right then 0 else f.sign) := by
    intro hi
    have := f.eq_fields (f.flip_fields hr).1
    rw [hs, hf, hi.1, hi.2, signOf] at this
    rw [this, infinity]
    by_cases hn : f.Negative right <;> simp [hn, hneg]
  have hsigns : ¬(f.Negative left ↔ ¬f.Negative right) ↔ (f.Negative left ↔ f.Negative right) := by
    tauto
  simp only [if_neg hnr, if_neg hnf, hif, hneg, hv, neg_eq_zero, hsigns, ← sub_eq_add_neg] at h ⊢
  by_cases hir : f.Infinite right
  · simpa only [if_pos hir, hinf hir] using h
  · simpa only [if_neg hir] using h

end Rucc.Interchange
