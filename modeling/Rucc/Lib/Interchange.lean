import Mathlib.Data.Nat.Size
import Rucc.Lib.Rounding

/-!
# IEEE 754 binary interchange formats

A pattern of a binary interchange format is a natural number: a sign bit over a stored exponent over a
fraction. `Interchange` is such a format for any two widths, `value` is the number that a finite
pattern stands for, and `RoundsTo` says that a pattern is what round to nearest with ties to even
makes of a number.

`round` is the one rounding that software arithmetic ends in: it takes an integer, the power of two
that its lowest bit is worth, and whether there is a little more than that. `round_spec` says that it
rounds correctly wherever the little more cannot lie above the lowest bit kept.
-/

namespace Rucc

open Rounding

/-- A binary interchange format, by the widths of its two fields. -/
structure Interchange where
  /-- The bits of the significand that are written down, the other one being implied. -/
  fraction : ℕ
  /-- The bits of the exponent. -/
  exponent : ℕ
  fraction_pos : 0 < fraction
  one_lt_exponent : 1 < exponent

namespace Interchange

variable (f : Interchange)

variable {bits : ℕ}

/-! ## Fields -/

/-- What is added to an exponent before it is stored. -/
def bias : ℤ := 2^(f.exponent - 1) - 1

/-- The stored exponent of an infinity and of a not a number. -/
def top : ℕ := 2^f.exponent - 1

/-- The bit of a significand that is not written down. -/
def implicit : ℕ := 2^f.fraction

/-- The sign bit. -/
def sign : ℕ := 2^(f.exponent + f.fraction)

/-- What the lowest bit of the smallest subnormal is worth. -/
def smallest : ℤ := 1 - f.bias - f.fraction

/-- A pattern is one of as many bits as the three fields have. -/
def Pattern (bits : ℕ) : Prop := bits < 2 * f.sign

instance (bits : ℕ) : Decidable (f.Pattern bits) := inferInstanceAs (Decidable (_ < _))

/-- The exponent as it is stored. -/
def stored (bits : ℕ) : ℕ := bits / f.implicit % 2^f.exponent

/-- The fraction as it is stored. -/
def fractionOf (bits : ℕ) : ℕ := bits % f.implicit

/-- The sign bit of a pattern. -/
def Negative (bits : ℕ) : Prop := f.sign ≤ bits

instance (bits : ℕ) : Decidable (f.Negative bits) := inferInstanceAs (Decidable (_ ≤ _))

/-- The pattern stands for a number. -/
def Finite (bits : ℕ) : Prop := f.stored bits ≠ f.top

instance (bits : ℕ) : Decidable (f.Finite bits) := inferInstanceAs (Decidable (_ ≠ _))

/-- The pattern stands for an infinity. -/
def Infinite (bits : ℕ) : Prop := f.stored bits = f.top ∧ f.fractionOf bits = 0

instance (bits : ℕ) : Decidable (f.Infinite bits) := inferInstanceAs (Decidable (_ ∧ _))

/-- The pattern stands for no number. -/
def NaN (bits : ℕ) : Prop := f.stored bits = f.top ∧ f.fractionOf bits ≠ 0

instance (bits : ℕ) : Decidable (f.NaN bits) := inferInstanceAs (Decidable (_ ∧ _))

/-! ## Values -/

/-- The significand, with the bit that is not written down. -/
def significand (bits : ℕ) : ℕ :=
  if f.stored bits = 0 then f.fractionOf bits else f.fractionOf bits + f.implicit

/-- The power of two that the lowest bit of the significand is worth. -/
def scale (bits : ℕ) : ℤ :=
  if f.stored bits = 0 then f.smallest else f.stored bits - f.bias - f.fraction

/-- The magnitude of a finite pattern. -/
def magnitude (bits : ℕ) : ℚ := f.significand bits * 2^f.scale bits

/-- The number that a finite pattern stands for. -/
def value (bits : ℕ) : ℚ := if f.Negative bits then -f.magnitude bits else f.magnitude bits

theorem two_even : 2 % 2 = 0 := rfl

/-- The grid of the format's magnitudes. -/
def grid : Grid where
  base := 2
  precision := f.fraction + 1
  least := f.smallest
  most := f.bias - f.fraction
  one_lt_base := Nat.one_lt_two
  base_even := two_even
  one_lt_precision := by have := f.fraction_pos; omega
  least_le_most := by
    have h : (2 : ℤ)^1 ≤ 2^(f.exponent - 1) :=
      pow_le_pow_right₀ (by norm_num) (by have := f.one_lt_exponent; omega)
    unfold smallest bias
    omega

/-- What round to nearest with ties to even makes of a number, as a pattern. The sign of a number that
rounds to zero stays, and zero itself is the positive one. -/
structure RoundsTo (x : ℚ) (bits : ℕ) : Prop where
  pattern : f.Pattern bits
  number : ¬f.NaN bits
  negative : f.Negative bits ↔ x < 0
  rounds : f.grid.Rounds |x| (if f.Finite bits then some (f.magnitude bits) else none)

/-! ## Facts about the fields -/

@[simp] theorem grid_base : f.grid.base = 2 := rfl
@[simp] theorem grid_precision : f.grid.precision = f.fraction + 1 := rfl
@[simp] theorem grid_least : f.grid.least = f.smallest := rfl
@[simp] theorem grid_most : f.grid.most = f.bias - f.fraction := rfl
@[simp] theorem grid_top : f.grid.top = 2^(f.fraction + 1) := rfl

@[simp]
theorem grid_unit (q : ℤ) : f.grid.unit q = (2 : ℚ)^q := by simp [Grid.unit]

theorem implicit_pos : 0 < f.implicit := by unfold implicit; positivity

theorem sign_pos : 0 < f.sign := by unfold sign; positivity

theorem one_lt_implicit : 1 < f.implicit := Nat.one_lt_two_pow f.fraction_pos.ne'

theorem bias_pos : 0 < f.bias := by
  have h : (2 : ℤ)^1 ≤ 2^(f.exponent - 1) :=
    pow_le_pow_right₀ (by norm_num) (by have := f.one_lt_exponent; omega)
  unfold bias
  omega

theorem top_succ : f.top + 1 = 2^f.exponent := Nat.sub_add_cancel Nat.one_le_two_pow

/-- The stored exponent of an infinity is one more than twice the bias. -/
theorem top_eq : (f.top : ℤ) = 2 * f.bias + 1 := by
  have h : (2 : ℤ)^f.exponent = 2 * 2^(f.exponent - 1) := by
    rw [← pow_succ']
    congr 1
    have := f.one_lt_exponent
    omega
  have h' : ((f.top : ℤ)) + 1 = 2^f.exponent := by exact_mod_cast f.top_succ
  unfold bias
  omega

theorem sign_eq : f.sign = 2^f.exponent * f.implicit := pow_add _ _ _

theorem sign_eq_top : f.sign = f.top * f.implicit + f.implicit := by
  rw [sign_eq, ← top_succ]
  ring

theorem fractionOf_lt (bits : ℕ) : f.fractionOf bits < f.implicit :=
  Nat.mod_lt _ f.implicit_pos

theorem stored_le (bits : ℕ) : f.stored bits ≤ f.top := by
  have := Nat.mod_lt (bits / f.implicit) (Nat.two_pow_pos f.exponent)
  have := f.top_succ
  unfold stored
  omega

theorem significand_lt (bits : ℕ) : f.significand bits < 2 * f.implicit := by
  have := f.fractionOf_lt bits
  unfold significand
  split_ifs <;> omega

/-- A significand is shorter than the precision only at the bottom of the format. -/
theorem implicit_le_significand {bits : ℕ} (h : f.scale bits ≠ f.smallest) :
    f.implicit ≤ f.significand bits := by
  unfold scale at h
  unfold significand
  split_ifs at h ⊢ with h0
  · exact absurd rfl h
  · omega

theorem smallest_le_scale (bits : ℕ) : f.smallest ≤ f.scale bits := by
  unfold scale smallest
  split_ifs <;> omega

/-- The scale of a finite pattern is one of the grid's. -/
theorem scale_le (h : f.Finite bits) : f.scale bits ≤ f.bias - f.fraction := by
  have hle := f.stored_le bits
  have hb := f.bias_pos
  have htop := f.top_eq
  unfold Finite at h
  unfold scale smallest
  split_ifs <;> omega

theorem magnitude_nonneg (bits : ℕ) : 0 ≤ f.magnitude bits := by
  unfold magnitude
  positivity

/-- The magnitude of a finite pattern is on the grid. -/
theorem holds_magnitude (h : f.Finite bits) : f.grid.Holds (f.magnitude bits) := by
  refine ⟨f.significand bits, f.scale bits, ?_, f.smallest_le_scale bits, f.scale_le h, ?_⟩
  · have := f.significand_lt bits
    rw [grid_top, pow_succ, mul_comm]
    exact this
  · rw [grid_unit]
    rfl

theorem abs_value (bits : ℕ) : |f.value bits| = f.magnitude bits := by
  have h := f.magnitude_nonneg bits
  unfold value
  split_ifs
  · rw [abs_neg, abs_of_nonneg h]
  · exact abs_of_nonneg h

theorem magnitude_eq_zero : f.magnitude bits = 0 ↔ f.significand bits = 0 := by
  unfold magnitude
  rw [mul_eq_zero, Nat.cast_eq_zero]
  exact or_iff_left (by positivity)

/-- A pattern from its fields. -/
theorem fields {s e m : ℕ} (hs : s = 0 ∨ s = f.sign) (he : e ≤ f.top) (hm : m < f.implicit) :
    f.Pattern (s + e * f.implicit + m) ∧ f.stored (s + e * f.implicit + m) = e ∧
      f.fractionOf (s + e * f.implicit + m) = m ∧
      (f.Negative (s + e * f.implicit + m) ↔ s = f.sign) := by
  have hpos := f.implicit_pos
  have htop := f.sign_eq_top
  have hsign := f.sign_eq
  have hlow : e * f.implicit + m < f.sign := by
    have : e * f.implicit ≤ f.top * f.implicit := Nat.mul_le_mul_right _ he
    omega
  have hdiv : (s + e * f.implicit + m) / f.implicit = s / f.implicit + e := by
    rcases hs with rfl | rfl
    · rw [zero_add, Nat.zero_div, zero_add, mul_comm, Nat.mul_add_div hpos, Nat.div_eq_of_lt hm,
        add_zero]
    · rw [hsign, ← add_mul, Nat.mul_div_cancel _ hpos, mul_comm, Nat.mul_add_div hpos,
        Nat.div_eq_of_lt hm, add_zero]
  have hmod : (s + e * f.implicit + m) % f.implicit = m := by
    rcases hs with rfl | rfl
    · rw [zero_add, mul_comm, Nat.mul_add_mod, Nat.mod_eq_of_lt hm]
    · rw [hsign, ← add_mul, mul_comm, Nat.mul_add_mod, Nat.mod_eq_of_lt hm]
  refine ⟨?_, ?_, hmod, ?_⟩
  · unfold Pattern
    omega
  · have he' : e < 2^f.exponent := by have := f.top_succ; omega
    unfold stored
    rw [hdiv]
    rcases hs with rfl | rfl
    · rw [Nat.zero_div, zero_add, Nat.mod_eq_of_lt he']
    · rw [hsign, Nat.mul_div_cancel _ hpos, Nat.add_mod_left, Nat.mod_eq_of_lt he']
  · have := f.sign_pos
    unfold Negative
    omega

/-- The sign bit of a pattern in its place. -/
def signOf (bits : ℕ) : ℕ := if f.Negative bits then f.sign else 0

theorem signOf_eq (bits : ℕ) : f.signOf bits = 0 ∨ f.signOf bits = f.sign := by
  unfold signOf
  split_ifs
  · exact Or.inr rfl
  · exact Or.inl rfl

/-- Every pattern is its fields. -/
theorem eq_fields (h : f.Pattern bits) : bits = f.signOf bits + f.stored bits * f.implicit + f.fractionOf bits := by
  have hsign := f.sign_eq
  have hsplit := Nat.div_add_mod bits f.implicit
  rw [mul_comm] at hsplit
  have hdiv : bits / f.implicit < 2 * 2^f.exponent := by
    rw [Nat.div_lt_iff_lt_mul f.implicit_pos, mul_assoc, ← hsign]
    exact h
  by_cases hn : f.Negative bits
  · have hge : 2^f.exponent ≤ bits / f.implicit := by
      rw [Nat.le_div_iff_mul_le f.implicit_pos, ← hsign]
      exact hn
    have hmod : f.stored bits = bits / f.implicit - 2^f.exponent := by
      unfold stored
      rw [Nat.mod_eq_sub_mod hge, Nat.mod_eq_of_lt (by omega)]
    have hle : 2^f.exponent * f.implicit ≤ bits / f.implicit * f.implicit :=
      Nat.mul_le_mul_right _ hge
    rw [signOf, if_pos hn, hmod, Nat.sub_mul, hsign]
    unfold fractionOf
    omega
  · have hlt : bits / f.implicit < 2^f.exponent := by
      rw [Nat.div_lt_iff_lt_mul f.implicit_pos, ← hsign]
      exact not_le.mp hn
    rw [signOf, if_neg hn, stored, Nat.mod_eq_of_lt hlt, zero_add]
    exact hsplit.symm

end Interchange

end Rucc
