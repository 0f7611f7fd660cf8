import Mathlib.Tactic

/-!
# Machine integers as checked integers

A signed machine integer is modelled by the integer it holds. An operation that would leave the
range stops the program, which is `none` here, unless it is one that saturates.
-/

namespace Rucc.Checked

variable {bits a b n : ℕ} {z x : ℤ}

/-- The integers a signed word of `bits` bits holds. -/
def Fits (bits : ℕ) (z : ℤ) : Prop := -2^(bits - 1) ≤ z ∧ z < 2^(bits - 1)

instance (bits : ℕ) (z : ℤ) : Decidable (Fits bits z) := inferInstanceAs (Decidable (_ ∧ _))

/-- The result of an operation whose exact result is `z`, or nothing when it overflows. -/
def checked (bits : ℕ) (z : ℤ) : Option ℤ := if Fits bits z then some z else none

/-- The result of a saturating operation whose exact result is `z`. -/
def saturated (bits : ℕ) (z : ℤ) : ℤ := max (-2^(bits - 1)) (min (2^(bits - 1) - 1) z)

theorem checked_of_fits (h : Fits bits z) : checked bits z = some z := if_pos h

theorem checked_of_not_fits (h : ¬ Fits bits z) : checked bits z = none :=
  if_neg h

@[simp]
theorem checked_eq_some {w : ℤ} : checked bits z = some w ↔ Fits bits z ∧ z = w := by
  unfold checked
  split_ifs with h <;> simp [h]

theorem Fits.mono {width bits : ℕ} {z : ℤ} (h : Fits width z) (hw : width ≤ bits) :
    Fits bits z := by
  have hpow : (2 : ℤ)^(width - 1) ≤ 2^(bits - 1) := pow_le_pow_right₀ (by norm_num) (by omega)
  unfold Fits at h ⊢
  omega

/-- A saturated bound still bounds what fits from below. -/
theorem saturated_le (hx : x ≤ z) (hz : Fits bits z) : saturated bits x ≤ z := by
  have := hz.1
  unfold saturated
  omega

/-- A saturated bound still bounds what fits from above. -/
theorem le_saturated (hx : z ≤ x) (hz : Fits bits z) : z ≤ saturated bits x := by
  have := hz.2
  unfold saturated
  omega

/-- The difference of two unsigned words, or nothing when it would be negative. -/
def checkedSub (a b : ℕ) : Option ℕ := if b ≤ a then some (a - b) else none

theorem checkedSub_of_le (h : b ≤ a) : checkedSub a b = some (a - b) := if_pos h

@[simp]
theorem checkedSub_eq_some {c : ℕ} : checkedSub a b = some c ↔ b ≤ a ∧ a - b = c := by
  unfold checkedSub
  split_ifs with h <;> simp [h]

/-- The result of an operation on unsigned words of 64 bits whose exact result is `n`, or nothing when it
overflows. -/
def checkedWord (n : ℕ) : Option ℕ := if n < 2^64 then some n else none

theorem checkedWord_of_lt (h : n < 2^64) : checkedWord n = some n := if_pos h

@[simp]
theorem checkedWord_eq_some {m : ℕ} : checkedWord n = some m ↔ n < 2^64 ∧ n = m := by
  unfold checkedWord
  split_ifs with h <;> simp only [Option.some.injEq, h, true_and, false_and]

@[simp]
theorem checkedWord_eq_none : checkedWord n = none ↔ 2^64 ≤ n := by
  unfold checkedWord
  split_ifs with h <;> simp <;> omega

end Rucc.Checked
