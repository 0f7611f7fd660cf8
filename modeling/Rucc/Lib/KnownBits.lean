import Mathlib.Data.Nat.Bitwise
import Mathlib.Data.Nat.Size
import Mathlib.Tactic

/-!
# Partial knowledge of the bits of a number

`Agrees value unknown v` says that `v` has the bits of `value` everywhere outside the mask
`unknown`. What a mask says about the size of a number, and what an interval says about its bits,
are the two directions in which such a fact and an interval refine each other.
-/

namespace Rucc.KnownBits

variable {a b v k i : ℕ}

/-- `v` has the bits of `value` at every place where `unknown` is clear. -/
def Agrees (value unknown v : ℕ) : Prop :=
  ∀ i, unknown.testBit i = false → v.testBit i = value.testBit i

/-- A number whose set bits are all set in another is no larger. -/
theorem le_of_testBit_imp (h : ∀ i, a.testBit i = true → b.testBit i = true) : a ≤ b := by
  have hab : a &&& b = a := by
    apply Nat.eq_of_testBit_eq
    intro i
    rw [Nat.testBit_and]
    cases ha : a.testBit i with
    | false => rfl
    | true => simp [h i ha]
  rw [← hab]
  exact Nat.and_le_right

/-- A number has no bit set past its width. -/
theorem testBit_of_lt (hv : v < 2^k) (hi : k ≤ i) : v.testBit i = false :=
  Nat.testBit_lt_two_pow (lt_of_lt_of_le hv (Nat.pow_le_pow_right (by norm_num) hi))

/-- Two numbers with no set bit in common. -/
theorem testBit_of_and_eq_zero (h : a &&& b = 0) (hb : b.testBit i = true) : a.testBit i = false := by
  have hi : (a &&& b).testBit i = false := by rw [h, Nat.zero_testBit]
  rw [Nat.testBit_and, hb, Bool.and_true] at hi
  exact hi

namespace Agrees

variable {value unknown v : ℕ}

/-- The known bits alone are a lower bound. -/
theorem value_le (h : Agrees value unknown v) (hc : value &&& unknown = 0) : value ≤ v := by
  apply le_of_testBit_imp
  intro i hi
  have hu : unknown.testBit i = false := by
    rw [Nat.and_comm] at hc
    exact testBit_of_and_eq_zero hc hi
  rw [h i hu]
  exact hi

/-- The known bits with every unknown one set are an upper bound. -/
theorem le_or (h : Agrees value unknown v) : v ≤ value ||| unknown := by
  apply le_of_testBit_imp
  intro i hi
  rw [Nat.testBit_or]
  cases hu : unknown.testBit i with
  | false => rw [← h i hu, hi, Bool.true_or]
  | true => rw [Bool.or_true]

/-- The low bits that are clear in the upper bound are clear in the number. -/
theorem dvd (h : Agrees value unknown v) {k : ℕ}
    (hk : ∀ i < k, (value ||| unknown).testBit i = false) : 2^k ∣ v := by
  apply Nat.dvd_of_mod_eq_zero
  apply Nat.eq_of_testBit_eq
  intro i
  rw [Nat.testBit_mod_two_pow, Nat.zero_testBit]
  by_cases hi : i < k
  · have hor := hk i hi
    rw [Nat.testBit_or, Bool.or_eq_false_iff] at hor
    rw [h i hor.2, hor.1, Bool.and_false]
  · rw [decide_eq_false hi, Bool.false_and]

end Agrees

/-- Everything agrees with a value when nothing is known. -/
theorem agrees_of_lt {value : ℕ} (hvalue : value < 2^k) (hv : v < 2^k) : Agrees value (2^k - 1) v := by
  intro i hi
  have hk : k ≤ i := by
    rw [Nat.testBit_two_pow_sub_one] at hi
    simpa using hi
  rw [testBit_of_lt hv hk, testBit_of_lt hvalue hk]

/-- Every number of an interval has the bits above the highest place where its ends differ. -/
theorem agrees_of_between {lo hi : ℕ} (hlo : lo ≤ v) (hhi : v ≤ hi) : Agrees lo (2^(lo ^^^ hi).size - 1) v := by
  intro i hi'
  generalize hn : (lo ^^^ hi).size = n at hi'
  have hni : n ≤ i := by
    rw [Nat.testBit_two_pow_sub_one] at hi'
    simpa using hi'
  -- Shifted down past that place the two ends are one number, and so is everything between.
  have hends : lo >>> n = hi >>> n := by
    apply Nat.eq_of_testBit_eq
    intro j
    have hlt : lo ^^^ hi < 2^(n + j) := by
      have hsize : lo ^^^ hi < 2^(lo ^^^ hi).size := Nat.lt_size_self _
      rw [hn] at hsize
      exact lt_of_lt_of_le hsize (Nat.pow_le_pow_right (by norm_num) (by omega))
    have hbit := Nat.testBit_lt_two_pow hlt
    rw [Nat.testBit_xor] at hbit
    rw [Nat.testBit_shiftRight, Nat.testBit_shiftRight]
    simpa using hbit
  have hmid : v >>> n = lo >>> n := by
    have h₁ : lo >>> n ≤ v >>> n := by
      rw [Nat.shiftRight_eq_div_pow, Nat.shiftRight_eq_div_pow]
      exact Nat.div_le_div_right hlo
    have h₂ : v >>> n ≤ hi >>> n := by
      rw [Nat.shiftRight_eq_div_pow, Nat.shiftRight_eq_div_pow]
      exact Nat.div_le_div_right hhi
    omega
  obtain ⟨j, rfl⟩ : ∃ j, i = n + j := ⟨i - n, by omega⟩
  rw [← Nat.testBit_shiftRight, ← Nat.testBit_shiftRight, hmid]

/-- A multiple of a power of two has that many clear low bits. -/
theorem testBit_of_dvd (h : 2^k ∣ v) (hi : i < k) : v.testBit i = false := by
  have hmod : (v % 2^k).testBit i = false := by
    rw [Nat.mod_eq_zero_of_dvd h, Nat.zero_testBit]
  rw [Nat.testBit_mod_two_pow, decide_eq_true hi, Bool.true_and] at hmod
  exact hmod

end Rucc.KnownBits
