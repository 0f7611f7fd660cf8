import Rucc.Lib.KnownBits

/-!
# Unsigned words of 128 bits

A word is modelled by the number it holds, below `2^128`. The operations here are the ones whose
result is not the operation on the numbers: the ones that wrap, saturate or refuse, the complement,
the shift left, and the two readings between unsigned and signed.
-/

namespace Rucc.U128

variable {a : ℕ}

/-- The largest word. -/
def MAX : ℕ := 2^128 - 1

/-- The sum, or nothing when it does not fit. -/
def checkedAdd (a b : ℕ) : Option ℕ := if a + b ≤ MAX then some (a + b) else none

/-- The product, or nothing when it does not fit. -/
def checkedMul (a b : ℕ) : Option ℕ := if a * b ≤ MAX then some (a * b) else none

/-- The sum, cut to the word. -/
def wrappingAdd (a b : ℕ) : ℕ := (a + b) % 2^128

/-- The difference, cut to the word. -/
def wrappingSub (a b : ℕ) : ℕ := (a + (2^128 - b)) % 2^128

/-- The product, cut to the word. -/
def wrappingMul (a b : ℕ) : ℕ := (a * b) % 2^128

/-- The sum, or the largest word when it does not fit. -/
def saturatingAdd (a b : ℕ) : ℕ := min (a + b) MAX

/-- The product, or the largest word when it does not fit. -/
def saturatingMul (a b : ℕ) : ℕ := min (a * b) MAX

/-- Every bit the other way. -/
def complement (a : ℕ) : ℕ := MAX - a

/-- The bits moved up, those past the top lost. -/
def shiftLeft (a count : ℕ) : ℕ := (a <<< count) % 2^128

/-- The number of low bits that are clear. -/
def trailingZeros (a : ℕ) : ℕ := ((List.range 128).find? (fun i => a.testBit i)).getD 128

/-- The number of high bits that are clear. -/
def leadingZeros (a : ℕ) : ℕ := 128 - a.size

/-- The same bits read as a signed word. -/
def toI128 (a : ℕ) : ℤ := if a < 2^127 then a else a - 2^128

/-- The bits of a signed word read as unsigned. -/
def fromI128 (z : ℤ) : ℕ := (z % 2^128).toNat

theorem complement_lt (a : ℕ) : complement a < 2^128 := by
  unfold complement MAX
  omega

theorem testBit_complement (h : a < 2^128) (i : ℕ) :
    (complement a).testBit i = (decide (i < 128) && !a.testBit i) := by
  have hsub : complement a = 2^128 - (a + 1) := by
    unfold complement MAX
    omega
  rw [hsub]
  exact Nat.testBit_two_pow_sub_succ h i

/-- Masking a word's bits away leaves none of them. -/
theorem and_complement_and (a : ℕ) {b : ℕ} (h : b < 2^128) : a &&& complement b &&& b = 0 := by
  apply Nat.eq_of_testBit_eq
  intro i
  rw [Nat.testBit_and, Nat.testBit_and, testBit_complement h, Nat.zero_testBit]
  cases b.testBit i <;> simp

theorem testBit_of_lt_trailingZeros {a i : ℕ} (h : i < trailingZeros a) : a.testBit i = false := by
  unfold trailingZeros at h
  cases hfind : (List.range 128).find? (fun i => a.testBit i) with
  | none =>
    rw [hfind, Option.getD_none] at h
    have hnone := List.find?_range_eq_none.mp hfind i h
    simpa using hnone
  | some k =>
    rw [hfind, Option.getD_some] at h
    -- A clear bit below the one found was passed over.
    have hsome := (List.find?_range_eq_some.mp hfind).2.2 i h
    simpa using hsome

/-- A word that is not zero is an odd number moved up by its trailing zeros. -/
theorem trailingZeros_spec (h0 : a ≠ 0) (h : a < 2^128) : ∃ rest, a = 2^trailingZeros a * (2 * rest + 1) := by
  obtain ⟨i, hi⟩ := Nat.exists_testBit_of_ne_zero h0
  have hlow := @testBit_of_lt_trailingZeros a
  have hset : a.testBit (trailingZeros a) = true := by
    unfold trailingZeros
    cases hfind : (List.range 128).find? (fun i => a.testBit i) with
    | none =>
      have hnone := List.find?_range_eq_none.mp hfind i (Nat.lt_of_not_le fun hle =>
        absurd (Nat.ge_two_pow_of_testBit hi) (not_le.mpr (h.trans_le (Nat.pow_le_pow_right (by norm_num) hle))))
      rw [hi] at hnone
      exact absurd hnone (by simp)
    | some k => exact (List.find?_range_eq_some.mp hfind).1
  generalize trailingZeros a = k at *
  have hmod : a % 2^k = 0 := by
    refine Nat.eq_of_testBit_eq fun i => ?_
    rw [Nat.testBit_mod_two_pow, Nat.zero_testBit]
    by_cases hi : i < k
    · rw [hlow hi, Bool.and_false]
    · simp [hi]
  have hodd : a / 2^k % 2 = 1 := by
    rw [Nat.testBit_eq_decide_div_mod_eq] at hset
    simpa using hset
  refine ⟨a / 2^k / 2, ?_⟩
  have hsplit := Nat.div_add_mod a (2^k)
  have hhalf : 2 * (a / 2^k / 2) + 1 = a / 2^k := by omega
  rw [hhalf]
  omega

/-- A power of two is the one of its trailing zeros. -/
theorem eq_two_pow_trailingZeros (h : a.isPowerOfTwo) (hlt : a < 2^128) : a = 2^trailingZeros a := by
  obtain ⟨rest, hrest⟩ := trailingZeros_spec (Nat.pos_of_isPowerOfTwo h).ne' hlt
  obtain ⟨k, hk⟩ := h
  generalize trailingZeros a = t at *
  rw [hk] at hrest ⊢
  have hdvd : 2 * rest + 1 ∣ 2^k := Dvd.intro_left _ hrest.symm
  obtain ⟨j, -, hj⟩ := (Nat.dvd_prime_pow Nat.prime_two).mp hdvd
  cases j with
  | zero => rw [hrest, hj, pow_zero, mul_one]
  | succ j =>
    rw [pow_succ] at hj
    omega

/-- The wrap of a magnitude, read as a signed word, is its negative. -/
theorem toI128_neg (h : a ≤ 2^127) : toI128 (wrappingSub 0 a) = -a := by
  unfold toI128 wrappingSub
  split_ifs <;> omega

theorem toI128_of_lt (h : a < 2^127) : toI128 a = a := if_pos h

end Rucc.U128
