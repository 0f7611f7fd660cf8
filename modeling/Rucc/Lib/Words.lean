import Mathlib.Data.Nat.Size
import Rucc.Lib.Checked

/-!
# Unsigned words of any width

A word of `width` bits is the number it holds. A shift by the width or more stops the program, which is
`none` here; what a shift moves past the top is lost.
-/

namespace Rucc.Words

open Checked

variable {width a count b : ℕ}

/-- The word moved up by `count` bits. -/
def shl (width a count : ℕ) : Option ℕ := if count < width then some ((a <<< count) % 2^width) else none

/-- The word moved down by `count` bits. -/
def shr (width a count : ℕ) : Option ℕ := if count < width then some (a >>> count) else none

/-- The sum, or nothing when it does not fit. -/
def add (width a b : ℕ) : Option ℕ := if a + b < 2^width then some (a + b) else none

/-- The product, or nothing when it does not fit. -/
def mul (width a b : ℕ) : Option ℕ := if a * b < 2^width then some (a * b) else none

/-- The number of high bits that are clear. -/
def leadingZeros (width a : ℕ) : ℕ := width - a.size

/-- A signed word of 32 bits read as unsigned. -/
def asU32 (z : ℤ) : ℕ := (z % 2^32).toNat

/-- A shift up that loses nothing. -/
theorem shl_eq (hc : count < width) (h : a * 2^count < 2^width) : shl width a count = some (a * 2^count) := by
  rw [shl, if_pos hc, Nat.shiftLeft_eq, Nat.mod_eq_of_lt h]

theorem shr_eq (hc : count < width) : shr width a count = some (a / 2^count) := by
  rw [shr, if_pos hc, Nat.shiftRight_eq_div_pow]

theorem add_eq (h : a + b < 2^width) : add width a b = some (a + b) := if_pos h

theorem mul_eq (h : a * b < 2^width) : mul width a b = some (a * b) := if_pos h

theorem asU32_eq {z : ℤ} (h0 : 0 ≤ z) (h : z < 2^32) : asU32 z = z.toNat := by
  rw [asU32, Int.emod_eq_of_lt h0 h]

/-- A number of at most as many bits as the word has, moved up, still fits. -/
theorem mul_pow_lt (h : a.size + count ≤ width) : a * 2^count < 2^width :=
  calc a * 2^count < 2^a.size * 2^count :=
        Nat.mul_lt_mul_of_pos_right (Nat.lt_size_self a) (by positivity)
    _ = 2^(a.size + count) := (pow_add _ _ _).symm
    _ ≤ 2^width := Nat.pow_le_pow_right (by norm_num) h

end Rucc.Words
