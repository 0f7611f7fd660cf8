import Mathlib.Tactic

/-!
# Reciprocals scaled by a power of two

A number `m` with `m / 2^k` a little above `1 / d` divides by `d` with a product and a shift: the product
of a dividend with `m`, over `2^k` and rounded down, is the quotient of every dividend below
`2^precision`, and for a negative dividend it is one below the quotient that is rounded towards zero.
`Reciprocal` is how close it has to be.

The inverse of an odd number modulo a power of two is the other reciprocal, for the dividends that are
multiples: `newton` doubles the bits that are right.
-/

namespace Rucc

/-- `m` over `2^k` is above one over `d`, by so little that it does not show below `2^precision`. -/
structure Reciprocal (m d k precision : ℕ) : Prop where
  above : 2^k < m * d
  close : 2^precision * (m * d) ≤ 2^k * (2^precision + 1)

namespace Reciprocal

variable {m d k precision : ℕ}

variable {x : ℕ}

/-- What is too much, times a dividend in range, comes to at most the scale. -/
theorem excess (h : Reciprocal m d k precision) (hx : x ≤ 2^precision) : x * (m * d) ≤ x * 2^k + 2^k := by
  have habove := h.above
  have hclose := h.close
  obtain ⟨e, he⟩ : ∃ e, m * d = 2^k + e := ⟨m * d - 2^k, by omega⟩
  rw [he] at hclose ⊢
  have hsmall : x * e ≤ 2^k := by
    calc x * e ≤ 2^precision * e := Nat.mul_le_mul_right e hx
      _ ≤ 2^k := by
        rw [mul_add, mul_add, mul_one, mul_comm (2^k)] at hclose
        omega
  rw [mul_add]
  omega

/-- The product over the scale, for a dividend at the end of the range or inside it. -/
theorem mul_bounds (h : Reciprocal m d k precision) (hx : x ≤ 2^precision) :
    x / d * 2^k ≤ x * m ∧ (0 < x → x / d * 2^k < x * m) ∧ x * m ≤ (x / d + 1) * 2^k ∧
      (x < 2^precision → x * m < (x / d + 1) * 2^k) := by
  have habove := h.above
  have hd : 0 < d := Nat.pos_of_ne_zero fun h0 => by simp [h0] at habove
  have hlow : d * (x / d * 2^k) ≤ x * 2^k := by
    rw [← mul_assoc]
    exact Nat.mul_le_mul_right _ (Nat.mul_div_le x d)
  have hhigh : (x + 1) * 2^k ≤ d * ((x / d + 1) * 2^k) := by
    rw [← mul_assoc]
    exact Nat.mul_le_mul_right _ (Nat.lt_mul_div_succ x hd)
  have hprod : d * (x * m) = x * (m * d) := by ring
  have hover : x * 2^k ≤ x * (m * d) := Nat.mul_le_mul_left x habove.le
  have hexcess := h.excess hx
  rw [add_mul, one_mul] at hhigh
  refine ⟨?_, fun hpos => ?_, ?_, fun hlt => ?_⟩
  · refine Nat.le_of_mul_le_mul_left ?_ hd
    omega
  · have hstrict : x * 2^k < x * (m * d) := Nat.mul_lt_mul_of_pos_left habove hpos
    refine Nat.lt_of_mul_lt_mul_left (?_ : d * _ < d * _)
    omega
  · refine Nat.le_of_mul_le_mul_left ?_ hd
    omega
  · -- One more dividend is still in range, and its product is larger by more than the scale.
    have hnext := h.excess (Nat.succ_le_of_lt hlt)
    rw [Nat.succ_mul, Nat.succ_mul] at hnext
    refine Nat.lt_of_mul_lt_mul_left (?_ : d * _ < d * _)
    omega

/-- The quotient of a dividend that is not negative. -/
theorem div_eq (h : Reciprocal m d k precision) (hx : x < 2^precision) : x * m / 2^k = x / d := by
  obtain ⟨hlow, -, -, hhigh⟩ := h.mul_bounds hx.le
  exact Nat.div_eq_of_lt_le hlow (hhigh hx)

/-- The quotient of any dividend is rounded towards zero once the sign is taken off the product. -/
theorem ediv_eq (h : Reciprocal m d k precision) {z : ℤ} (hlo : -2^precision ≤ z) (hhi : z < 2^precision) :
    z * m / 2^k = z.tdiv d + if z < 0 then -1 else 0 := by
  rcases lt_or_ge z 0 with hz | hz
  · obtain ⟨x, rfl⟩ : ∃ x : ℕ, z = -x := ⟨z.natAbs, by omega⟩
    have hx : x ≤ 2^precision := by
      have : (x : ℤ) ≤ ((2^precision : ℕ) : ℤ) := by
        push_cast
        linarith
      exact_mod_cast this
    obtain ⟨-, hlow, hhigh, -⟩ := h.mul_bounds hx
    have hlow' : ((x / d : ℕ) : ℤ) * 2^k < x * m := by exact_mod_cast hlow (by omega)
    have hhigh' : (x : ℤ) * m ≤ ((x / d : ℕ) + 1) * 2^k := by exact_mod_cast hhigh
    rw [if_pos hz, Int.neg_tdiv, ← Int.ofNat_tdiv, Int.ediv_eq_iff_of_pos (by positivity)]
    generalize ((x / d : ℕ) : ℤ) = q at *
    constructor <;> linarith
  · obtain ⟨x, rfl⟩ := Int.eq_ofNat_of_zero_le hz
    have hx : x < 2^precision := by exact_mod_cast hhi
    have := h.div_eq hx
    rw [if_neg (by omega), add_zero, ← Int.ofNat_tdiv, ← this]
    push_cast
    rfl

/-- How large the number is: its scale is what is left of the shift after the divisor. -/
theorem lt_of_pow_le {bits shift c : ℕ} (h : Reciprocal m d (bits + shift) precision)
    (hd : d ≤ 2^precision) (hshift : 2^shift + c ≤ c * d) : m < c * 2^bits := by
  have habove := h.above
  have hd0 : 0 < d := Nat.pos_of_ne_zero fun h0 => by simp [h0] at habove
  have hclose := h.close
  have hp : 0 < 2^precision := by positivity
  -- Both sides times the divisor and the precision.
  refine Nat.lt_of_mul_lt_mul_left (?_ : 2^precision * d * m < 2^precision * d * (c * 2^bits))
  have hb : 0 < 2^bits := by positivity
  have hc : 0 < c := Nat.pos_of_ne_zero fun h0 => by
    have : 0 < 2^shift := by positivity
    rw [h0] at hshift
    omega
  calc 2^precision * d * m = 2^precision * (m * d) := by ring
    _ ≤ 2^(bits + shift) * (2^precision + 1) := hclose
    _ = 2^bits * (2^shift * (2^precision + 1)) := by rw [pow_add]; ring
    _ < 2^bits * (c * d * 2^precision) := by
        refine Nat.mul_lt_mul_of_pos_left ?_ hb
        nlinarith
    _ = 2^precision * d * (c * 2^bits) := by ring

end Reciprocal

/-! ## Newton's iteration -/

/-- One step towards the inverse of `a`. -/
def newton {R : Type*} [CommRing R] (a x : R) : R := x * (2 - a * x)

/-- Each step squares what is missing. -/
theorem one_sub_newton_iterate {R : Type*} [CommRing R] (a x : R) (count : ℕ) :
    1 - a * (newton a)^[count] x = (1 - a * x)^(2^count) := by
  induction count with
  | zero => simp
  | succ count ih =>
    rw [Function.iterate_succ_apply', pow_succ, pow_mul, ← ih, newton]
    ring

end Rucc
