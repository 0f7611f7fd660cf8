import Rucc.Base.Float

/-!
# Arithmetic on software floats

The operations of `float/arith.rs`: `sum` and `difference` through `total`, `product` through
`wideMultiply`, and `quotient` through `longDivide`. Each one computes the exact answer to more bits
than the format has and rounds once, so each one is related to the exact answer by what it keeps of
it (`Kept`) and to the correctly rounded answer by `round_spec`.

A product is the one operation whose kept significand can be a whole `u128` long. When such a
product is between half of the smallest subnormal number and all of it, `round` loses it.
-/

namespace Rucc.Base

open Rounding Checked

variable {extra k numerator divisor : ℕ}

/-- How many bits are kept below the significand while two numbers are lined up. -/
def GUARD : ℕ := 3

/-- The full 256-bit product of two words, high half first. -/
def wideMultiply (left right : ℕ) : ℕ × ℕ :=
  let LOW := 2^64 - 1
  let leftLow := left &&& LOW
  let leftHigh := left >>> 64
  let rightLow := right &&& LOW
  let rightHigh := right >>> 64
  let low := leftLow * rightLow
  let first := leftLow * rightHigh
  let second := leftHigh * rightLow
  let middle := (low >>> 64) + (first &&& LOW) + (second &&& LOW)
  let high := leftHigh * rightHigh + (first >>> 64) + (second >>> 64) + (middle >>> 64)
  (high, (middle <<< 64) % 2^128 ||| (low &&& LOW))

/-- One bit of the restoring division: the remainder and the quotient so far. -/
def longDivideStep (numerator divisor : ℕ) (state : ℕ × ℕ) (step : ℕ) : ℕ × ℕ :=
  let bit := if step < 128 then (numerator >>> (127 - step)) &&& 1 else 0
  let carry := state.1 >>> 127 = 1
  let remainder := (state.1 <<< 1) % 2^128 ||| bit
  let quotient := (state.2 <<< 1) % 2^128
  if carry ∨ divisor ≤ remainder then ((remainder + 2^128 - divisor) % 2^128, quotient ||| 1)
  else (remainder, quotient)

/-- The quotient of `numerator` shifted up by `extra` bits and `divisor`, and what is left over. -/
def longDivide (numerator divisor extra : ℕ) : ℕ × ℕ :=
  let state := (List.range (128 + extra)).foldl (longDivideStep numerator divisor) (0, 0)
  (state.2, state.1)

/-- The two halves of the product make up the product, and the low one is a word. -/
theorem wideMultiply_spec {left right : ℕ} (hl : left < 2^128) (hr : right < 2^128) :
    (wideMultiply left right).1 * 2^128 + (wideMultiply left right).2 = left * right ∧
      (wideMultiply left right).2 < 2^128 := by
  have hmask : ∀ x : ℕ, x &&& (2^64 - 1) = x % 2^64 := fun x => Nat.and_two_pow_sub_one_eq_mod x 64
  simp only [wideMultiply, hmask, Nat.shiftRight_eq_div_pow, Nat.shiftLeft_eq]
  have hl' := Nat.div_add_mod left (2^64)
  have hr' := Nat.div_add_mod right (2^64)
  have hll : left % 2^64 < 2^64 := Nat.mod_lt _ (by norm_num)
  have hrl : right % 2^64 < 2^64 := Nat.mod_lt _ (by norm_num)
  have hlh : left / 2^64 < 2^64 := Nat.div_lt_of_lt_mul (by omega)
  have hrh : right / 2^64 < 2^64 := Nat.div_lt_of_lt_mul (by omega)
  generalize left / 2^64 = lh at *
  generalize left % 2^64 = ll at *
  generalize right / 2^64 = rh at *
  generalize right % 2^64 = rl at *
  -- The three columns, and the product in them.
  have hprod : left * right = ll * rl + 2^64 * (ll * rh + lh * rl) + 2^128 * (lh * rh) := by
    rw [← hl', ← hr']
    ring
  rw [hprod]
  generalize ll * rl = low
  generalize ll * rh = first
  generalize lh * rl = second
  generalize lh * rh = top
  have hor : ∀ m : ℕ, m * 2^64 % 2^128 ||| low % 2^64 = m * 2^64 % 2^128 + low % 2^64 := by
    intro m
    have hm : m * 2^64 % 2^128 = (m % 2^64) <<< 64 := by
      rw [Nat.shiftLeft_eq]
      omega
    rw [hm, Nat.shiftLeft_add_eq_or_of_lt (Nat.mod_lt _ (by norm_num))]
  rw [hor]
  omega

/-- The numerator shifted up, cut to its leading bits: what the division has read after `k` steps. -/
def readBits (numerator extra k : ℕ) : ℕ := numerator * 2^extra / 2^(128 + extra - k)

/-- One step of the division reads one more bit. -/
theorem readBits_succ (numerator : ℕ) (hk : k < 128 + extra) :
    readBits numerator extra (k + 1) = 2 * readBits numerator extra k +
      (if k < 128 then (numerator >>> (127 - k)) &&& 1 else 0) := by
  obtain ⟨j, hj⟩ : ∃ j, 128 + extra - k = j + 1 := ⟨127 + extra - k, by omega⟩
  have hj' : 128 + extra - (k + 1) = j := by omega
  have hbit : numerator * 2^extra / 2^j % 2 =
      if k < 128 then (numerator >>> (127 - k)) &&& 1 else 0 := by
    split_ifs with h
    · have he : 2^j = 2^(127 - k) * 2^extra := by
        rw [← pow_add]
        congr 1
        omega
      rw [he, Nat.mul_div_mul_right _ _ (Nat.two_pow_pos _), Nat.and_one_is_mod,
        Nat.shiftRight_eq_div_pow]
    · have he : 2^extra = 2^(extra - j) * 2^j := by
        rw [← pow_add]
        congr 1
        omega
      have h2 : 2^(extra - j) = 2 * 2^(extra - j - 1) := by
        rw [← pow_succ']
        congr 1
        omega
      rw [he, ← mul_assoc, Nat.mul_div_cancel _ (Nat.two_pow_pos _), h2, Nat.mul_left_comm,
        Nat.mul_mod_right]
  unfold readBits
  rw [hj, hj', ← hbit, pow_succ, ← Nat.div_div_eq_div_mul]
  omega

/-- The state of the division after `k` steps: the quotient and the remainder of the bits read. -/
def Dividing (numerator divisor extra k : ℕ) (state : ℕ × ℕ) : Prop :=
  state.2 * divisor + state.1 = readBits numerator extra k ∧ state.1 < divisor

/-- One step of the division keeps its invariant. The remainder doubled may carry out of a word and
is then still a number the divisor goes into exactly once. -/
theorem longDivideStep_spec {state : ℕ × ℕ} (hd : divisor < 2^128) (hk : k < 128 + extra)
    (hq : readBits numerator extra k < 2^127 * divisor)
    (h : Dividing numerator divisor extra k state) :
    Dividing numerator divisor extra (k + 1) (longDivideStep numerator divisor state k) := by
  obtain ⟨remainder, quotient⟩ := state
  obtain ⟨heq, hlt⟩ := h
  dsimp only at heq hlt
  have hread := readBits_succ numerator hk
  have hquot : quotient < 2^127 := by
    by_contra hge
    have := Nat.mul_le_mul_right divisor (not_lt.1 hge)
    omega
  unfold Dividing longDivideStep
  dsimp only
  have hbit : (if k < 128 then (numerator >>> (127 - k)) &&& 1 else 0) < 2 := by
    split_ifs
    · rw [Nat.and_one_is_mod]
      exact Nat.mod_lt _ (by norm_num)
    · norm_num
  generalize (if k < 128 then (numerator >>> (127 - k)) &&& 1 else 0) = bit at *
  have hor : ∀ m : ℕ, (m <<< 1) % 2^128 ||| bit = 2 * m % 2^128 + bit := by
    intro m
    have hm : (m <<< 1) % 2^128 = (m % 2^127) <<< 1 := by
      rw [Nat.shiftLeft_eq, Nat.shiftLeft_eq]
      omega
    rw [hm, ← Nat.shiftLeft_add_eq_or_of_lt (by simpa using hbit), Nat.shiftLeft_eq]
    omega
  have hq2 : (quotient <<< 1) % 2^128 = 2 * quotient := by
    rw [Nat.shiftLeft_eq]
    omega
  have hq1 : 2 * quotient ||| 1 = 2 * quotient + 1 := by
    have h : quotient <<< 1 + 1 = quotient <<< 1 ||| 1 :=
      Nat.shiftLeft_add_eq_or_of_lt (by norm_num) quotient
    rw [Nat.shiftLeft_eq, pow_one, mul_comm quotient] at h
    exact h.symm
  rw [hor, hq2, hq1, Nat.shiftRight_eq_div_pow, hread, ← heq]
  by_cases hgo : remainder / 2^127 = 1 ∨ divisor ≤ 2 * remainder % 2^128 + bit
  · rw [if_pos hgo]
    dsimp only
    have hsub : (2 * remainder % 2^128 + bit + 2^128 - divisor) % 2^128 =
        2 * remainder + bit - divisor := by
      rcases hgo with h | h
      · omega
      · omega
    have hge : divisor ≤ 2 * remainder + bit := by
      rcases hgo with h | h
      · omega
      · omega
    rw [hsub]
    refine ⟨?_, by omega⟩
    have : (2 * quotient + 1) * divisor = 2 * (quotient * divisor) + divisor := by ring
    omega
  · rw [if_neg hgo]
    dsimp only
    rw [not_or] at hgo
    refine ⟨?_, by omega⟩
    have : 2 * quotient * divisor = 2 * (quotient * divisor) := by ring
    omega

/-- The long division is the quotient and the remainder of the numerator shifted up, when the
quotient fits in a word. -/
theorem longDivide_spec (hd0 : 0 < divisor) (hd : divisor < 2^128)
    (hn : numerator < 2^128) (hq : numerator * 2^extra < 2^127 * divisor) :
    longDivide numerator divisor extra =
      (numerator * 2^extra / divisor, numerator * 2^extra % divisor) := by
  have hinv : ∀ k, k ≤ 128 + extra → Dividing numerator divisor extra k
      ((List.range k).foldl (longDivideStep numerator divisor) (0, 0)) := by
    intro k
    induction k with
    | zero =>
      intro _
      refine ⟨?_, hd0⟩
      have hlt : numerator * 2^extra < 2^(128 + extra) := by
        rw [pow_add]
        exact Nat.mul_lt_mul_of_pos_right hn (Nat.two_pow_pos _)
      simp only [List.range_zero, List.foldl_nil, zero_mul, zero_add, readBits, Nat.sub_zero]
      exact (Nat.div_eq_of_lt hlt).symm
    | succ k ih =>
      intro hk
      rw [List.range_succ, List.foldl_append]
      refine longDivideStep_spec hd (by omega) ?_ (ih (by omega))
      exact lt_of_le_of_lt (Nat.div_le_self _ _) hq
  obtain ⟨heq, hlt⟩ := hinv (128 + extra) le_rfl
  unfold longDivide
  dsimp only
  generalize (List.range (128 + extra)).foldl (longDivideStep numerator divisor) (0, 0) = state at *
  rw [readBits, Nat.sub_self, pow_zero, Nat.div_one] at heq
  rw [← heq, mul_comm state.2, Nat.mul_add_div hd0, Nat.mul_add_mod, Nat.div_eq_of_lt hlt,
    Nat.mod_eq_of_lt hlt, add_zero]

namespace Float

/-- The nan an operation gives when an operand is one, if either is. -/
def propagatedNan (left right : Float) : Option (Float × Status) :=
  if left.isNan || right.isNan then some (nan left.format, .NONE) else none

/-- How the magnitudes of two numbers in the same format compare, nans aside. -/
def compareMagnitude (x y : Float) : Ordering :=
  match x.category, y.category with
  | .zero, .zero => .eq
  | .infinite, .infinite => .eq
  | .zero, _ => .lt
  | _, .infinite => .lt
  | .infinite, _ => .gt
  | _, .zero => .gt
  | _, _ => (compare x.exponent y.exponent).then (compare x.significand y.significand)

/-- The smaller significand `distance` bits below the larger one, with the guard bits kept, and
whether something nonzero was shifted past them. -/
def lineUp (right distance : ℕ) : ℕ × Bool :=
  if distance ≤ GUARD then (right <<< (GUARD - distance), false)
  else if 128 ≤ distance - GUARD then (0, true)
  else
    let dropped := distance - GUARD
    (right >>> dropped, decide (right &&& ((1 <<< dropped) - 1) ≠ 0))

/-- The sum of two finite numbers that are not zero, the one of larger magnitude first. -/
def totalOrdered (big small : Float) (format : Format) : Option (Float × Status) := do
  let (left, exponent) := big.parts
  let (right, smallExponent) := small.parts
  let distance := (exponent - smallExponent).toNat
  let left := left <<< GUARD
  let (right, sticky) := lineUp right distance
  let exponent := exponent - GUARD
  if big.sign = small.sign then
    round (left + right) exponent sticky big.sign format
  else
    -- What was dropped belongs to the number being taken away, so one more comes off.
    let right := right + sticky.toNat
    if left = right then
      return (zero format false, .NONE)
    round (← checkedSub left right) exponent sticky big.sign format

/-- The sum of two finite numbers that are not zero. -/
def totalFinite (x y : Float) : Option (Float × Status) :=
  let (big, small) := if x.compareMagnitude y = .lt then (y, x) else (x, y)
  totalOrdered big small x.format

/-- The sum of two numbers, or their difference. -/
def total (x other : Float) (subtract : Bool) : Option (Float × Status) := do
  guard (x.format = other.format)
  let format := x.format
  let other := if subtract then other.negated else other
  if let some nan := propagatedNan x other then
    return nan
  match x.category, other.category with
  | .infinite, .infinite =>
    if x.sign = other.sign then return (x, .NONE) else return (nan format, .INVALID)
  | .infinite, _ => return (x, .NONE)
  | _, .infinite => return (other, .NONE)
  | .zero, .zero => return (zero format (x.sign && other.sign), .NONE)
  | .zero, _ => return (other, .NONE)
  | _, .zero => return (x, .NONE)
  | _, _ => totalFinite x other

/-- `x + other`, rounded to nearest with ties to even. -/
def sum (x other : Float) : Option (Float × Status) := x.total other false

/-- `x - other`, rounded to nearest with ties to even. -/
def difference (x other : Float) : Option (Float × Status) := x.total other true

/-- `x * other`, rounded to nearest with ties to even. -/
def product (x other : Float) : Option (Float × Status) := do
  guard (x.format = other.format)
  let format := x.format
  let sign := x.sign != other.sign
  if let some nan := propagatedNan x other then
    return nan
  match x.category, other.category with
  | .infinite, .zero => return (nan format, .INVALID)
  | .zero, .infinite => return (nan format, .INVALID)
  | .infinite, _ => return (infinity format sign, .NONE)
  | _, .infinite => return (infinity format sign, .NONE)
  | .zero, _ => return (zero format sign, .NONE)
  | _, .zero => return (zero format sign, .NONE)
  | _, _ =>
    let (left, leftExponent) := x.parts
    let (right, rightExponent) := other.parts
    let (high, low) := wideMultiply left right
    let exponent := leftExponent + rightExponent
    if high = 0 then
      round low exponent false sign format
    else
      let drop := 128 - leadingZeros high
      let sticky := decide (low &&& ((1 <<< drop) - 1) ≠ 0)
      let significand := (high <<< (128 - drop)) % 2^128 ||| (low >>> drop)
      round significand (exponent + drop) sticky sign format

/-- `x / other`, rounded to nearest with ties to even. -/
def quotient (x other : Float) : Option (Float × Status) := do
  guard (x.format = other.format)
  let format := x.format
  let sign := x.sign != other.sign
  if let some nan := propagatedNan x other then
    return nan
  match x.category, other.category with
  | .infinite, .infinite => return (nan format, .INVALID)
  | .zero, .zero => return (nan format, .INVALID)
  | .infinite, _ => return (infinity format sign, .NONE)
  | _, .infinite => return (zero format sign, .NONE)
  | .zero, _ => return (zero format sign, .NONE)
  | _, .zero => return (infinity format sign, .DIVIDE_BY_ZERO)
  | _, _ =>
    let (left, leftExponent) := x.parts
    let (right, rightExponent) := other.parts
    let leftShift := leadingZeros left
    let rightShift := leadingZeros right
    let extra := format.precision + 2
    let numerator := (left <<< leftShift) % 2^128
    let (quotient, remainder) := longDivide numerator ((right <<< rightShift) % 2^128) extra
    let exponent := (leftExponent - leftShift) - (rightExponent - rightShift) - extra
    round quotient exponent (decide (remainder ≠ 0)) sign format

/-- The nearest number in a format to an unsigned integer. -/
def fromUnsigned (value : ℕ) (format : Format) : Option (Float × Status) :=
  if value = 0 then some (zero format false, .NONE) else round value 0 false false format

/-- Reads a number back out of its encoding. -/
def fromBits (format : Format) (bits : ℕ) : Float :=
  let significandBits := format.significandBits
  let sign := decide ((bits >>> (format.width - 1)) &&& 1 = 1)
  let exponentField := (bits >>> significandBits) &&& ((1 <<< format.exponentBits) - 1)
  let stored := bits &&& ((1 <<< significandBits) - 1)
  if exponentField = (1 <<< format.exponentBits) - 1 then
    let fraction := stored &&& ((1 <<< (format.precision - 1)) - 1)
    if fraction = 0 then infinity format sign else ⟨format, .nan, sign, 0, stored⟩
  else
    let implicit :=
      if format.hasExplicitIntegerBit || exponentField = 0 then 0 else 1 <<< (format.precision - 1)
    let significand := stored ||| implicit
    if significand = 0 then zero format sign
    else
      let exponent : ℤ :=
        if exponentField = 0 then format.minExponent else exponentField - format.maxExponent
      ⟨format, .finite, sign, exponent, significand⟩

end Float

end Rucc.Base
