import Mathlib.Data.Nat.Bitwise
import Rucc.Base.Float
import Rucc.Lib.Digits

/-!
# Decimal floating point encodings

The encodings of `dfp.rs`: a decimal number is a sign, a coefficient and an exponent, stored as the
binary integer decimal encoding of IEEE 754. `decode_encode` is the round trip, and `fit_spec` says
that bringing a coefficient and an exponent into range rounds their magnitude once, to the nearest
number of the width with ties to even.

Coefficients and encodings are natural numbers below `2^128`. An assertion that fails stops the
program, and is `none` here.
-/

namespace Rucc.Base

open Rounding Checked

/-- What is wrong with a spelling that is not a number. -/
inductive ParseError where
  | noDigits
  | noExponentDigits
  | invalid
  deriving DecidableEq, Repr

namespace Dfp

variable {i rest n coefficient c : ℕ} {sign : Bool} {exponent e : ℤ}

/-- One of the three decimal interchange formats. -/
inductive Width where
  | d32
  | d64
  | d128
  deriving DecidableEq, Repr

namespace Width

/-- The size of the encoding in bits. -/
def bits : Width → ℕ
  | d32 => 32
  | d64 => 64
  | d128 => 128

/-- The most decimal digits a coefficient has. -/
def digits : Width → ℕ
  | d32 => 7
  | d64 => 16
  | d128 => 34

/-- What is added to the exponent to store it. -/
def bias : Width → ℤ
  | d32 => 101
  | d64 => 398
  | d128 => 6176

/-- The smallest exponent a coefficient can have. -/
def minExponent (w : Width) : ℤ := -w.bias

/-- The largest exponent a coefficient can have. -/
def maxExponent : Width → ℤ
  | d32 => 90
  | d64 => 369
  | d128 => 6111

/-- The bits the biased exponent is stored in. -/
def exponentBits : Width → ℕ
  | d32 => 8
  | d64 => 10
  | d128 => 14

/-- The bits a coefficient is stored in when its top bits are not `100`. -/
def coefficientBits (w : Width) : ℕ := w.bits - 1 - w.exponentBits

/-- The largest coefficient. -/
def maxCoefficient (w : Width) : ℕ := 10^w.digits - 1

/-- The grid of the width's magnitudes. -/
def grid (w : Width) : Grid where
  base := 10
  precision := w.digits
  least := w.minExponent
  most := w.maxExponent
  one_lt_base := by norm_num
  base_even := by norm_num
  one_lt_precision := by cases w <;> decide
  least_le_most := by cases w <;> decide

@[simp] theorem grid_base (w : Width) : w.grid.base = 10 := rfl
@[simp] theorem grid_precision (w : Width) : w.grid.precision = w.digits := rfl
@[simp] theorem grid_least (w : Width) : w.grid.least = w.minExponent := rfl
@[simp] theorem grid_most (w : Width) : w.grid.most = w.maxExponent := rfl
@[simp] theorem grid_top (w : Width) : w.grid.top = 10^w.digits := rfl

@[simp]
theorem grid_unit (w : Width) (q : ℤ) : w.grid.unit q = (10 : ℚ)^q := by simp [Grid.unit]

theorem digits_bounds (w : Width) : 7 ≤ w.digits ∧ w.digits ≤ 34 := by cases w <;> decide

theorem exponent_bounds (w : Width) :
    w.minExponent ≤ -101 ∧ 90 ≤ w.maxExponent ∧ -6176 ≤ w.minExponent ∧ w.maxExponent ≤ 6111 := by
  cases w <;> decide

theorem maxCoefficient_succ (w : Width) : w.maxCoefficient + 1 = 10^w.digits := by
  have : 0 < 10^w.digits := by positivity
  unfold maxCoefficient
  omega

end Width

/-! ## Encodings -/

/-- What a decimal encoding holds. -/
inductive Decoded where
  | finite (sign : Bool) (coefficient : ℕ) (exponent : ℤ)
  | infinite (sign : Bool)
  | nan (sign : Bool) (signaling : Bool)
  deriving DecidableEq, Repr

namespace Decoded

/-- The magnitude of a number, and nothing for an infinity or a nan. -/
def magnitude : Decoded → Option ℚ
  | finite _ coefficient exponent => some (coefficient * 10^exponent)
  | infinite _ => none
  | nan _ _ => none

/-- The number is not a nan and has the sign given. -/
def HasSign (sign : Bool) : Decoded → Prop
  | finite s _ _ => s = sign
  | infinite s => s = sign
  | nan _ _ => False

end Decoded

/-- The sign bit of an encoding of this width. -/
def signBit (width : Width) : ℕ := 1 <<< (width.bits - 1)

/-- The bits of a coefficient and an exponent that were brought into range. -/
def encode (sign : Bool) (coefficient : ℕ) (exponent : ℤ) (width : Width) : Option ℕ := do
  guard (coefficient ≤ width.maxCoefficient)
  guard (width.minExponent ≤ exponent ∧ exponent ≤ width.maxExponent)
  let biased := (exponent + width.bias).toNat
  let small := width.coefficientBits
  let sign := if sign then signBit width else 0
  if coefficient < 1 <<< small then
    return sign ||| (biased <<< small) ||| coefficient
  else
    -- The top three bits of the coefficient are `100`, which is not stored.
    let rest := small - 2
    return sign ||| (0b11 <<< (width.bits - 3)) ||| (biased <<< rest) |||
      (coefficient &&& ((1 <<< rest) - 1))

/-- An infinity of this width. -/
def infinity (sign : Bool) (width : Width) : ℕ :=
  let bits := 0b11110 <<< (width.bits - 6)
  if sign then bits ||| signBit width else bits

/-- What the bits of an encoding of this width mean. -/
def decode (bits : ℕ) (width : Width) : Decoded :=
  let top := width.bits
  let sign := decide (bits &&& signBit width ≠ 0)
  let combination := (bits >>> (top - 6)) &&& 0b11111
  if combination = 0b11110 then .infinite sign
  else if combination = 0b11111 then .nan sign (decide ((bits >>> (top - 7)) &&& 1 ≠ 0))
  else
    let small := width.coefficientBits
    let field := (1 <<< width.exponentBits) - 1
    let (biased, coefficient) :=
      if (bits >>> (top - 3)) &&& 0b11 = 0b11 then
        let rest := small - 2
        ((bits >>> rest) &&& field, (0b100 <<< rest) ||| (bits &&& ((1 <<< rest) - 1)))
      else ((bits >>> small) &&& field, bits &&& ((1 <<< small) - 1))
    let coefficient := if coefficient > width.maxCoefficient then 0 else coefficient
    .finite sign coefficient (biased - width.bias)

/-- A field above the bits of another one. -/
theorem shiftLeft_or {a b : ℕ} (h : b < 2^i) : a <<< i ||| b = a * 2^i + b := by
  rw [← Nat.shiftLeft_add_eq_or_of_lt h, Nat.shiftLeft_eq]

variable {width : Width}

/-- The sign bit is above every other field. -/
theorem signBit_or (h : rest < 2^(width.bits - 1)) :
    (if sign then signBit width else 0) ||| rest = sign.toNat * 2^(width.bits - 1) + rest := by
  cases sign
  · simp
  · rw [if_pos rfl, signBit, shiftLeft_or h]
    rfl

/-- Testing the sign bit. -/
theorem and_signBit (h : rest < 2^(width.bits - 1)) :
    decide ((sign.toNat * 2^(width.bits - 1) + rest) &&& signBit width ≠ 0) = sign := by
  have hbit : (sign.toNat * 2^(width.bits - 1) + rest).testBit (width.bits - 1) = sign := by
    rw [Nat.testBit_eq_decide_div_mod_eq, Nat.add_comm, Nat.add_mul_div_right _ _
      (Nat.two_pow_pos _), Nat.div_eq_of_lt h, zero_add]
    cases sign <;> rfl
  rw [signBit, Nat.one_shiftLeft, Nat.and_two_pow, hbit]
  cases sign <;> simp

/-- A field read off an encoding is that field of the bits below the sign. -/
theorem read_field (sign : Bool) (rest : ℕ) {width : Width} {i n : ℕ} (hin : i + n ≤ width.bits - 1) :
    (sign.toNat * 2^(width.bits - 1) + rest) / 2^i % 2^n = rest / 2^i % 2^n := by
  have hsplit : sign.toNat * 2^(width.bits - 1) =
      2^i * (2^n * (sign.toNat * 2^(width.bits - 1 - i - n))) := by
    have hpow : 2^(width.bits - 1) = 2^i * (2^n * 2^(width.bits - 1 - i - n)) := by
      rw [← pow_add, ← pow_add]
      congr 1
      omega
    rw [hpow]
    ring
  rw [hsplit, Nat.mul_add_div (Nat.two_pow_pos i), Nat.mul_add_mod]

theorem read_whole (sign : Bool) (h : rest < 2^(width.bits - 1)) (hin : i + n = width.bits - 1) :
    (sign.toNat * 2^(width.bits - 1) + rest) / 2^i % 2^n = rest / 2^i := by
  rw [read_field sign rest hin.le, Nat.mod_eq_of_lt]
  rw [Nat.div_lt_iff_lt_mul (Nat.two_pow_pos i), ← pow_add, add_comm, hin]
  exact h

theorem read_low (sign : Bool) (rest : ℕ) (hn : n ≤ width.bits - 1) :
    (sign.toNat * 2^(width.bits - 1) + rest) % 2^n = rest % 2^n := by
  have := @read_field sign rest width 0 n (by omega)
  simpa using this

/-- What the fields of an encoding are read as. -/
theorem decode_eq (h : rest < 2^(width.bits - 1)) : decode (sign.toNat * 2^(width.bits - 1) + rest) width =
      if rest / 2^(width.bits - 6) = 0b11110 then .infinite sign
      else if rest / 2^(width.bits - 6) = 0b11111 then
        .nan sign (decide (rest / 2^(width.bits - 7) % 2 ≠ 0))
      else
        let small := width.coefficientBits
        let (biased, coefficient) :=
          if rest / 2^(width.bits - 3) = 0b11 then
            (rest / 2^(small - 2) % 2^width.exponentBits,
              4 * 2^(small - 2) + rest % 2^(small - 2))
          else (rest / 2^small, rest % 2^small)
        let coefficient := if coefficient > width.maxCoefficient then 0 else coefficient
        .finite sign coefficient (biased - width.bias) := by
  have hmask : ∀ x n : ℕ, x &&& ((1 <<< n) - 1) = x % 2^n := fun x n => by
    rw [Nat.shiftLeft_eq, one_mul, Nat.and_two_pow_sub_one_eq_mod]
  have hcoef : (0b100 : ℕ) <<< (width.coefficientBits - 2) |||
      rest % 2^(width.coefficientBits - 2) =
      4 * 2^(width.coefficientBits - 2) + rest % 2^(width.coefficientBits - 2) :=
    shiftLeft_or (Nat.mod_lt _ (Nat.two_pow_pos _))
  have h5 : ∀ x : ℕ, x &&& 0b11111 = x % 2^5 := fun x => hmask x 5
  have h2 : ∀ x : ℕ, x &&& 0b11 = x % 2^2 := fun x => hmask x 2
  have hb : width.bits - 6 + 5 = width.bits - 1 ∧ width.bits - 3 + 2 = width.bits - 1 ∧
      width.bits - 7 + 1 ≤ width.bits - 1 ∧
      width.coefficientBits + width.exponentBits = width.bits - 1 ∧
      width.coefficientBits - 2 + width.exponentBits ≤ width.bits - 1 ∧
      width.coefficientBits - 2 ≤ width.bits - 1 ∧ width.coefficientBits ≤ width.bits - 1 := by
    cases width <;> decide
  obtain ⟨hb6, hb3, hb7, hbs, hbr, hbr', hbs'⟩ := hb
  have h7 := read_field sign rest hb7
  rw [pow_one] at h7
  unfold decode
  simp only [and_signBit h, hmask, h5, h2, Nat.and_one_is_mod, Nat.shiftRight_eq_div_pow,
    read_whole sign h hb6, read_whole sign h hb3, h7, read_whole sign h hbs, read_field sign rest hbr,
    read_low sign rest hbr', read_low sign rest hbs', hcoef]

section Encode

variable (sign : Bool) {coefficient biased : ℕ} {width : Width}

/-- The assertions of an encoding hold in range. -/
theorem encode_eq (hc : coefficient ≤ width.maxCoefficient) (hb : (biased : ℤ) ≤ width.maxExponent + width.bias) :
    encode sign coefficient (biased - width.bias) width =
      if coefficient < 2^width.coefficientBits then
        some ((if sign then signBit width else 0) ||| (biased <<< width.coefficientBits) |||
          coefficient)
      else some ((if sign then signBit width else 0) ||| (0b11 <<< (width.bits - 3)) |||
        (biased <<< (width.coefficientBits - 2)) |||
          (coefficient &&& ((1 <<< (width.coefficientBits - 2)) - 1))) := by
  have h0 : width.minExponent ≤ biased - width.bias := by unfold Width.minExponent; omega
  have h1 : (biased : ℤ) - width.bias ≤ width.maxExponent := by omega
  rw [← Nat.one_shiftLeft]
  simp [encode, guard, hc, h0, h1]

/-- The coefficient is stored whole, below the exponent. -/
theorem encode_small (hc : coefficient ≤ width.maxCoefficient)
    (hb : (biased : ℤ) ≤ width.maxExponent + width.bias) (hsmall : coefficient < 2^width.coefficientBits) :
    biased * 2^width.coefficientBits + coefficient < 2^(width.bits - 1) ∧
      encode sign coefficient (biased - width.bias) width =
        some (sign.toNat * 2^(width.bits - 1) + (biased * 2^width.coefficientBits + coefficient)) := by
  have hfield : biased * 2^width.coefficientBits + coefficient < 2^(width.bits - 1) := by
    cases width <;>
      simp only [Width.maxExponent, Width.bias, Width.bits, Width.coefficientBits,
        Width.exponentBits] at * <;> omega
  refine ⟨hfield, ?_⟩
  rw [encode_eq sign hc hb, if_pos hsmall, Nat.or_assoc, shiftLeft_or hsmall, signBit_or hfield]

/-- The top bits of the coefficient are left out, and say so in front of the exponent. -/
theorem encode_large (hc : coefficient ≤ width.maxCoefficient)
    (hb : (biased : ℤ) ≤ width.maxExponent + width.bias) (hlarge : ¬ coefficient < 2^width.coefficientBits) :
    biased * 2^(width.coefficientBits - 2) + coefficient % 2^(width.coefficientBits - 2) <
        2^(width.bits - 3) ∧
      3 * 2^(width.bits - 3) + (biased * 2^(width.coefficientBits - 2) +
        coefficient % 2^(width.coefficientBits - 2)) < 2^(width.bits - 1) ∧
      encode sign coefficient (biased - width.bias) width =
        some (sign.toNat * 2^(width.bits - 1) + (3 * 2^(width.bits - 3) +
          (biased * 2^(width.coefficientBits - 2) + coefficient % 2^(width.coefficientBits - 2)))) := by
  have hmask : coefficient &&& ((1 <<< (width.coefficientBits - 2)) - 1) =
      coefficient % 2^(width.coefficientBits - 2) := by
    rw [Nat.shiftLeft_eq, one_mul, Nat.and_two_pow_sub_one_eq_mod]
  have hrest : coefficient % 2^(width.coefficientBits - 2) < 2^(width.coefficientBits - 2) :=
    Nat.mod_lt _ (Nat.two_pow_pos _)
  have hlow : biased * 2^(width.coefficientBits - 2) +
      coefficient % 2^(width.coefficientBits - 2) < 2^(width.bits - 3) := by
    cases width <;>
      simp only [Width.maxExponent, Width.bias, Width.bits, Width.coefficientBits,
        Width.exponentBits] at * <;> omega
  have hfield : 3 * 2^(width.bits - 3) + (biased * 2^(width.coefficientBits - 2) +
      coefficient % 2^(width.coefficientBits - 2)) < 2^(width.bits - 1) := by
    have hpow : 2^(width.bits - 1) = 4 * 2^(width.bits - 3) := by
      cases width <;> rfl
    omega
  refine ⟨hlow, hfield, ?_⟩
  rw [encode_eq sign hc hb, if_neg hlarge, hmask, Nat.or_assoc, shiftLeft_or hrest, Nat.or_assoc,
    shiftLeft_or hlow, signBit_or hfield]

end Encode

/-- A number is read back as itself. -/
theorem decode_encode (sign : Bool) (hc : coefficient ≤ width.maxCoefficient) (h0 : width.minExponent ≤ exponent)
    (h1 : exponent ≤ width.maxExponent) :
    ∃ bits, encode sign coefficient exponent width = some bits ∧
      decode bits width = .finite sign coefficient exponent := by
  obtain ⟨biased, hb⟩ : ∃ biased : ℕ, exponent + width.bias = biased :=
    ⟨(exponent + width.bias).toNat, by unfold Width.minExponent at h0; omega⟩
  obtain rfl : exponent = biased - width.bias := by omega
  have hb' : (biased : ℤ) ≤ width.maxExponent + width.bias := by omega
  by_cases hsmall : coefficient < 2^width.coefficientBits
  · obtain ⟨hfield, hencode⟩ := encode_small sign hc hb' hsmall
    refine ⟨_, hencode, ?_⟩
    rw [decode_eq hfield]
    have hno : ∀ k : ℕ, 24 ≤ k → (biased * 2^width.coefficientBits + coefficient) /
        2^(width.bits - 6) ≠ k := by
      intro k hk
      cases width <;>
        simp only [Width.maxExponent, Width.bias, Width.bits, Width.coefficientBits,
          Width.exponentBits] at * <;> omega
    have hno3 : (biased * 2^width.coefficientBits + coefficient) / 2^(width.bits - 3) ≠ 3 := by
      cases width <;>
        simp only [Width.maxExponent, Width.bias, Width.bits, Width.coefficientBits,
          Width.exponentBits] at * <;> omega
    have hdiv : (biased * 2^width.coefficientBits + coefficient) / 2^width.coefficientBits =
        biased := by
      rw [mul_comm, Nat.mul_add_div (Nat.two_pow_pos _), Nat.div_eq_of_lt hsmall, add_zero]
    have hmod : (biased * 2^width.coefficientBits + coefficient) % 2^width.coefficientBits =
        coefficient := by
      rw [Nat.mul_add_mod', Nat.mod_eq_of_lt hsmall]
    simp only [if_neg (hno 0b11110 (by norm_num)), if_neg (hno 0b11111 (by norm_num)),
      if_neg hno3, hdiv, hmod, if_neg (not_lt.2 hc)]
  · obtain ⟨hlow, hfield, hencode⟩ := encode_large sign hc hb' hsmall
    refine ⟨_, hencode, ?_⟩
    rw [decode_eq hfield]
    have hno : ∀ k : ℕ, 30 ≤ k → (3 * 2^(width.bits - 3) + (biased * 2^(width.coefficientBits - 2) +
        coefficient % 2^(width.coefficientBits - 2))) / 2^(width.bits - 6) ≠ k := by
      intro k hk
      cases width <;>
        simp only [Width.maxExponent, Width.bias, Width.bits, Width.coefficientBits,
          Width.exponentBits] at * <;> omega
    have h3 : (3 * 2^(width.bits - 3) + (biased * 2^(width.coefficientBits - 2) +
        coefficient % 2^(width.coefficientBits - 2))) / 2^(width.bits - 3) = 3 := by
      rw [mul_comm, Nat.mul_add_div (Nat.two_pow_pos _), Nat.div_eq_of_lt hlow]
    have hdiv : (3 * 2^(width.bits - 3) + (biased * 2^(width.coefficientBits - 2) +
        coefficient % 2^(width.coefficientBits - 2))) / 2^(width.coefficientBits - 2) %
        2^width.exponentBits = biased := by
      cases width <;>
        simp only [Width.maxExponent, Width.bias, Width.bits, Width.coefficientBits,
          Width.exponentBits] at * <;> omega
    have hmod : 4 * 2^(width.coefficientBits - 2) +
        (3 * 2^(width.bits - 3) + (biased * 2^(width.coefficientBits - 2) +
          coefficient % 2^(width.coefficientBits - 2))) % 2^(width.coefficientBits - 2) =
        coefficient := by
      cases width <;>
        simp only [Width.maxCoefficient, Width.digits, Width.bits, Width.coefficientBits,
          Width.exponentBits, Nat.reducePow, Nat.reduceSub] at hc hsmall ⊢ <;> omega
    simp only [if_neg (hno 0b11110 (by norm_num)), if_neg (hno 0b11111 (by norm_num)),
      if_pos h3, hdiv, hmod, if_neg (not_lt.2 hc)]

/-- An infinity is read back as itself. -/
theorem decode_infinity (sign : Bool) (width : Width) : decode (infinity sign width) width = .infinite sign := by
  cases sign <;> cases width <;> decide

/-! ## Bringing a number into range -/

/-- The state of the loop that drops digits off a coefficient: `last` is the digit dropped last and
`remainderNonzero` says whether anything below it was not zero. -/
structure Dropping where
  coefficient : ℕ
  exponent : ℤ
  remainderNonzero : Bool
  last : ℕ
  first : Bool
  steps : ℕ
  deriving Repr

/-- One turn of the loop. Past forty turns without a coefficient the rest are taken at once. -/
def dropStep (min : ℤ) (s : Dropping) : Dropping :=
  let remainderNonzero := if !s.first && s.last ≠ 0 then true else s.remainderNonzero
  let last := s.coefficient % 10
  let coefficient := s.coefficient / 10
  let exponent := s.exponent + 1
  let steps := s.steps + 1
  let exponent := if coefficient = 0 ∧ 40 < steps then min else exponent
  ⟨coefficient, exponent, remainderNonzero, last, false, steps⟩

/-- The loop while the exponent is below `min`. Each turn raises the exponent, so as many turns as it
is below `min` are enough. -/
def dropDigits (min : ℤ) : ℕ → Dropping → Dropping
  | 0, s => s
  | n + 1, s => if s.exponent < min then dropDigits min n (dropStep min s) else s

/-- The loop that pads the coefficient while the exponent is above `max` and there is room. Each turn
lowers the exponent, so as many turns as it is above `max` are enough. -/
def padDigits (width : Width) (max : ℤ) : ℕ → ℕ × ℤ → ℕ × ℤ
  | 0, s => s
  | n + 1, (coefficient, exponent) =>
    if max < exponent ∧ coefficient * 10 ≤ width.maxCoefficient then
      padDigits width max n (coefficient * 10, exponent - 1)
    else (coefficient, exponent)

/-- The encoding of `coefficient * 10^exponent`, whose coefficient already has few enough digits,
with the exponent brought into range. -/
def fit (sign : Bool) (coefficient : ℕ) (exponent : ℤ) (width : Width) (status : Status) :
    Option (ℕ × Status) := do
  let min := width.minExponent
  let max := width.maxExponent
  if coefficient = 0 then
    return (← encode sign 0 (Max.max min (Min.min max exponent)) width, status)
  let (coefficient, exponent) := padDigits width max (exponent - max).toNat (coefficient, exponent)
  if exponent > max then
    return (infinity sign width, (status.with_ .OVERFLOW).with_ .INEXACT)
  let (coefficient, exponent, status) :=
    if exponent < min then
      let s := dropDigits min (min - exponent).toNat ⟨coefficient, exponent, false, 0, true, 0⟩
      let up := decide (s.last > 5) ||
        (decide (s.last = 5) && (s.remainderNonzero || decide (s.coefficient % 2 = 1)))
      let status := if s.last ≠ 0 ∨ s.remainderNonzero then
        (status.with_ .INEXACT).with_ .UNDERFLOW else status
      (if up then s.coefficient + 1 else s.coefficient, s.exponent, status)
    else (coefficient, exponent, status)
  return (← encode sign coefficient exponent width, status)

/-- The loop after `k` turns: `k` digits of the coefficient are dropped, and the digit dropped last
and the digits below it are remembered. -/
structure Dropped (c : ℕ) (e : ℤ) (k : ℕ) (s : Dropping) : Prop where
  coefficient : s.coefficient = c / 10^k
  exponent : s.exponent = e + k
  steps : s.steps = k
  first : s.first = decide (k = 0)
  last : 0 < k → s.last = c / 10^(k - 1) % 10
  remainder : s.remainderNonzero = decide (c % 10^(k - 1) ≠ 0)

variable {s : Dropping}

/-- One turn drops one more digit, unless the loop is taken at once to its end. -/
theorem dropStep_spec (min : ℤ) {k : ℕ}
    (h : Dropped coefficient exponent k s) (hgo : ¬ (coefficient / 10^(k + 1) = 0 ∧ 40 < k + 1)) :
    Dropped coefficient exponent (k + 1) (dropStep min s) := by
  have hdiv : s.coefficient / 10 = coefficient / 10^(k + 1) := by
    rw [h.coefficient, Nat.div_div_eq_div_mul, pow_succ]
  refine ⟨hdiv, ?_, ?_, rfl, ?_, ?_⟩
  · simp only [dropStep, hdiv, h.steps, if_neg hgo, h.exponent]
    push_cast
    ring
  · simp only [dropStep, h.steps]
  · intro _
    simp only [dropStep, h.coefficient, Nat.add_sub_cancel]
  · simp only [dropStep, h.first, h.remainder, Nat.add_sub_cancel]
    rcases Nat.eq_zero_or_pos k with rfl | hk
    · simp [Nat.mod_one]
    · -- The digit that was last joins the ones below it.
      obtain ⟨j, rfl⟩ : ∃ j, k = j + 1 := ⟨k - 1, by omega⟩
      rw [h.last hk, Nat.add_sub_cancel, Nat.mod_pow_succ]
      by_cases h1 : coefficient / 10^j % 10 = 0
      · simp [h1]
      · simp [h1]

/-- What the loop leaves decides the rounding to nearest with ties to even, and whether anything was
dropped. -/
structure Decided (coefficient K : ℕ) (s : Dropping) : Prop where
  rne : rne ((coefficient : ℚ) / 10^K) = s.coefficient + (decide (s.last > 5) ||
    (decide (s.last = 5) && (s.remainderNonzero || decide (s.coefficient % 2 = 1)))).toNat
  inexact : s.last ≠ 0 ∨ s.remainderNonzero = true ↔ coefficient % 10^K ≠ 0

/-- The digits that were dropped decide it. -/
theorem Dropped.decided {K : ℕ} (hK : 0 < K) (h : Dropped coefficient exponent K s) : Decided coefficient K s := by
  obtain ⟨j, rfl⟩ : ∃ j, K = j + 1 := ⟨K - 1, by omega⟩
  have hlast := h.last hK
  have hrem := h.remainder
  rw [Nat.add_sub_cancel] at hlast hrem
  have hsplit : coefficient = coefficient / 10^(j + 1) * 10^(j + 1) +
      (coefficient / 10^j % 10 * 10^j + coefficient % 10^j) := by
    have h1 := Nat.div_add_mod coefficient (10^(j + 1))
    rw [Nat.mod_pow_succ] at h1
    linarith
  have hr : coefficient % 10^j < 10^j := Nat.mod_lt _ (by positivity)
  have hd : coefficient / 10^j % 10 < 10 := Nat.mod_lt _ (by norm_num)
  constructor
  · have := Digits.rne_digit (n := coefficient / 10^(j + 1)) hd hr
    rw [← hsplit] at this
    rw [this, hlast, hrem, h.coefficient]
  · rw [hlast, hrem, Nat.mod_pow_succ, decide_eq_true_iff]
    have hpos : 0 < 10^j := by positivity
    constructor
    · rintro (h1 | h1)
      · have := Nat.mul_pos hpos (Nat.pos_of_ne_zero h1)
        omega
      · omega
    · intro h1
      by_contra h2
      rw [not_or, not_not, not_not] at h2
      rw [h2.1, h2.2] at h1
      simp at h1

/-- The loop drops all the digits below `min` and decides the rounding. -/
theorem dropDigits_spec {min : ℤ} (hpos : 0 < coefficient)
    (hlt : coefficient < 10^34) (n k : ℕ) (h : Dropped coefficient exponent k s)
    (hmin : exponent + k + n = min) (hK : 0 < k + n) :
    (dropDigits min n s).coefficient = coefficient / 10^(k + n) ∧
      (dropDigits min n s).exponent = min ∧ Decided coefficient (k + n) (dropDigits min n s) := by
  induction n generalizing k s with
  | zero =>
    rw [dropDigits]
    refine ⟨h.coefficient, ?_, h.decided hK⟩
    rw [h.exponent]
    omega
  | succ n ih =>
    have hgo : s.exponent < min := by
      rw [h.exponent]
      omega
    rw [dropDigits, if_pos hgo]
    by_cases hearly : coefficient / 10^(k + 1) = 0 ∧ 40 < k + 1
    · -- The coefficient is used up, and the loop goes to its end at once.
      obtain ⟨hzero, h40⟩ := hearly
      have hbig : coefficient < 10^k :=
        lt_of_lt_of_le hlt (Nat.pow_le_pow_right (by norm_num) (by omega))
      have hdone : dropStep min s = ⟨0, min, true, 0, false, k + 1⟩ := by
        have hc : s.coefficient = 0 := by rw [h.coefficient, Nat.div_eq_of_lt hbig]
        have hr : (if !s.first && s.last ≠ 0 then true else s.remainderNonzero) = true := by
          have hk1 : coefficient < 10^(k - 1) :=
            lt_of_lt_of_le hlt (Nat.pow_le_pow_right (by norm_num) (by omega))
          rw [h.remainder, Nat.mod_eq_of_lt hk1]
          simp [hpos.ne']
        simp only [dropStep, hc, h.steps, Nat.zero_div, Nat.zero_mod, true_and, if_pos h40]
        rw [hr]
      have hstop : ∀ n, dropDigits min n ⟨0, min, true, 0, false, k + 1⟩ =
          ⟨0, min, true, 0, false, k + 1⟩ := by
        intro n
        cases n with
        | zero => rfl
        | succ n => rw [dropDigits, if_neg (lt_irrefl _)]
      rw [hdone, hstop]
      have hltK : coefficient < 10^(k + (n + 1)) :=
        lt_of_lt_of_le hbig (Nat.pow_le_pow_right (by norm_num) (by omega))
      refine ⟨(Nat.div_eq_of_lt hltK).symm, rfl, ?_, ?_⟩
      · refine rne_of_lt_half (by simp; positivity) ?_
        have hK40 : (10 : ℚ)^40 * 10 ≤ 10^(k + (n + 1)) := by
          rw [← pow_succ]
          exact pow_le_pow_right₀ (by norm_num) (by omega)
        have hc : (coefficient : ℚ) < 10^34 := by exact_mod_cast hlt
        rw [div_lt_iff₀ (by positivity)]
        simp only [gt_iff_lt, Nat.not_lt_zero, decide_false, Bool.false_or, Bool.true_or,
          Bool.and_true]
        norm_num
        linarith
      · rw [Nat.mod_eq_of_lt hltK]
        simp [hpos.ne']
    · have hnext := ih (k + 1) (dropStep_spec min h hearly)
        (by push_cast at hmin ⊢; omega) (by omega)
      have hkn : k + 1 + n = k + (n + 1) := by omega
      rw [hkn] at hnext
      exact hnext

/-- Padding keeps the value, and ends in range or out of room. -/
theorem padDigits_spec (width : Width) (max : ℤ) (n : ℕ) (hn : e - max ≤ n)
    (hc : c ≤ width.maxCoefficient) (h0 : 0 < c) {c' : ℕ} {e' : ℤ}
    (h : padDigits width max n (c, e) = (c', e')) :
    (c' : ℚ) * 10^e' = c * 10^e ∧ c' ≤ width.maxCoefficient ∧ 0 < c' ∧ e' ≤ e ∧
      (e ≤ max → c' = c ∧ e' = e) ∧ (max < e → max ≤ e') ∧
      (max < e' → width.maxCoefficient < c' * 10) := by
  induction n generalizing c e with
  | zero =>
    rw [padDigits, Prod.mk.injEq] at h
    obtain ⟨rfl, rfl⟩ := h
    exact ⟨rfl, hc, h0, le_rfl, fun _ => ⟨rfl, rfl⟩, fun h => h.le, fun h => by omega⟩
  | succ n ih =>
    rw [padDigits] at h
    split_ifs at h with hgo
    · obtain ⟨h1, h2, h3, h4, -, h5, h6⟩ := ih (by push_cast at hn; omega) hgo.2 (by omega) h
      refine ⟨?_, h2, h3, by omega, fun h => by omega, fun _ => ?_, h6⟩
      · rw [h1, zpow_sub_one₀ (by norm_num)]
        push_cast
        field_simp
      · by_cases hlast : max < e - 1
        · exact h5 hlast
        · have hstop : padDigits width max n (c * 10, e - 1) = (c * 10, e - 1) := by
            cases n with
            | zero => rfl
            | succ n => rw [padDigits, if_neg fun h => hlast h.1]
          rw [hstop, Prod.mk.injEq] at h
          omega
    · rw [Prod.mk.injEq] at h
      obtain ⟨rfl, rfl⟩ := h
      exact ⟨rfl, hc, h0, le_rfl, fun _ => ⟨rfl, rfl⟩, fun h => h.le, fun h => by
        by_contra h'
        exact hgo ⟨h, not_lt.1 h'⟩⟩

/-- An encoding of the magnitude `x` rounded once, with the sign given, whose status says that it is
inexact when the status before did or when the magnitude changed. -/
structure Fitted (width : Width) (sign : Bool) (x : ℚ) (status : Status) (bits : ℕ) (st : Status) :
    Prop where
  sign : (decode bits width).HasSign sign
  rounds : width.grid.Rounds x (decode bits width).magnitude
  status : st.has .INEXACT ↔ status.has .INEXACT ∨ (decode bits width).magnitude ≠ some x

/-- A number that is in range is kept as it is. -/
theorem fit_keeps (sign : Bool) (status : Status)
    (hc : c ≤ width.maxCoefficient) (h0 : width.minExponent ≤ e) (h1 : e ≤ width.maxExponent) :
    ∃ bits, fit sign c e width status = some (bits, status) ∧
      decode bits width = .finite sign c e := by
  obtain ⟨bits, hbits, hdecode⟩ := decode_encode sign hc h0 h1
  refine ⟨bits, ?_, hdecode⟩
  have hpad : padDigits width width.maxExponent (e - width.maxExponent).toNat (c, e) = (c, e) := by
    have : (e - width.maxExponent).toNat = 0 := by omega
    rw [this, padDigits]
  have hclamp : Max.max width.minExponent (Min.min width.maxExponent e) = e := by omega
  unfold fit
  by_cases hz : c = 0
  · subst hz
    simp [hclamp, hbits]
  · simp only [if_neg hz, hpad, if_neg (not_lt.2 h1), if_neg (not_lt.2 h0), hbits, gt_iff_lt]
    rfl

/-- A zero is read back as a zero. -/
theorem fit_zero (sign : Bool) (e : ℤ) (width : Width) (status : Status) :
    ∃ bits, fit sign 0 e width status = some (bits, status) ∧ decode bits width =
      .finite sign 0 (Max.max width.minExponent (Min.min width.maxExponent e)) := by
  have hb := width.exponent_bounds
  have hlo : width.minExponent ≤ Max.max width.minExponent (Min.min width.maxExponent e) := by
    omega
  obtain ⟨bits, hbits, hdecode⟩ := decode_encode sign (Nat.zero_le width.maxCoefficient) hlo
    (by omega)
  exact ⟨bits, by simp [fit, hbits], hdecode⟩

/-- A number in range is rounded to itself. -/
theorem fit_of_mem (sign : Bool) (status : Status)
    (hc : c ≤ width.maxCoefficient) (h0 : width.minExponent ≤ e) (h1 : e ≤ width.maxExponent) :
    ∃ bits st, fit sign c e width status = some (bits, st) ∧
      Fitted width sign (c * 10^e) status bits st := by
  obtain ⟨bits, hfit, hdecode⟩ := fit_keeps sign status hc h0 h1
  have hm : (decode bits width).magnitude = some ((c : ℚ) * 10^e) := by rw [hdecode]; rfl
  refine ⟨bits, status, hfit, by rw [hdecode]; rfl, ?_, by simp [hm]⟩
  have hmax := width.maxCoefficient_succ
  rw [hm]
  refine width.grid.rounds_self ⟨c, e, ?_, h0, h1, by simp⟩
  rw [Width.grid_top]
  omega

/-- A number above the range is padded into it, or is too large. -/
theorem fit_of_gt (sign : Bool) (status : Status)
    (hc : c ≤ width.maxCoefficient) (hpos : 0 < c) (h1 : width.maxExponent < e) :
    ∃ bits st, fit sign c e width status = some (bits, st) ∧
      Fitted width sign (c * 10^e) status bits st := by
  have hb := width.exponent_bounds
  have hmax := width.maxCoefficient_succ
  generalize hpad : padDigits width width.maxExponent (e - width.maxExponent).toNat (c, e) = s
  obtain ⟨c', e'⟩ := s
  obtain ⟨hval, hc', hpos', -, -, hge, hroom⟩ := padDigits_spec width width.maxExponent _
    (by omega) hc hpos hpad
  have hge := hge h1
  rw [← hval]
  by_cases hbig : width.maxExponent < e'
  · -- There is no room left, so the magnitude is past the limit.
    have hfit : fit sign c e width status =
        some (infinity sign width, (status.with_ .OVERFLOW).with_ .INEXACT) := by
      simp [fit, hpos.ne', hpad, hbig]
    refine ⟨_, _, hfit, ?_, ?_, ?_⟩
    · rw [decode_infinity]
      rfl
    · rw [decode_infinity]
      show width.grid.limit ≤ _
      have hfull : (10 : ℚ)^width.digits ≤ c' * 10 := by
        have := hroom hbig
        exact_mod_cast (by omega : 10^width.digits ≤ c' * 10)
      have hup : (10 : ℚ) * 10^width.maxExponent ≤ 10^e' := by
        rw [← zpow_one_add₀ (by norm_num)]
        exact zpow_le_zpow_right₀ (by norm_num) (by omega)
      have h10 : (0 : ℚ) < 10^width.maxExponent := by positivity
      simp only [Grid.limit, Width.grid_top, Width.grid_most, Width.grid_unit]
      push_cast
      calc ((10 : ℚ)^width.digits - 1 / 2) * 10^width.maxExponent
          ≤ c' * 10 * 10^width.maxExponent :=
            mul_le_mul_of_nonneg_right (by linarith) h10.le
        _ = c' * (10 * 10^width.maxExponent) := by ring
        _ ≤ c' * 10^e' := mul_le_mul_of_nonneg_left hup (by positivity)
    · rw [decode_infinity]
      simp [Decoded.magnitude]
  · have he' : e' = width.maxExponent := by omega
    subst he'
    have hfit : fit sign c e width status = fit sign c' width.maxExponent width status := by
      have hz : padDigits width width.maxExponent
          (width.maxExponent - width.maxExponent).toNat (c', width.maxExponent) =
          (c', width.maxExponent) := by
        rw [sub_self]
        rfl
      simp only [fit, hpos.ne', hpos'.ne', if_false, hpad, hz]
    rw [hfit]
    exact fit_of_mem sign status hc' (by omega) le_rfl

/-- A number below the range drops digits until it is in it, and is rounded once. -/
theorem fit_of_lt (sign : Bool) (status : Status)
    (hc : c ≤ width.maxCoefficient) (hpos : 0 < c) (h0 : e < width.minExponent) :
    ∃ bits st, fit sign c e width status = some (bits, st) ∧
      Fitted width sign (c * 10^e) status bits st := by
  obtain ⟨hd7, hd34⟩ := width.digits_bounds
  have hb := width.exponent_bounds
  have hmax := width.maxCoefficient_succ
  obtain ⟨K, hK⟩ : ∃ K : ℕ, width.minExponent - e = K := ⟨(width.minExponent - e).toNat, by omega⟩
  have hKnat : (width.minExponent - e).toNat = K := by omega
  have hlt : c < 10^34 := by
    have : 10^width.digits ≤ 10^34 := Nat.pow_le_pow_right (by norm_num) hd34
    omega
  have hstart : Dropped c e 0 ⟨c, e, false, 0, true, 0⟩ := by
    refine ⟨by simp, by simp, rfl, rfl, fun h => by omega, ?_⟩
    simp [Nat.mod_one]
  have hmin : e + (0 : ℕ) + K = width.minExponent := by push_cast; omega
  obtain ⟨-, hexp, hdec⟩ := dropDigits_spec hpos hlt K 0 hstart hmin (by omega)
  rw [zero_add] at hdec
  have hpad : padDigits width width.maxExponent (e - width.maxExponent).toNat (c, e) = (c, e) := by
    have : (e - width.maxExponent).toNat = 0 := by omega
    rw [this, padDigits]
  generalize hs : dropDigits width.minExponent K ⟨c, e, false, 0, true, 0⟩ = s at *
  -- The coefficient in units of the least exponent, and the integer it rounds to.
  have hscaled : (c : ℚ) * 10^e / 10^width.minExponent = c / 10^K := by
    have : (10 : ℚ)^width.minExponent = 10^K * 10^e := by
      rw [← zpow_natCast, ← zpow_add₀ (by norm_num)]
      congr 1
      omega
    rw [this, mul_div_mul_right _ _ (by positivity)]
  have hround := hdec.rne
  generalize hup : (decide (s.last > 5) ||
    (decide (s.last = 5) && (s.remainderNonzero || decide (s.coefficient % 2 = 1)))) = up at *
  have hle : s.coefficient + up.toNat ≤ width.maxCoefficient := by
    have h1 : rne ((c : ℚ) / 10^K) ≤ c := by
      refine rne_le (by positivity) (div_le_self (by positivity) ?_)
      exact one_le_pow₀ (by norm_num)
    omega
  have hunits : (if up then s.coefficient + 1 else s.coefficient) = s.coefficient + up.toNat := by
    cases up <;> rfl
  obtain ⟨bits, hbits, hdecode⟩ := decode_encode sign hle le_rfl
    (by omega : width.minExponent ≤ width.maxExponent)
  have hfit : fit sign c e width status = some (bits,
      if s.last ≠ 0 ∨ s.remainderNonzero = true then
        (status.with_ .INEXACT).with_ .UNDERFLOW else status) := by
    have h1 : ¬ e > width.maxExponent := by omega
    simp only [fit, hpos.ne', if_false, hpad, h1, h0, if_true, hKnat, hs, hup, hunits, hexp, hbits]
    rfl
  have hm : (decode bits width).magnitude =
      some (((s.coefficient + up.toNat : ℕ) : ℚ) * 10^width.minExponent) := by
    rw [hdecode]
    rfl
  have h10 : (0 : ℚ) < 10^width.minExponent := by positivity
  refine ⟨bits, _, hfit, by rw [hdecode]; rfl, ?_, ?_⟩
  · rw [hm]
    have hspaced : width.grid.Spaced (c * 10^e) width.minExponent := by
      refine ⟨le_rfl, ?_, Or.inl rfl⟩
      have h1 : (c : ℚ) < 10^width.digits := by exact_mod_cast (by omega : c < 10^width.digits)
      have h2 : (10 : ℚ)^e ≤ 10^width.minExponent := zpow_le_zpow_right₀ (by norm_num) h0.le
      rw [Width.grid_top, Width.grid_unit]
      push_cast
      calc (c : ℚ) * 10^e ≤ c * 10^width.minExponent :=
            mul_le_mul_of_nonneg_left h2 (by positivity)
        _ < 10^width.digits * 10^width.minExponent := mul_lt_mul_of_pos_right h1 h10
    refine width.grid.rounds_scaled (by positivity) hspaced _ ?_ ?_
    · rw [Width.grid_most, Width.grid_unit, hscaled, hround, Width.grid_top]
      simp only [reduceCtorEq, false_iff]
      omega
    · intro v hv
      rw [Width.grid_unit, hscaled, hround]
      exact (Option.some.inj hv).symm
  · -- Dropped digits are all zero exactly when the rounded integer gives the magnitude back.
    have hiff : c % 10^K ≠ 0 ↔ (decode bits width).magnitude ≠ some ((c : ℚ) * 10^e) := by
      rw [hm, not_iff_not, Option.some.injEq, ← hround, ← eq_div_iff h10.ne', hscaled]
      constructor
      · intro h
        obtain ⟨n, rfl⟩ := Nat.dvd_of_mod_eq_zero h
        have : ((10^K * n : ℕ) : ℚ) / 10^K = n := by
          push_cast
          field_simp
        rw [this, rne_natCast]
      · intro h
        rw [eq_div_iff (by positivity)] at h
        have : rne ((c : ℚ) / 10^K) * 10^K = c := by exact_mod_cast h
        rw [← this, Nat.mul_mod_left]
    rw [← hiff, ← hdec.inexact]
    split_ifs with h
    · simp [h]
    · simp [h]

/-- Bringing a number into range rounds it once. -/
theorem fit_spec (sign : Bool) (e : ℤ) (width : Width) (status : Status)
    (hc : c ≤ width.maxCoefficient) (hpos : 0 < c) :
    ∃ bits st, fit sign c e width status = some (bits, st) ∧
      Fitted width sign (c * 10^e) status bits st := by
  rcases lt_or_ge e width.minExponent with h0 | h0
  · exact fit_of_lt sign status hc hpos h0
  · rcases lt_or_ge width.maxExponent e with h1 | h1
    · exact fit_of_gt sign status hc hpos h1
    · exact fit_of_mem sign status hc h0 h1

end Dfp

end Rucc.Base
