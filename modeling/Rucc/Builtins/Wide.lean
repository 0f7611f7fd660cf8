import Rucc.Lib.U128
import Rucc.Lib.Words

/-!
# Two hundred and fifty six bits

The `Wide` of `runtime/rucc-builtins/src/quad.rs`: two halves of 128 bits, with the shifts, the
comparison, the addition, the subtraction, a product of two halves and a division a bit at a time.

The source's operations wrap where a result does not fit. Here they are `none` there, so that a result
says that nothing was lost. `Wide.ofNat` is the value with a given number, and each operation is
stated on it.
-/

namespace Rucc.Builtins

open Checked Words

/-- A value of 256 bits, by its two halves. -/
structure Wide where
  high : ℕ
  low : ℕ
  deriving DecidableEq, Repr

namespace Wide

variable {n a b : ℕ}

/-! ## The operations -/

def ZERO : Wide := ⟨0, 0⟩

/-- A value that fits in a half. -/
def narrow (value : ℕ) : Wide := ⟨0, value⟩

def isZero (w : Wide) : Bool := w.high = 0 ∧ w.low = 0

/-- How many bits it takes to write down. -/
def bits (w : Wide) : ℕ :=
  if w.high ≠ 0 then 256 - leadingZeros 128 w.high else 128 - leadingZeros 128 w.low

/-- The value moved up, or nothing when a bit would be lost. -/
def shiftedUp (w : Wide) (up : ℕ) : Option Wide :=
  if w.bits ≠ 0 ∧ 256 < w.bits + up then none
  else if up = 0 then some w
  else if 256 ≤ up then some ZERO
  else if 128 ≤ up then some ⟨U128.shiftLeft w.low (up - 128), 0⟩
  else some ⟨U128.shiftLeft w.high up ||| w.low >>> (128 - up), U128.shiftLeft w.low up⟩

/-- The value moved down. -/
def shiftedDown (w : Wide) (down : ℕ) : Wide :=
  if down = 0 then w
  else if 256 ≤ down then ZERO
  else if 128 ≤ down then ⟨0, w.high >>> (down - 128)⟩
  else ⟨w.high >>> down, w.low >>> down ||| U128.shiftLeft w.high (128 - down)⟩

/-- The lowest `count` bits. -/
def lowBits (w : Wide) (count : ℕ) : Wide :=
  if count = 0 then ZERO
  else if 256 ≤ count then w
  else if 128 ≤ count then ⟨w.high &&& (1 <<< (count - 128) - 1), w.low⟩
  else ⟨0, w.low &&& (1 <<< count - 1)⟩

/-- The sum, or nothing when it does not fit. -/
def plus (w other : Wide) : Option Wide :=
  let low := w.low + other.low
  let carried := low / 2^128
  let high := w.high + other.high + carried
  if high < 2^128 then some ⟨high, low % 2^128⟩ else none

/-- The difference, or nothing when it would be negative. -/
def minus (w other : Wide) : Option Wide :=
  let borrowed := if w.low < other.low then 1 else 0
  if w.high < other.high + borrowed then none
  else some ⟨w.high - other.high - borrowed, U128.wrappingSub w.low other.low⟩

/-- The order of two values: of their high halves, and then of their low ones. -/
def lt (w other : Wide) : Bool := w.high < other.high ∨ w.high = other.high ∧ w.low < other.low

/-! ## The value with a given number -/

/-- The value of a number below `2^256`. -/
def ofNat (n : ℕ) : Wide := ⟨n / 2^128, n % 2^128⟩

theorem ofNat_narrow (h : n < 2^128) : narrow n = ofNat n := by
  rw [narrow, ofNat, Nat.div_eq_of_lt h, Nat.mod_eq_of_lt h]

theorem ofNat_eq {high low : ℕ} (h : low < 2^128) : (⟨high, low⟩ : Wide) = ofNat (high * 2^128 + low) := by
  rw [ofNat]
  congr 1 <;> omega

theorem ofNat_injective (h : ofNat a = ofNat b) : a = b := by
  rw [ofNat, ofNat, Wide.mk.injEq] at h
  omega

theorem isZero_ofNat (n : ℕ) : (ofNat n).isZero = decide (n = 0) := by
  rw [isZero, ofNat, decide_eq_decide]
  dsimp only
  omega

theorem lt_ofNat (a b : ℕ) : (ofNat a).lt (ofNat b) = decide (a < b) := by
  rw [lt, ofNat, ofNat, decide_eq_decide]
  dsimp only
  omega

theorem bits_ofNat (h : n < 2^256) : (ofNat n).bits = n.size := by
  have hhigh : (n / 2^128).size ≤ 128 := Nat.size_le.mpr (by omega)
  have hlow : (n % 2^128).size ≤ 128 := Nat.size_le.mpr (Nat.mod_lt _ (by norm_num))
  rw [bits, ofNat]
  dsimp only
  split_ifs with h0
  · have hpos : 0 < (n / 2^128).size := Nat.size_pos.mpr (Nat.pos_of_ne_zero h0)
    have hsize : n.size = (n / 2^128).size + 128 := by
      refine le_antisymm (Nat.size_le.mpr ?_) ?_
      · have hlt := Nat.lt_size_self (n / 2^128)
        rw [pow_add]
        omega
      · have hle : 2^((n / 2^128).size - 1) ≤ n / 2^128 := Nat.lt_size.mp (by omega)
        have hmul : 2^((n / 2^128).size - 1 + 128) ≤ n := by
          rw [pow_add]
          omega
        have := Nat.lt_size.mpr hmul
        omega
    rw [leadingZeros]
    omega
  · rw [not_not] at h0
    have hmod : n % 2^128 = n := by omega
    rw [leadingZeros, hmod]
    rw [hmod] at hlow
    omega

theorem plus_ofNat (h : a + b < 2^256) : (ofNat a).plus (ofNat b) = some (ofNat (a + b)) := by
  unfold plus ofNat
  dsimp only
  rw [if_pos (by omega), Option.some.injEq, Wide.mk.injEq]
  omega

theorem minus_ofNat (h : b ≤ a) : (ofNat a).minus (ofNat b) = some (ofNat (a - b)) := by
  unfold minus ofNat U128.wrappingSub
  dsimp only
  split_ifs with hlow hhigh hhigh
  · omega
  · rw [Option.some.injEq, Wide.mk.injEq]
    omega
  · omega
  · rw [Option.some.injEq, Wide.mk.injEq]
    omega

/-- A half moved up, with the bits of the other below it. -/
theorem or_eq_add {k : ℕ} (h : b < 2^k) (hk : k ≤ 128) : U128.shiftLeft a k ||| b = U128.shiftLeft a k + b := by
  have hsplit : (2 : ℕ)^128 = 2^k * 2^(128 - k) := by rw [← pow_add]; congr 1; omega
  have hmod : U128.shiftLeft a k = (a % 2^(128 - k)) <<< k := by
    rw [U128.shiftLeft, Nat.shiftLeft_eq, Nat.shiftLeft_eq, hsplit, mul_comm a,
      Nat.mul_mod_mul_left, mul_comm]
  rw [hmod]
  exact (Nat.shiftLeft_add_eq_or_of_lt h _).symm

theorem shiftedUp_ofNat {up : ℕ} (h : n.size + up ≤ 256) : (ofNat n).shiftedUp up = some (ofNat (n * 2^up)) := by
  have hn : n < 2^256 := Nat.size_le.mp (by omega)
  have hlt : n * 2^up < 2^256 := mul_pow_lt h
  unfold shiftedUp
  rw [bits_ofNat hn, if_neg (by omega)]
  by_cases h0 : up = 0
  · rw [if_pos h0, h0, pow_zero, mul_one]
  rw [if_neg h0]
  by_cases h256 : 256 ≤ up
  · have hsize : n.size = 0 := by omega
    have hzero : n = 0 := by
      by_contra hne
      exact absurd (Nat.size_pos.mpr (Nat.pos_of_ne_zero hne)) (by omega)
    rw [if_pos h256, hzero, zero_mul]
    rfl
  rw [if_neg h256]
  by_cases h128 : 128 ≤ up
  · -- Everything is in the low half, and lands in the high one.
    have hsmall : n < 2^128 := Nat.size_le.mp (by omega)
    have hpow : n * 2^up = n * 2^(up - 128) * 2^128 := by
      rw [mul_assoc, ← pow_add]
      congr 2
      omega
    rw [hpow] at hlt
    have hfit : n * 2^(up - 128) < 2^128 := by omega
    rw [if_pos h128, ofNat, ofNat, hpow, Nat.mul_div_cancel _ (by norm_num), Nat.mul_mod_left]
    dsimp only
    rw [Nat.mod_eq_of_lt hsmall, U128.shiftLeft, Nat.shiftLeft_eq, Nat.mod_eq_of_lt hfit]
  · have hsplit : (2 : ℕ)^128 = 2^up * 2^(128 - up) := by rw [← pow_add]; congr 1; omega
    have hpos : 0 < 2^up := by positivity
    rw [if_neg h128, ofNat, ofNat]
    dsimp only
    have hover : (n % 2^128) >>> (128 - up) < 2^up := by
      rw [Nat.shiftRight_eq_div_pow, Nat.div_lt_iff_lt_mul (by positivity), ← hsplit]
      exact Nat.mod_lt _ (by norm_num)
    have hlow : U128.shiftLeft (n % 2^128) up = n * 2^up % 2^128 := by
      rw [U128.shiftLeft, Nat.shiftLeft_eq, Nat.mod_mul_mod]
    have hdiv : n * 2^up / 2^128 = n / 2^(128 - up) := by
      rw [hsplit, mul_comm n, Nat.mul_div_mul_left _ _ hpos]
    have hhigh : n / 2^128 * 2^up + n % 2^128 / 2^(128 - up) = n / 2^(128 - up) := by
      have h1 := Nat.div_add_mod n (2^128)
      have h2 : n = n % 2^128 + 2^(128 - up) * (2^up * (n / 2^128)) := by
        rw [← mul_assoc, mul_comm (2^(128 - up)), ← hsplit]
        omega
      conv_rhs => rw [h2]
      rw [Nat.add_mul_div_left _ _ (by positivity)]
      ring
    have hfit : n / 2^128 * 2^up < 2^128 := by
      have hquot : n * 2^up / 2^128 < 2^128 := by omega
      rw [hdiv, ← hhigh] at hquot
      exact (Nat.le_add_right _ _).trans_lt hquot
    rw [or_eq_add hover (by omega), hlow, hdiv, ← hhigh, U128.shiftLeft, Nat.shiftLeft_eq,
      Nat.shiftRight_eq_div_pow, Nat.mod_eq_of_lt hfit]

theorem shiftedDown_ofNat {down : ℕ} (h : n < 2^256) : (ofNat n).shiftedDown down = ofNat (n / 2^down) := by
  unfold shiftedDown
  by_cases h0 : down = 0
  · rw [if_pos h0, h0, pow_zero, Nat.div_one]
  rw [if_neg h0]
  by_cases h256 : 256 ≤ down
  · have hlt : n < 2^down := h.trans_le (Nat.pow_le_pow_right (by norm_num) h256)
    rw [if_pos h256, Nat.div_eq_of_lt hlt]
    rfl
  rw [if_neg h256]
  by_cases h128 : 128 ≤ down
  · have hpow : n / 2^down = n / 2^128 / 2^(down - 128) := by
      rw [Nat.div_div_eq_div_mul, pow_mul_pow_sub 2 h128]
    have hsmall : n / 2^down < 2^128 := by
      rw [hpow]
      exact (Nat.div_le_self _ _).trans_lt (by omega)
    rw [if_pos h128, ofNat, ofNat, Nat.div_eq_of_lt hsmall, Nat.mod_eq_of_lt hsmall,
      Nat.shiftRight_eq_div_pow, hpow]
  · have hsplit : (2 : ℕ)^128 = 2^(128 - down) * 2^down := by rw [← pow_add]; congr 1; omega
    rw [if_neg h128, ofNat, ofNat]
    dsimp only
    have hlow : (n % 2^128) >>> down < 2^(128 - down) := by
      rw [Nat.shiftRight_eq_div_pow, Nat.div_lt_iff_lt_mul (by positivity), ← hsplit]
      exact Nat.mod_lt _ (by norm_num)
    rw [Nat.or_comm, or_eq_add hlow (by omega), Nat.shiftRight_eq_div_pow,
      Nat.shiftRight_eq_div_pow]
    have hwhole : n / 2^down = n % 2^128 / 2^down + 2^(128 - down) * (n / 2^128) := by
      have h2 : n = n % 2^128 + 2^down * (2^(128 - down) * (n / 2^128)) := by
        rw [← mul_assoc, mul_comm (2^down), ← hsplit]
        omega
      conv_lhs => rw [h2]
      rw [Nat.add_mul_div_left _ _ (by positivity)]
    have hsh : U128.shiftLeft (n / 2^128) (128 - down) =
        2^(128 - down) * (n / 2^128 % 2^down) := by
      rw [U128.shiftLeft, Nat.shiftLeft_eq, hsplit, mul_comm (n / _), Nat.mul_mod_mul_left]
    rw [Nat.shiftRight_eq_div_pow] at hlow
    rw [Wide.mk.injEq]
    constructor
    · rw [Nat.div_div_eq_div_mul, Nat.div_div_eq_div_mul, mul_comm]
    · rw [hsh, hwhole]
      have hq := Nat.div_add_mod (n / 2^128) (2^down)
      have hmod : 2^(128 - down) * (n / 2^128) =
          2^(128 - down) * (n / 2^128 % 2^down) + 2^128 * (n / 2^128 / 2^down) := by
        conv_lhs => rw [← hq]
        rw [hsplit]
        ring
      have hr : n / 2^128 % 2^down + 1 ≤ 2^down := Nat.mod_lt _ (by positivity)
      have hfit : n % 2^128 / 2^down + 2^(128 - down) * (n / 2^128 % 2^down) < 2^128 := by
        calc n % 2^128 / 2^down + 2^(128 - down) * (n / 2^128 % 2^down)
            < 2^(128 - down) + 2^(128 - down) * (n / 2^128 % 2^down) := Nat.add_lt_add_right hlow _
          _ = 2^(128 - down) * (n / 2^128 % 2^down + 1) := by ring
          _ ≤ 2^(128 - down) * 2^down := Nat.mul_le_mul_left _ hr
          _ = 2^128 := hsplit.symm
      rw [hmod, ← add_assoc, Nat.add_mul_mod_self_left, Nat.mod_eq_of_lt hfit, add_comm]

theorem lowBits_ofNat {count : ℕ} (h : n < 2^256) : (ofNat n).lowBits count = ofNat (n % 2^count) := by
  unfold lowBits
  by_cases h0 : count = 0
  · rw [if_pos h0, h0, pow_zero, Nat.mod_one]
    rfl
  rw [if_neg h0]
  by_cases h256 : 256 ≤ count
  · have hlt : n < 2^count := h.trans_le (Nat.pow_le_pow_right (by norm_num) h256)
    rw [if_pos h256, Nat.mod_eq_of_lt hlt]
  rw [if_neg h256]
  by_cases h128 : 128 ≤ count
  · have hpow : (2 : ℕ)^count = 2^128 * 2^(count - 128) := (pow_mul_pow_sub 2 h128).symm
    rw [if_pos h128, ofNat, ofNat]
    dsimp only
    rw [Nat.one_shiftLeft, Nat.and_two_pow_sub_one_eq_mod, hpow, Nat.mod_mul_right_div_self,
      Nat.mod_mul_right_mod]
  · have hpow : (2 : ℕ)^128 = 2^count * 2^(128 - count) := by rw [← pow_add]; congr 1; omega
    have hsmall : n % 2^count < 2^128 :=
      (Nat.mod_lt _ (by positivity)).trans_le (Nat.pow_le_pow_right (by norm_num) (by omega))
    rw [if_neg h128, ofNat, ofNat, Nat.div_eq_of_lt hsmall, Nat.mod_eq_of_lt hsmall]
    dsimp only
    rw [Nat.one_shiftLeft, Nat.and_two_pow_sub_one_eq_mod, hpow, Nat.mod_mul_right_mod]

end Wide

/-! ## Products -/

/-- The product of two numbers of up to 113 bits, from four products of halves of 64 bits. -/
def wideProduct (left right : ℕ) : Option Wide := do
  let leftLow := left % 2^64
  let leftHigh := (left >>> 64) % 2^64
  let rightLow := right % 2^64
  let rightHigh := (right >>> 64) % 2^64
  let low ← mul 128 leftLow rightLow
  let high ← mul 128 leftHigh rightHigh
  let first ← mul 128 leftLow rightHigh
  let second ← mul 128 leftHigh rightLow
  let out : Wide := ⟨high, low⟩
  let out ← out.plus ⟨first >>> 64, U128.shiftLeft first 64⟩
  out.plus ⟨second >>> 64, U128.shiftLeft second 64⟩

/-- A product of halves, in its place across the middle. -/
theorem middle_eq (n : ℕ) : (⟨n >>> 64, U128.shiftLeft n 64⟩ : Wide) = Wide.ofNat (n * 2^64) := by
  rw [Wide.ofNat, U128.shiftLeft, Nat.shiftLeft_eq, Nat.shiftRight_eq_div_pow, Wide.mk.injEq]
  omega

theorem wideProduct_eq {left right : ℕ} (hl : left < 2^128) (hr : right < 2^128) :
    wideProduct left right = some (Wide.ofNat (left * right)) := by
  obtain ⟨lh, ll, hleft, hlh, hll⟩ : ∃ lh ll, left = lh * 2^64 + ll ∧ lh < 2^64 ∧ ll < 2^64 :=
    ⟨left / 2^64, left % 2^64, by omega, by omega, by omega⟩
  obtain ⟨rh, rl, hright, hrh, hrl⟩ : ∃ rh rl, right = rh * 2^64 + rl ∧ rh < 2^64 ∧ rl < 2^64 :=
    ⟨right / 2^64, right % 2^64, by omega, by omega, by omega⟩
  have hhalf : ∀ {a b : ℕ}, a < 2^64 → b < 2^64 → a * b < 2^128 := fun {a b} ha hb => by
    calc a * b < 2^64 * 2^64 := Nat.mul_lt_mul'' ha hb
      _ = 2^128 := by norm_num
  have hprod : left * right = lh * rh * 2^128 + ll * rl + ll * rh * 2^64 + lh * rl * 2^64 := by
    rw [hleft, hright]
    ring
  have hlt : left * right < 2^256 := by
    calc left * right < 2^128 * 2^128 := Nat.mul_lt_mul'' hl hr
      _ = 2^256 := by norm_num
  have e1 : left % 2^64 = ll := by omega
  have e2 : (left >>> 64) % 2^64 = lh := by rw [Nat.shiftRight_eq_div_pow]; omega
  have e3 : right % 2^64 = rl := by omega
  have e4 : (right >>> 64) % 2^64 = rh := by rw [Nat.shiftRight_eq_div_pow]; omega
  unfold wideProduct
  dsimp only
  rw [e1, e2, e3, e4, mul_eq (hhalf hll hrl), mul_eq (hhalf hlh hrh), mul_eq (hhalf hll hrh),
    mul_eq (hhalf hlh hrl)]
  simp only [Option.bind_eq_bind, Option.bind_some]
  rw [hprod] at hlt ⊢
  have hpart : lh * rh * 2^128 + ll * rl + ll * rh * 2^64 < 2^256 :=
    (Nat.le_add_right _ _).trans_lt hlt
  rw [middle_eq, middle_eq, Wide.ofNat_eq (hhalf hll hrl), Wide.plus_ofNat hpart, Option.bind_some,
    Wide.plus_ofNat hlt]

/-! ## Quotients -/

/-- One turn of the division: the next bit of the dividend, a comparison and a subtraction. -/
def divideBit (dividend divisor : Wide) (state : Wide × Wide) (at_ : ℕ) : Option (Wide × Wide) := do
  let (quotient, remainder) := state
  let bit := (dividend.shiftedDown at_).low &&& 1
  let moved ← remainder.shiftedUp 1
  let remainder ← moved.plus (Wide.narrow bit)
  let quotient ← quotient.shiftedUp 1
  if remainder.lt divisor then some (quotient, remainder)
  else do
    let remainder ← remainder.minus divisor
    let quotient ← quotient.plus (Wide.narrow 1)
    some (quotient, remainder)

/-- A wide dividend over a divisor, with whether anything was left over. -/
def divideWide (dividend : Wide) (divisor : ℕ) : Option (Wide × Bool) := do
  let (quotient, remainder) ← (List.range dividend.bits).reverse.foldlM
    (divideBit dividend (Wide.narrow divisor)) (Wide.ZERO, Wide.ZERO)
  some (quotient, !remainder.isZero)

/-- A turn brings the next bit of the dividend into the quotient and the remainder. -/
theorem divideBit_eq {n d at_ : ℕ} (hn : n < 2^256) (hd : 0 < d) (hd' : d < 2^128) :
    divideBit (Wide.ofNat n) (Wide.narrow d)
      (Wide.ofNat (n / 2^(at_ + 1) / d), Wide.ofNat (n / 2^(at_ + 1) % d)) at_ =
      some (Wide.ofNat (n / 2^at_ / d), Wide.ofNat (n / 2^at_ % d)) := by
  have hdown : n / 2^at_ < 2^256 := (Nat.div_le_self _ _).trans_lt hn
  have hbit : n / 2^at_ = 2 * (n / 2^(at_ + 1)) + n / 2^at_ % 2 := by
    rw [pow_succ, ← Nat.div_div_eq_div_mul]
    omega
  have hrest : n / 2^(at_ + 1) % d < d := Nat.mod_lt _ hd
  have hquot := Nat.div_add_mod (n / 2^(at_ + 1)) d
  have hqle : n / 2^(at_ + 1) / d ≤ n / 2^(at_ + 1) := Nat.div_le_self _ _
  unfold divideBit
  rw [Wide.shiftedDown_ofNat hn]
  have hlow : (Wide.ofNat (n / 2^at_)).low &&& 1 = n / 2^at_ % 2 := by
    rw [Nat.and_one_is_mod, Wide.ofNat]
    dsimp only
    omega
  dsimp only
  rw [hlow, Wide.ofNat_narrow hd']
  have hbit2 : n / 2^at_ % 2 < 2 := Nat.mod_lt _ (by norm_num)
  generalize n / 2^at_ % 2 = bit at *
  generalize n / 2^at_ = next at *
  generalize n / 2^(at_ + 1) = whole at *
  have hrsize : (whole % d).size ≤ 128 := Nat.size_le.mpr (by omega)
  have hqsize : (whole / d).size ≤ 255 := Nat.size_le.mpr (by omega)
  rw [Wide.ofNat_narrow (by omega), Wide.ofNat_narrow (by norm_num),
    Wide.shiftedUp_ofNat (by omega), Wide.shiftedUp_ofNat (by omega)]
  simp only [Option.bind_eq_bind, Option.bind_some, pow_one]
  rw [Wide.plus_ofNat (by omega)]
  simp only [Option.bind_some]
  rw [Wide.lt_ofNat]
  have hmul : next = d * (whole / d * 2) + (whole % d * 2 + bit) := by
    rw [hbit]
    conv_lhs => rw [← hquot]
    ring
  by_cases hlt : whole % d * 2 + bit < d
  · rw [if_pos (decide_eq_true hlt)]
    have hdiv : next / d = whole / d * 2 := by
      rw [hmul, Nat.mul_add_div hd, Nat.div_eq_of_lt hlt, add_zero]
    have hmod : next % d = whole % d * 2 + bit := by
      rw [hmul, Nat.mul_add_mod, Nat.mod_eq_of_lt hlt]
    rw [hdiv, hmod]
  · have hsub : whole % d * 2 + bit - d < d := by omega
    have hsplit : next = d * (whole / d * 2 + 1) + (whole % d * 2 + bit - d) := by
      rw [mul_add, mul_one]
      omega
    have hdiv : next / d = whole / d * 2 + 1 := by
      rw [hsplit, Nat.mul_add_div hd, Nat.div_eq_of_lt hsub, add_zero]
    have hmod : next % d = whole % d * 2 + bit - d := by
      rw [hsplit, Nat.mul_add_mod, Nat.mod_eq_of_lt hsub]
    rw [if_neg (by simpa using hlt), Wide.minus_ofNat (not_lt.mp hlt)]
    simp only [Option.bind_some]
    rw [Wide.plus_ofNat (by omega), Option.bind_some, hdiv, hmod]

/-- The division a bit at a time is the division. -/
theorem divideWide_eq {n d : ℕ} (hn : n < 2^256) (hd : 0 < d) (hd' : d < 2^128) :
    divideWide (Wide.ofNat n) d = some (Wide.ofNat (n / d), n % d != 0) := by
  have hloop : ∀ count : ℕ, (List.range count).reverse.foldlM
      (divideBit (Wide.ofNat n) (Wide.narrow d))
        (Wide.ofNat (n / 2^count / d), Wide.ofNat (n / 2^count % d)) =
      some (Wide.ofNat (n / d), Wide.ofNat (n % d)) := by
    intro count
    induction count with
    | zero => simp
    | succ count ih =>
      rw [List.range_succ, List.reverse_append, List.foldlM_append]
      simpa [divideBit_eq hn hd hd'] using ih
  have hstart := hloop n.size
  have hzero : n / 2^n.size = 0 := Nat.div_eq_of_lt (Nat.lt_size_self n)
  rw [hzero, Nat.zero_div, Nat.zero_mod] at hstart
  unfold divideWide
  rw [Wide.bits_ofNat hn, show Wide.ZERO = Wide.ofNat 0 from rfl, hstart]
  simp only [Option.bind_eq_bind, Option.bind_some, Wide.isZero_ofNat]
  congr 2

end Rucc.Builtins
