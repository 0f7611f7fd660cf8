import Mathlib.Data.Nat.Log
import Mathlib.Order.CountableDenseLinearOrder
import Rucc.Base.Dfp
import Rucc.Lib.Words

/-!
# Decimal numbers and their encodings

A `Float` in a decimal format is what `float/dec.rs` carries: its significand is the coefficient and its
exponent the power of ten. `decimalBits` and `decimalFromBits` are the encoding both ways, and
`decimalCompare` the order of two numbers of one format.

A number a format can hold comes back from its encoding as it was, the exponent with it. A canonical encoding
comes back from the number it holds, unless it is that of a nan with a payload, which a `Float` has no place
for. The comparison goes by the exponents of the leading digits first, so that what has to be scaled for the
rest of it never has more digits than the format.
-/

namespace Rucc.Base.Dfp

open Checked

/-- A floating point number in a decimal format. -/
structure Number where
  width : Width
  category : Category
  sign : Bool
  exponent : ℤ
  significand : ℕ
  deriving DecidableEq, Repr

/-- A quiet nan of this width with nothing in its payload. -/
def nan (width : Width) : ℕ := 0b111110 <<< (width.bits - 7)

namespace Number

variable {bits value : ℕ} {width : Width} {x : Number}

/-- The number in the decimal encoding its format names. -/
def decimalBits (x : Number) : Option ℕ :=
  match x.category with
  | .zero => encode x.sign x.significand x.exponent x.width
  | .finite => encode x.sign x.significand x.exponent x.width
  | .infinite => some (infinity x.sign x.width)
  | .nan =>
    let signaling := if x.exponent ≠ 0 then 1 <<< (x.width.bits - 7) else 0
    let sign := if x.sign then signBit x.width else 0
    some (nan x.width ||| signaling ||| sign)

/-- The number the bits of a decimal encoding hold. -/
def decimalFromBits (width : Width) (bits : ℕ) : Number :=
  match decode bits width with
  | .finite sign coefficient exponent =>
    ⟨width, if coefficient = 0 then .zero else .finite, sign, exponent, coefficient⟩
  | .infinite sign => ⟨width, .infinite, sign, 0, 0⟩
  | .nan sign signaling => ⟨width, .nan, sign, if signaling then 1 else 0, 0⟩

/-- The numbers a format can hold: any coefficient and exponent in range, with the exponent of a nan for
whether it is a signalling one. -/
def Held (x : Number) : Prop :=
  match x.category with
  | .zero => x.significand = 0 ∧ x.width.minExponent ≤ x.exponent ∧ x.exponent ≤ x.width.maxExponent
  | .finite => 0 < x.significand ∧ x.significand ≤ x.width.maxCoefficient ∧
      x.width.minExponent ≤ x.exponent ∧ x.exponent ≤ x.width.maxExponent
  | .infinite => x.significand = 0 ∧ x.exponent = 0
  | .nan => x.significand = 0 ∧ (x.exponent = 0 ∨ x.exponent = 1)

instance (x : Number) : Decidable x.Held := by
  unfold Held
  split <;> infer_instance

/-! ## Comparison -/

/-- How many digits there are, counted by dividing. -/
def countDigits : ℕ → ℕ → ℕ → ℕ
  | 0, _, count => count
  | fuel + 1, value, count => if 10 ≤ value then countDigits fuel (value / 10) (count + 1) else count

/-- How many decimal digits a coefficient has, which is one for zero. No number below `2^128` is divided by
ten more than that many times. -/
def digits (value : ℕ) : ℕ := countDigits 128 value 1

/-- A coefficient times a power of ten, or nothing when it does not fit. -/
def scaledUp (value : ℕ) (power : ℤ) : Option ℕ :=
  if 10^power.toNat < 2^128 then Words.mul 128 value (10^power.toNat) else none

/-- The order of the magnitudes of two finite numbers that are not zero. -/
def decimalMagnitudes (left right : Number) : Option Ordering := do
  let leftAdjusted ← checked 32 (left.exponent + digits left.significand)
  let rightAdjusted ← checked 32 (right.exponent + digits right.significand)
  if leftAdjusted ≠ rightAdjusted then some (compare leftAdjusted rightAdjusted)
  else
    match compare (digits left.significand) (digits right.significand) with
    | .lt => do
      let a ← scaledUp left.significand (digits right.significand - digits left.significand)
      some (compare a right.significand)
    | .gt => do
      let b ← scaledUp right.significand (digits left.significand - digits right.significand)
      some (compare left.significand b)
    | .eq => some (compare left.significand right.significand)

/-- The order of the magnitudes of two numbers that are not nans. -/
def magnitudes (left right : Number) : Option Ordering :=
  match left.category, right.category with
  | .infinite, .infinite => some .eq
  | .infinite, _ => some .gt
  | _, .infinite => some .lt
  | .zero, _ => some .lt
  | _, .zero => some .gt
  | _, _ => decimalMagnitudes left right

/-- The order of two decimal numbers of one format, which there is none of when either is a nan. -/
def decimalCompare (left right : Number) : Option (Option Ordering) :=
  if left.category = .nan ∨ right.category = .nan then some none
  else if left.category = .zero ∧ right.category = .zero then some (some .eq)
  else if left.sign ≠ right.sign then some (some (if left.sign then .lt else .gt))
  else (magnitudes left right).map fun order => some (if left.sign then order.swap else order)

/-! ## What an encoding says -/

/-- The five bits after the sign. -/
def combination (width : Width) (bits : ℕ) : ℕ := bits / 2^(width.bits - 6) % 2^5

/-- The coefficient an encoding of a number stores, whose top bits are left out when the two bits after the
sign say so. -/
def coefficientField (width : Width) (bits : ℕ) : ℕ :=
  if bits / 2^(width.bits - 3) % 2^2 = 3 then
    4 * 2^(width.coefficientBits - 2) + bits % 2^(width.coefficientBits - 2)
  else bits % 2^width.coefficientBits

/-- What is below the bit that says whether a nan is a signalling one. -/
def payload (width : Width) (bits : ℕ) : ℕ := bits % 2^(width.bits - 7)

/-- An encoding is canonical when its coefficient has no more digits than the format, when nothing follows
what makes it an infinity, and when the payload of a nan has one digit fewer than a coefficient may have. -/
def Canonical (width : Width) (bits : ℕ) : Prop :=
  bits < 2^width.bits ∧
    if combination width bits = 0b11110 then bits % 2^(width.bits - 6) = 0
    else if combination width bits = 0b11111 then payload width bits < 10^(width.digits - 1)
    else coefficientField width bits ≤ width.maxCoefficient

instance (width : Width) (bits : ℕ) : Decidable (Canonical width bits) := by
  unfold Canonical
  infer_instance

/-! ## From a number and back -/

theorem decode_nan (sign signaling : Bool) (width : Width) :
    decode (nan width ||| (if signaling then 1 <<< (width.bits - 7) else 0) |||
      (if sign then signBit width else 0)) width = .nan sign signaling := by
  cases sign <;> cases signaling <;> cases width <;> decide

theorem nan_lt (sign signaling : Bool) (width : Width) :
    nan width ||| (if signaling then 1 <<< (width.bits - 7) else 0) ||| (if sign then signBit width else 0) <
      2^width.bits := by
  cases sign <;> cases signaling <;> cases width <;> decide

theorem infinity_lt (sign : Bool) (width : Width) : infinity sign width < 2^width.bits := by
  cases sign <;> cases width <;> decide

/-- The encoding of a number has the bits of its width. -/
theorem encode_lt {sign : Bool} {coefficient : ℕ} {exponent : ℤ}
    (hc : coefficient ≤ width.maxCoefficient) (h0 : width.minExponent ≤ exponent)
    (h1 : exponent ≤ width.maxExponent) (h : encode sign coefficient exponent width = some bits) :
    bits < 2^width.bits := by
  obtain ⟨biased, hb⟩ : ∃ biased : ℕ, exponent + width.bias = biased :=
    ⟨(exponent + width.bias).toNat, by unfold Width.minExponent at h0; omega⟩
  obtain rfl : exponent = biased - width.bias := by omega
  have hb' : (biased : ℤ) ≤ width.maxExponent + width.bias := by omega
  have hpow : 2^width.bits = 2 * 2^(width.bits - 1) := by cases width <;> rfl
  have hsign : sign.toNat * 2^(width.bits - 1) ≤ 1 * 2^(width.bits - 1) :=
    Nat.mul_le_mul_right _ (Bool.toNat_le sign)
  by_cases hsmall : coefficient < 2^width.coefficientBits
  · obtain ⟨hfield, hencode⟩ := encode_small sign hc hb' hsmall
    rw [hencode] at h
    rw [← Option.some.inj h]
    omega
  · obtain ⟨-, hfield, hencode⟩ := encode_large sign hc hb' hsmall
    rw [hencode] at h
    rw [← Option.some.inj h]
    omega

/-- A number comes back from its encoding as it was. -/
theorem decimalFromBits_decimalBits (h : x.Held) :
    ∃ bits, x.decimalBits = some bits ∧ bits < 2^x.width.bits ∧ decimalFromBits x.width bits = x := by
  obtain ⟨width, category, sign, exponent, significand⟩ := x
  cases category with
  | zero =>
    obtain ⟨rfl, h0, h1⟩ := h
    obtain ⟨bits, hencode, hdecode⟩ := decode_encode sign (Nat.zero_le width.maxCoefficient) h0 h1
    refine ⟨bits, hencode, encode_lt (Nat.zero_le _) h0 h1 hencode, ?_⟩
    rw [decimalFromBits, hdecode]
    rfl
  | finite =>
    obtain ⟨hpos, hc, h0, h1⟩ := h
    obtain ⟨bits, hencode, hdecode⟩ := decode_encode sign hc h0 h1
    refine ⟨bits, hencode, encode_lt hc h0 h1 hencode, ?_⟩
    rw [decimalFromBits, hdecode]
    dsimp only
    rw [if_neg hpos.ne']
  | infinite =>
    obtain ⟨rfl, rfl⟩ := h
    refine ⟨_, rfl, infinity_lt sign width, ?_⟩
    rw [decimalFromBits]
    dsimp only
    rw [decode_infinity]
  | nan =>
    obtain ⟨rfl, hexp⟩ := h
    obtain ⟨signaling, rfl⟩ : ∃ signaling : Bool, exponent = if signaling then 1 else 0 := by
      rcases hexp with rfl | rfl
      · exact ⟨false, rfl⟩
      · exact ⟨true, rfl⟩
    have hbit : (if (if signaling then (1 : ℤ) else 0) ≠ 0 then 1 <<< (width.bits - 7) else 0) =
        if signaling then 1 <<< (width.bits - 7) else 0 := by
      cases signaling <;> rfl
    refine ⟨_, rfl, ?_, ?_⟩
    · dsimp only
      rw [hbit]
      exact nan_lt sign signaling width
    · dsimp only
      rw [hbit, decimalFromBits, decode_nan]

/-! ## From an encoding and back -/

/-- A pattern is its sign bit and what is below it. -/
theorem exists_rest (h : bits < 2^width.bits) :
    ∃ (sign : Bool) (rest : ℕ), rest < 2^(width.bits - 1) ∧ bits = sign.toNat * 2^(width.bits - 1) + rest := by
  have hpow : 2^width.bits = 2 * 2^(width.bits - 1) := by cases width <;> rfl
  rcases Nat.lt_or_ge bits (2^(width.bits - 1)) with hlt | hge
  · exact ⟨false, bits, hlt, by simp⟩
  · exact ⟨true, bits - 2^(width.bits - 1), by omega, by simp; omega⟩

section Rest

variable (sign : Bool) {rest : ℕ} {width : Width}

variable {bits : ℕ}

theorem combination_rest (h : rest < 2^(width.bits - 1)) :
    combination width (sign.toNat * 2^(width.bits - 1) + rest) = rest / 2^(width.bits - 6) :=
  read_whole sign h (by cases width <;> rfl)

theorem coefficientField_rest (h : rest < 2^(width.bits - 1)) :
    coefficientField width (sign.toNat * 2^(width.bits - 1) + rest) =
      if rest / 2^(width.bits - 3) = 3 then
        4 * 2^(width.coefficientBits - 2) + rest % 2^(width.coefficientBits - 2)
      else rest % 2^width.coefficientBits := by
  unfold coefficientField
  rw [read_whole sign h (by cases width <;> rfl), read_low sign rest (by cases width <;> decide),
    read_low sign rest (by cases width <;> decide)]

/-- What an encoding of a number decodes to, by its coefficient's field. -/
theorem decode_number (h : rest < 2^(width.bits - 1)) (hinf : rest / 2^(width.bits - 6) ≠ 0b11110)
    (hnan : rest / 2^(width.bits - 6) ≠ 0b11111) :
    ∃ biased : ℕ, (biased : ℤ) ≤ width.maxExponent + width.bias ∧
      decode (sign.toNat * 2^(width.bits - 1) + rest) width =
        .finite sign (if coefficientField width (sign.toNat * 2^(width.bits - 1) + rest) > width.maxCoefficient
          then 0 else coefficientField width (sign.toNat * 2^(width.bits - 1) + rest)) (biased - width.bias) ∧
      (rest / 2^(width.bits - 3) = 3 →
        rest = 3 * 2^(width.bits - 3) + (biased * 2^(width.coefficientBits - 2) +
          rest % 2^(width.coefficientBits - 2))) ∧
      (rest / 2^(width.bits - 3) ≠ 3 →
        rest = biased * 2^width.coefficientBits + rest % 2^width.coefficientBits) := by
  rw [decode_eq h, if_neg hinf, if_neg hnan, coefficientField_rest sign h]
  by_cases hlarge : rest / 2^(width.bits - 3) = 3
  · simp only [if_pos hlarge]
    refine ⟨rest / 2^(width.coefficientBits - 2) % 2^width.exponentBits, ?_, rfl, fun _ => ?_,
      fun hne => absurd hlarge hne⟩
    · cases width <;>
        simp only [Width.maxExponent, Width.bias, Width.bits, Width.coefficientBits,
          Width.exponentBits] at * <;> omega
    · cases width <;> simp only [Width.bits, Width.coefficientBits, Width.exponentBits] at * <;> omega
  · simp only [if_neg hlarge]
    refine ⟨rest / 2^width.coefficientBits, ?_, rfl, fun heq => absurd heq hlarge, fun _ => ?_⟩
    · cases width <;>
        simp only [Width.maxExponent, Width.bias, Width.bits, Width.coefficientBits,
          Width.exponentBits] at * <;> omega
    · exact (Nat.div_add_mod' rest _).symm

/-- A coefficient with too many digits is read as zero. -/
theorem decode_noncanonical (hlt : bits < 2^width.bits) (hcombination : combination width bits < 0b11110)
    (hbig : width.maxCoefficient < coefficientField width bits) :
    ∃ sign exponent, decode bits width = .finite sign 0 exponent := by
  obtain ⟨sign, rest, h, rfl⟩ := exists_rest hlt
  rw [combination_rest sign h] at hcombination
  obtain ⟨biased, -, hdecode, -⟩ := decode_number sign h (by omega) (by omega)
  exact ⟨sign, _, by rw [hdecode, if_pos hbig]⟩

/-- A canonical encoding comes back from the number it holds, but for the payload of a nan. -/
theorem decimalBits_decimalFromBits (hc : Canonical width bits)
    (hpayload : combination width bits = 0b11111 → payload width bits = 0) :
    (decimalFromBits width bits).decimalBits = some bits := by
  obtain ⟨hlt, hc⟩ := hc
  obtain ⟨sign, rest, h, rfl⟩ := exists_rest hlt
  rw [combination_rest sign h] at hc hpayload
  by_cases hinf : rest / 2^(width.bits - 6) = 0b11110
  · rw [if_pos hinf, read_low sign rest (by cases width <;> decide)] at hc
    have hrest : rest = 0b11110 * 2^(width.bits - 6) := by
      rw [← hinf]
      have := Nat.div_add_mod' rest (2^(width.bits - 6))
      omega
    have hdecode : decode (sign.toNat * 2^(width.bits - 1) + rest) width = .infinite sign := by
      rw [decode_eq h, if_pos hinf]
    unfold decimalFromBits
    rw [hdecode, hrest]
    dsimp only [decimalBits]
    cases sign <;> cases width <;> rfl
  by_cases hnan : rest / 2^(width.bits - 6) = 0b11111
  · have hpayload := hpayload hnan
    unfold payload at hpayload
    rw [read_low sign rest (by cases width <;> decide)] at hpayload
    have hdecode : decode (sign.toNat * 2^(width.bits - 1) + rest) width =
        .nan sign (decide (rest / 2^(width.bits - 7) % 2 ≠ 0)) := by
      rw [decode_eq h, if_neg hinf, if_pos hnan]
    have hrest : rest = 62 * 2^(width.bits - 7) ∨ rest = 63 * 2^(width.bits - 7) := by
      cases width <;> simp only [Width.bits] at * <;> omega
    unfold decimalFromBits
    rw [hdecode]
    dsimp only [decimalBits]
    rcases hrest with rfl | rfl
    · cases sign <;> cases width <;> rfl
    · cases sign <;> cases width <;> rfl
  · rw [if_neg hinf, if_neg hnan] at hc
    obtain ⟨biased, hb, hdecode, hlarge, hsmall⟩ := decode_number sign h hinf hnan
    have hfinite : (decimalFromBits width (sign.toNat * 2^(width.bits - 1) + rest)).decimalBits =
        encode sign (coefficientField width (sign.toNat * 2^(width.bits - 1) + rest)) (biased - width.bias)
          width := by
      unfold decimalFromBits
      rw [hdecode, if_neg (not_lt.mpr hc)]
      dsimp only [decimalBits]
      split_ifs <;> rfl
    rw [hfinite]
    have hfield := coefficientField_rest sign h
    by_cases hform : rest / 2^(width.bits - 3) = 3
    · rw [if_pos hform] at hfield
      obtain ⟨-, -, hencode⟩ := @encode_large sign _ biased width hc hb (by
        rw [hfield]
        cases width <;> simp only [Width.bits, Width.coefficientBits, Width.exponentBits] <;> omega)
      rw [hencode, hfield, Nat.add_mod, Nat.mul_mod_left, zero_add, Nat.mod_mod, Nat.mod_mod, ← hlarge hform]
    · rw [if_neg hform] at hfield
      have hlt' : coefficientField width (sign.toNat * 2^(width.bits - 1) + rest) < 2^width.coefficientBits := by
        rw [hfield]
        exact Nat.mod_lt _ (Nat.two_pow_pos _)
      rw [(encode_small sign hc hb hlt').2, hfield, ← hsmall hform]

end Rest

/-! ## The order of two numbers -/

/-- Counting by dividing finds the power of ten a number has reached. -/
theorem countDigits_eq {fuel : ℕ} (h : Nat.log 10 value < fuel) (count : ℕ) :
    countDigits fuel value count = count + Nat.log 10 value := by
  induction fuel generalizing value count with
  | zero => omega
  | succ fuel ih =>
    rw [countDigits]
    split_ifs with hten
    · have hlog := Nat.log_of_one_lt_of_le (by norm_num : 1 < 10) hten
      rw [ih (by omega), hlog]
      omega
    · rw [Nat.log_of_lt (by omega), Nat.add_zero]

theorem digits_eq (h : value < 2^128) : digits value = Nat.log 10 value + 1 := by
  have hlog : Nat.log 10 value < 128 := by
    rcases Nat.eq_zero_or_pos value with rfl | hpos
    · decide
    · exact (Nat.log_lt_iff_lt_pow (by norm_num) hpos.ne').mpr
        (h.trans_le (Nat.pow_le_pow_left (by norm_num) _))
  rw [digits, countDigits_eq hlog, Nat.add_comm]

/-- A coefficient of a format has no more digits than the format, and the power of ten of its first. -/
theorem digits_spec (h0 : 0 < value) (h : value ≤ width.maxCoefficient) :
    0 < digits value ∧ digits value ≤ width.digits ∧ 10^(digits value - 1) ≤ value ∧ value < 10^digits value := by
  have hmax := width.maxCoefficient_succ
  have hlt : value < 10^width.digits := by omega
  have hfit : (10 : ℕ)^width.digits ≤ 10^34 := Nat.pow_le_pow_right (by norm_num) width.digits_bounds.2
  rw [digits_eq (hlt.trans_le (hfit.trans (by norm_num)))]
  refine ⟨Nat.succ_pos _, ?_, ?_, Nat.lt_pow_succ_log_self (by norm_num) value⟩
  · exact Nat.succ_le_of_lt ((Nat.log_lt_iff_lt_pow (by norm_num) h0.ne').mpr hlt)
  · rw [Nat.add_sub_cancel]
    exact Nat.pow_log_le_self 10 h0.ne'

/-- The magnitude of a number that is not an infinity or a nan. -/
def magnitude (x : Number) : ℚ := x.significand * 10^x.exponent

/-- The number itself, with the two infinities around the others. -/
def extended (x : Number) : WithBot (WithTop ℚ) :=
  match x.category with
  | .infinite => if x.sign then ⊥ else ((⊤ : WithTop ℚ) : WithBot (WithTop ℚ))
  | _ => ((Float.signed x.sign x.magnitude : WithTop ℚ) : WithBot (WithTop ℚ))

/-- A scaled coefficient of a format fits while it has no more digits than the format. -/
theorem scaledUp_eq {d k : ℕ} (hvalue : value < 10^d) (hk : d + k ≤ width.digits) :
    scaledUp value k = some (value * 10^k) := by
  have hfit : (10 : ℕ)^(d + k) ≤ 10^34 := Nat.pow_le_pow_right (by norm_num) (hk.trans width.digits_bounds.2)
  have hpow : (10 : ℕ)^k ≤ 10^(d + k) := Nat.pow_le_pow_right (by norm_num) (Nat.le_add_left _ _)
  have hmul : value * 10^k < 10^(d + k) := by
    rw [pow_add]
    exact Nat.mul_lt_mul_of_pos_right hvalue (by positivity)
  rw [scaledUp, Int.toNat_natCast, if_pos (hpow.trans_lt (hfit.trans_lt (by norm_num))),
    Words.mul_eq (hmul.trans (hfit.trans_lt (by norm_num)))]

/-- A coefficient times a power of ten is below the power of ten above its first digit. -/
theorem lt_of_adjusted {a b : ℕ} {e e' : ℤ} {d d' : ℕ} (ha : a < 10^d) (hb : 10^(d' - 1) ≤ b) (hd' : 0 < d')
    (h : e + d < e' + d') : (a : ℚ) * 10^e < b * 10^e' := by
  have ha' : (a : ℚ) < 10^d := by exact_mod_cast ha
  have hb' : (10 : ℚ)^(d' - 1) ≤ b := by exact_mod_cast hb
  have hpos : (0 : ℚ) < 10^e := by positivity
  calc (a : ℚ) * 10^e < 10^d * 10^e := mul_lt_mul_of_pos_right ha' hpos
    _ = 10^(e + d) := by rw [zpow_add₀ (by norm_num), zpow_natCast, mul_comm]
    _ ≤ 10^(e' + (d' - 1 : ℕ)) := zpow_le_zpow_right₀ (by norm_num) (by omega)
    _ = 10^(d' - 1) * 10^e' := by rw [zpow_add₀ (by norm_num), zpow_natCast, mul_comm]
    _ ≤ b * 10^e' := mul_le_mul_of_nonneg_right hb' (by positivity)

/-- Two coefficients at one power of ten compare as the numbers do. -/
theorem compare_scaled (a b : ℕ) (e : ℤ) : compare a b = cmp ((a : ℚ) * 10^e) (b * 10^e) := by
  have hpos : (0 : ℚ) < 10^e := by positivity
  rw [cmp_mul_pos_right hpos, Nat.strictMono_cast.cmp_map_eq, cmp_eq_compare]

/-- Two finite numbers of a format compare by their magnitudes, whatever exponents they are written with. -/
theorem decimalMagnitudes_eq {left right : Number} (hw : left.width = right.width) (hl0 : 0 < left.significand)
    (hl : left.significand ≤ left.width.maxCoefficient) (hr0 : 0 < right.significand)
    (hr : right.significand ≤ right.width.maxCoefficient) (hel : |left.exponent| ≤ 6176)
    (her : |right.exponent| ≤ 6176) :
    decimalMagnitudes left right = some (cmp left.magnitude right.magnitude) := by
  obtain ⟨hdl0, hdl, hlo, hhi⟩ := digits_spec hl0 hl
  obtain ⟨hdr0, hdr, hlo', hhi'⟩ := digits_spec hr0 hr
  rw [← hw] at hdr
  have hbound := left.width.digits_bounds
  rw [abs_le] at hel her
  unfold decimalMagnitudes magnitude
  rw [checked_of_fits (by unfold Fits; omega), checked_of_fits (by unfold Fits; omega)]
  simp only [Option.bind_eq_bind, Option.bind_some]
  generalize digits left.significand = dl at *
  generalize digits right.significand = dr at *
  split_ifs with hadjusted
  · rw [ne_eq] at hadjusted
    rw [← cmp_eq_compare]
    rcases lt_or_gt_of_ne hadjusted with hlt | hgt
    · rw [(cmp_eq_lt_iff _ _).mpr hlt, (cmp_eq_lt_iff _ _).mpr (lt_of_adjusted hhi hlo' hdr0 hlt)]
    · rw [(cmp_eq_gt_iff _ _).mpr hgt, (cmp_eq_gt_iff _ _).mpr (lt_of_adjusted hhi' hlo hdl0 hgt)]
  · rw [ne_eq, not_not] at hadjusted
    -- the first digits stand for the same power of ten, and the shorter coefficient is scaled to the other's
    have hshift (a : ℕ) (e : ℤ) (k : ℕ) : (a : ℚ) * 10^(e + k) = ((a * 10^k : ℕ) : ℚ) * 10^e := by
      rw [zpow_add₀ (by norm_num), zpow_natCast]
      push_cast
      ring
    rcases lt_trichotomy dl dr with hlt | heq | hgt
    · obtain ⟨k, rfl⟩ := Nat.exists_eq_add_of_lt hlt
      have hcompare : compare dl (dl + k + 1) = .lt := Nat.compare_eq_lt.mpr hlt
      have hexp : left.exponent = right.exponent + (k + 1 : ℕ) := by push_cast at hadjusted ⊢; omega
      have hk : ((dl + k + 1 : ℕ) : ℤ) - dl = (k + 1 : ℕ) := by push_cast; ring
      rw [hcompare, hk, scaledUp_eq hhi (by omega)]
      dsimp only [Option.bind_some]
      rw [compare_scaled _ _ right.exponent, hexp, hshift]
    · have hcompare : compare dl dr = .eq := Nat.compare_eq_eq.mpr heq
      rw [hcompare]
      dsimp only
      have hexp : left.exponent = right.exponent := by omega
      rw [compare_scaled _ _ right.exponent, hexp]
    · obtain ⟨k, rfl⟩ := Nat.exists_eq_add_of_lt hgt
      have hcompare : compare (dr + k + 1) dr = .gt := Nat.compare_eq_gt.mpr hgt
      have hexp : right.exponent = left.exponent + (k + 1 : ℕ) := by push_cast at hadjusted ⊢; omega
      have hk : ((dr + k + 1 : ℕ) : ℤ) - dr = (k + 1 : ℕ) := by push_cast; ring
      rw [hcompare, hk, scaledUp_eq hhi' (by omega)]
      dsimp only [Option.bind_some]
      rw [compare_scaled _ _ left.exponent, hexp, hshift]

/-- The facts about a held number that the comparison goes by. -/
theorem Held.exponent_le (h : x.Held) (hc : x.category = .finite) :
    0 < x.significand ∧ x.significand ≤ x.width.maxCoefficient ∧ |x.exponent| ≤ 6176 := by
  unfold Held at h
  rw [hc] at h
  have hb := x.width.exponent_bounds
  exact ⟨h.1, h.2.1, abs_le.mpr (by omega)⟩

theorem cmp_signed (sign : Bool) (a b : ℚ) :
    cmp (Float.signed sign a) (Float.signed sign b) = if sign then (cmp a b).swap else cmp a b := by
  cases sign with
  | false => rfl
  | true =>
    rw [Float.signed_true, Float.signed_true, if_pos rfl]
    rcases lt_trichotomy a b with h | h | h
    · rw [(cmp_eq_lt_iff _ _).mpr h, (cmp_eq_gt_iff _ _).mpr (neg_lt_neg h)]
      rfl
    · rw [h, cmp_self_eq_eq, cmp_self_eq_eq]
      rfl
    · rw [(cmp_eq_gt_iff _ _).mpr h, (cmp_eq_lt_iff _ _).mpr (neg_lt_neg h)]
      rfl

/-- A rational number among those and the two infinities. -/
def among (q : ℚ) : WithBot (WithTop ℚ) := ((q : WithTop ℚ) : WithBot (WithTop ℚ))

theorem strictMono_among : StrictMono among :=
  fun _ _ h => WithBot.coe_lt_coe.mpr (WithTop.coe_lt_coe.mpr h)

theorem among_lt_top (q : ℚ) : among q < ((⊤ : WithTop ℚ) : WithBot (WithTop ℚ)) :=
  WithBot.coe_lt_coe.mpr (WithTop.coe_lt_top q)

theorem bot_lt_among (q : ℚ) : ⊥ < among q := WithBot.bot_lt_coe _

/-- A number that is neither an infinity nor a nan. -/
def Ordinary (x : Number) : Prop := x.category = .zero ∨ x.category = .finite

theorem Ordinary.extended_eq (h : x.Ordinary) : x.extended = among (Float.signed x.sign x.magnitude) := by
  unfold extended
  rcases h with h | h
  · rw [h]
    rfl
  · rw [h]
    rfl

theorem ordinary_of_ne (h : x.category ≠ .infinite) (h' : x.category ≠ .nan) : x.Ordinary := by
  unfold Ordinary
  cases hc : x.category with
  | zero => exact .inl rfl
  | finite => exact .inr rfl
  | infinite => exact absurd hc h
  | nan => exact absurd hc h'

theorem extended_infinite (h : x.category = .infinite) :
    x.extended = if x.sign then ⊥ else ((⊤ : WithTop ℚ) : WithBot (WithTop ℚ)) := by
  unfold extended
  rw [h]

/-- A held number has no magnitude when it is a zero, and some when it is finite. -/
theorem Held.magnitude_spec (h : x.Held) :
    (x.category = .zero → x.magnitude = 0) ∧ (x.category = .finite → 0 < x.magnitude) := by
  unfold Held at h
  unfold magnitude
  constructor
  · intro hc
    rw [hc] at h
    rw [h.1, Nat.cast_zero, zero_mul]
  · intro hc
    have := (Nat.cast_pos (α := ℚ)).mpr (Held.exponent_le (by unfold Held; exact h) hc).1
    positivity

theorem Held.magnitude_nonneg (h : x.Held) (ho : x.Ordinary) : 0 ≤ x.magnitude := by
  rcases ho with hc | hc
  · exact (h.magnitude_spec.1 hc).ge
  · exact (h.magnitude_spec.2 hc).le

section Compare

variable {left right : Number} (hw : left.width = right.width) (hl : left.Held) (hr : right.Held)

include hw hl hr in
/-- The magnitudes of two ordinary numbers that are not both zero. -/
theorem magnitudes_ordinary (hol : left.Ordinary) (hor : right.Ordinary)
    (hnot : ¬(left.category = .zero ∧ right.category = .zero)) :
    magnitudes left right = some (cmp left.magnitude right.magnitude) := by
  unfold magnitudes
  rcases hol with hcl | hcl <;> rcases hor with hcr | hcr <;> rw [hcl, hcr]
  · exact absurd ⟨hcl, hcr⟩ hnot
  · dsimp only
    rw [hl.magnitude_spec.1 hcl, (cmp_eq_lt_iff _ _).mpr (hr.magnitude_spec.2 hcr)]
  · dsimp only
    rw [hr.magnitude_spec.1 hcr, (cmp_eq_gt_iff _ _).mpr (hl.magnitude_spec.2 hcl)]
  · dsimp only
    obtain ⟨hl0, hlmax, hle⟩ := hl.exponent_le hcl
    obtain ⟨hr0, hrmax, hre⟩ := hr.exponent_le hcr
    exact decimalMagnitudes_eq hw hl0 hlmax hr0 hrmax hle hre

include hw hl hr in
/-- Two numbers of one sign compare by their magnitudes, the other way when they are negative. -/
theorem compare_same (hnl : left.category ≠ .nan) (hnr : right.category ≠ .nan)
    (hnot : ¬(left.category = .zero ∧ right.category = .zero)) (hsign : left.sign = right.sign) :
    (magnitudes left right).map (fun order => if left.sign then order.swap else order) =
      some (cmp left.extended right.extended) := by
  by_cases hil : left.category = .infinite
  · rw [extended_infinite hil]
    by_cases hir : right.category = .infinite
    · rw [extended_infinite hir, ← hsign, cmp_self_eq_eq]
      unfold magnitudes
      rw [hil, hir]
      cases left.sign <;> rfl
    · have hor := ordinary_of_ne hir hnr
      have hgt : magnitudes left right = some .gt := by
        unfold magnitudes
        rw [hil]
        rcases hor with hc | hc <;> rw [hc]
      rw [hgt, hor.extended_eq]
      cases left.sign with
      | false => exact congrArg some ((cmp_eq_gt_iff _ _).mpr (among_lt_top _)).symm
      | true => exact congrArg some ((cmp_eq_lt_iff _ _).mpr (bot_lt_among _)).symm
  · have hol := ordinary_of_ne hil hnl
    rw [hol.extended_eq]
    by_cases hir : right.category = .infinite
    · have hlt : magnitudes left right = some .lt := by
        unfold magnitudes
        rw [hir]
        rcases hol with hc | hc <;> rw [hc]
      rw [hlt, extended_infinite hir, ← hsign]
      cases left.sign with
      | false => exact congrArg some ((cmp_eq_lt_iff _ _).mpr (among_lt_top _)).symm
      | true => exact congrArg some ((cmp_eq_gt_iff _ _).mpr (bot_lt_among _)).symm
    · have hor := ordinary_of_ne hir hnr
      rw [hor.extended_eq, strictMono_among.cmp_map_eq, ← hsign, cmp_signed,
        magnitudes_ordinary hw hl hr hol hor hnot]
      rfl

include hl hr in
/-- A negative number is below one that is not negative, unless both are zero. -/
theorem extended_lt_of_sign (hnl : left.category ≠ .nan) (hnr : right.category ≠ .nan)
    (hnot : ¬(left.category = .zero ∧ right.category = .zero)) (hsl : left.sign = true) (hsr : right.sign = false) :
    left.extended < right.extended := by
  by_cases hil : left.category = .infinite
  · rw [extended_infinite hil, if_pos hsl]
    by_cases hir : right.category = .infinite
    · rw [extended_infinite hir, if_neg (by rw [hsr]; decide)]
      exact WithBot.bot_lt_coe _
    · rw [(ordinary_of_ne hir hnr).extended_eq]
      exact bot_lt_among _
  · have hol := ordinary_of_ne hil hnl
    rw [hol.extended_eq, hsl]
    by_cases hir : right.category = .infinite
    · rw [extended_infinite hir, if_neg (by rw [hsr]; decide)]
      exact among_lt_top _
    · have hor := ordinary_of_ne hir hnr
      rw [hor.extended_eq, hsr]
      apply strictMono_among
      rw [Float.signed_true, Float.signed_false]
      have hl0 := hl.magnitude_nonneg hol
      have hr0 := hr.magnitude_nonneg hor
      -- one of the two is not a zero, so one of the two signs counts
      rcases hol with hcl | hcl
      · have hcr : right.category = .finite := hor.resolve_left fun h => hnot ⟨hcl, h⟩
        have := hr.magnitude_spec.2 hcr
        linarith
      · have := hl.magnitude_spec.2 hcl
        linarith

include hw hl hr in
/-- The comparison is the order of the numbers the two stand for, which there is none of with a nan. -/
theorem decimalCompare_eq : left.decimalCompare right =
      some (if left.category = .nan ∨ right.category = .nan then none
        else some (cmp left.extended right.extended)) := by
  unfold decimalCompare
  by_cases hnan : left.category = .nan ∨ right.category = .nan
  · rw [if_pos hnan, if_pos hnan]
  rw [if_neg hnan, if_neg hnan]
  obtain ⟨hnl, hnr⟩ := not_or.mp hnan
  by_cases hzero : left.category = .zero ∧ right.category = .zero
  · have hsigned (sign : Bool) : Float.signed sign 0 = 0 := by
      cases sign
      · exact Float.signed_false 0
      · rw [Float.signed_true, neg_zero]
    rw [if_pos hzero, Ordinary.extended_eq (.inl hzero.1), Ordinary.extended_eq (.inl hzero.2),
      hl.magnitude_spec.1 hzero.1, hr.magnitude_spec.1 hzero.2, hsigned, hsigned, cmp_self_eq_eq]
  rw [if_neg hzero]
  by_cases hsign : left.sign = right.sign
  · have hsame := compare_same hw hl hr hnl hnr hzero hsign
    rw [Option.map_eq_some_iff] at hsame
    obtain ⟨order, horder, hsame⟩ := hsame
    rw [if_neg (not_not.mpr hsign), horder, Option.map_some, hsame]
  rw [if_pos hsign]
  cases hsl : left.sign with
  | true =>
    have hsr : right.sign = false := by
      rw [hsl] at hsign
      exact Bool.eq_false_of_not_eq_true fun h => hsign h.symm
    have hlt := extended_lt_of_sign hl hr hnl hnr hzero hsl hsr
    rw [(cmp_eq_lt_iff _ _).mpr hlt]
    rfl
  | false =>
    have hsr : right.sign = true := by
      rw [hsl] at hsign
      exact Bool.eq_true_of_not_eq_false fun h => hsign h.symm
    have hlt := extended_lt_of_sign hr hl hnr hnl (fun h => hzero h.symm) hsr hsl
    rw [(cmp_eq_gt_iff _ _).mpr hlt]
    rfl

end Compare

/-! ## The encodings -/

/-- A number a format can hold comes back from its bits with its exponent. A canonical encoding comes back from
its number, but for what a nan carries. A coefficient with too many digits is a zero. Two numbers of one format
compare as what they stand for, whatever exponents they are written with. -/
theorem encodings_round_trip :
    (∀ x : Number, x.Held →
      ∃ bits, x.decimalBits = some bits ∧ bits < 2^x.width.bits ∧ decimalFromBits x.width bits = x) ∧
    (∀ width bits, Canonical width bits → (combination width bits = 0b11111 → payload width bits = 0) →
      (decimalFromBits width bits).decimalBits = some bits) ∧
    (∀ width bits, bits < 2^width.bits → combination width bits < 0b11110 →
      width.maxCoefficient < coefficientField width bits →
        ∃ sign exponent, decimalFromBits width bits = ⟨width, .zero, sign, exponent, 0⟩) ∧
    ∀ left right : Number, left.width = right.width → left.Held → right.Held →
      left.decimalCompare right =
        some (if left.category = .nan ∨ right.category = .nan then none
          else some (cmp left.extended right.extended)) := by
  refine ⟨fun x h => decimalFromBits_decimalBits h, fun width bits hc hp => decimalBits_decimalFromBits hc hp,
    fun width bits hlt hcombination hbig => ?_, fun left right hw hl hr => decimalCompare_eq hw hl hr⟩
  obtain ⟨sign, exponent, h⟩ := decode_noncanonical hlt hcombination hbig
  refine ⟨sign, exponent, ?_⟩
  rw [decimalFromBits, h]
  rfl

/-- One and ten tenths are the same number, and a coefficient of eight digits is none of seven. -/
theorem encodings_round_trip_cohort :
    (∃ bits, (⟨.d32, .finite, false, -1, 10⟩ : Number).decimalBits = some bits ∧ bits < 2^32 ∧
      decimalFromBits .d32 bits = ⟨.d32, .finite, false, -1, 10⟩) ∧
    (decimalFromBits .d32 0x32800001).decimalBits = some 0x32800001 ∧
    (∃ sign exponent, decimalFromBits .d32 0x6CBFFFFF = ⟨.d32, .zero, sign, exponent, 0⟩) ∧
    (⟨.d32, .finite, false, -1, 10⟩ : Number).decimalCompare ⟨.d32, .finite, false, 0, 1⟩ =
      some (some (cmp (⟨.d32, .finite, false, -1, 10⟩ : Number).extended
        (⟨.d32, .finite, false, 0, 1⟩ : Number).extended)) :=
  ⟨encodings_round_trip.1 ⟨.d32, .finite, false, -1, 10⟩ (by decide),
    encodings_round_trip.2.1 .d32 0x32800001 (by decide) (by decide),
    encodings_round_trip.2.2.1 .d32 0x6CBFFFFF (by decide) (by decide) (by decide),
    encodings_round_trip.2.2.2 ⟨.d32, .finite, false, -1, 10⟩ ⟨.d32, .finite, false, 0, 1⟩ rfl (by decide)
      (by decide)⟩

/-- The payload of a nan is canonical and does not come back. -/
theorem payload_lost :
    ¬∀ width bits, Canonical width bits → (decimalFromBits width bits).decimalBits = some bits :=
  fun h => absurd (h .d32 0x7C000001 (by decide)) (by decide)

end Number

end Rucc.Base.Dfp
