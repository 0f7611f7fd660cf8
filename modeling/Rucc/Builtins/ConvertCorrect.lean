import Rucc.Builtins.Convert

/-!
# The conversions of 128-bit integers are exact

`fromUnsigned` is the format's one rounding (`Interchange.round`) at the scale of a whole number, and
`toUnsigned` the floor of what the pattern stands for. A format of the file has fields that fit in a word of 64
bits together and an exponent of at most 30 bits (`Small`), which is all the words need.
-/

namespace Rucc.Builtins.Convert

open Checked Words Interchange

variable {mantissa value bits : ℕ} {exponent : ℤ}

/-- The fields of a format. -/
def Format.of (f : Interchange) : Format := ⟨f.fraction, f.exponent⟩

/-- The format of `f32`. -/
def single : Interchange := ⟨23, 8, by norm_num, by norm_num⟩

/-- The format of `f64`. -/
def double : Interchange := ⟨52, 11, by norm_num, by norm_num⟩

/-- The fields and the sign fit in a word of 64 bits, and an exponent in one of 32. -/
structure Small (f : Interchange) : Prop where
  fields : f.fraction + f.exponent < 64
  exponent : f.exponent ≤ 30

theorem small_single : Small single := ⟨by decide, by decide⟩

theorem small_double : Small double := ⟨by decide, by decide⟩

variable {f : Interchange}

@[simp]
theorem mantissa_of : (Format.of f).mantissa = f.fraction := rfl

@[simp]
theorem exponent_of : (Format.of f).exponent = f.exponent := rfl

theorem bias_eq : (Format.of f).bias = f.bias := rfl

theorem Small.bias_lt (h : Small f) : f.bias < 2^30 := by
  have hpow : (2 : ℤ)^(f.exponent - 1) ≤ 2^30 :=
    pow_le_pow_right₀ (by norm_num) (by have := h.exponent; omega)
  unfold bias
  omega

theorem shl_one {width count : ℕ} (h : count < width) : shl width 1 count = some (2^count) := by
  rw [shl_eq h (by rw [one_mul]; exact Nat.pow_lt_pow_right (by norm_num) h), one_mul]

/-! ## Out of an integer -/

/-- The bits kept are the value in units of its lowest bit, before a carry, and the leading one is among
them. -/
theorem significand_eq {value : ℕ} (hf : f.fraction < 64) (h0 : value ≠ 0) (hv : value.size ≤ 128) :
    ∃ mantissa up, significand value (value.size - 1) f.fraction = some (mantissa, up) ∧
      (if up then mantissa + 1 else mantissa) = kept value 0 ((value.size : ℤ) - 1 - f.fraction) false ∧
      f.implicit ≤ mantissa ∧ mantissa < 2 * f.implicit := by
  have hsize : 0 < value.size := Nat.size_pos.mpr (Nat.pos_of_ne_zero h0)
  have hlo : 2^(value.size - 1) ≤ value := Nat.lt_size.mp (by omega)
  have hhi : value < 2^value.size := Nat.lt_size_self value
  have htwo : 2 * f.implicit = 2^(f.fraction + 1) := by rw [implicit, pow_succ, mul_comm]
  unfold significand
  by_cases hlong : f.fraction + 1 < value.size
  · obtain ⟨drop, hdrop⟩ : ∃ drop, value.size = f.fraction + 1 + drop := ⟨_, (Nat.add_sub_cancel' hlong.le).symm⟩
    have hd : (value.size : ℤ) - 1 - f.fraction = (drop : ℤ) := by omega
    rw [if_pos (by omega), hd, checked_of_fits (by unfold Fits; omega)]
    simp only [Option.bind_eq_bind, Option.bind_some]
    rw [asU32_eq (by omega) (by omega), Int.toNat_natCast, shr_eq (by omega), shl_one (by omega)]
    simp only [Option.bind_some]
    rw [checkedSub_of_le Nat.one_le_two_pow, checkedSub_of_le (by omega : 1 ≤ drop)]
    simp only [Option.bind_some]
    rw [shl_one (by omega), Option.bind_some, Nat.and_two_pow_sub_one_eq_mod, Nat.and_one_is_mod]
    refine ⟨_, _, rfl, ?_, ?_, ?_⟩
    · have hkept : kept value 0 drop false = cut value drop false := by
        unfold kept
        rw [if_neg (by omega), sub_zero, Int.toNat_natCast]
      rw [hkept, cut]
      simp only [decide_eq_true_eq, Bool.false_eq_true, false_or]
    · rw [Nat.le_div_iff_mul_le (by positivity), implicit, ← pow_add]
      exact (Nat.pow_le_pow_right (by norm_num) (by omega)).trans hlo
    · rw [Nat.div_lt_iff_lt_mul (by positivity), htwo, ← pow_add]
      exact hhi.trans_le (Nat.pow_le_pow_right (by norm_num) (by omega))
  · obtain ⟨up, hup⟩ : ∃ up, f.fraction + 1 = value.size + up := ⟨_, (Nat.add_sub_cancel' (not_lt.mp hlong)).symm⟩
    have hd : (f.fraction : ℤ) - (value.size - 1) = (up : ℤ) := by omega
    rw [if_neg (by omega), hd, checked_of_fits (by unfold Fits; omega)]
    simp only [Option.bind_eq_bind, Option.bind_some]
    rw [asU32_eq (by omega) (by omega), Int.toNat_natCast, shl_eq (by omega) (mul_pow_lt (by omega)),
      Option.bind_some]
    refine ⟨_, _, rfl, ?_, ?_, ?_⟩
    · have hlow : (0 - ((value.size : ℤ) - 1 - f.fraction)).toNat = up := by omega
      unfold kept
      rw [if_neg Bool.false_ne_true, if_pos (by omega), hlow]
    · calc f.implicit = 2^(value.size - 1) * 2^up := by rw [implicit, ← pow_add]; congr 1; omega
        _ ≤ value * 2^up := Nat.mul_le_mul_right _ hlo
    · calc value * 2^up < 2^value.size * 2^up := Nat.mul_lt_mul_of_pos_right hhi (by positivity)
        _ = 2 * f.implicit := by rw [htwo, ← pow_add, ← hup]

/-- Rounding up carries into the exponent when it fills the significand. -/
theorem carried_eq {up : Bool} (hf : f.fraction < 64) (hm : mantissa < 2 * f.implicit) (he : |exponent| < 2^30) :
    carried (Format.of f) mantissa up exponent =
      some (let k := if up then mantissa + 1 else mantissa
        if 2 * f.implicit ≤ k then (k / 2, exponent + 1) else (k, exponent)) := by
  have htwo : 2 * f.implicit = 2^(f.fraction + 1) := by rw [implicit, pow_succ, mul_comm]
  have hfits : 2^(f.fraction + 1) ≤ 2^64 := Nat.pow_le_pow_right (by norm_num) (by omega)
  have hcarry : (mantissa + 1) >>> (f.fraction + 1) ≠ 0 ↔ 2 * f.implicit ≤ mantissa + 1 := by
    rw [Nat.shiftRight_eq_div_pow, Nat.ne_zero_iff_zero_lt, Nat.div_pos_iff, htwo]
    exact and_iff_right (by positivity)
  rw [abs_lt] at he
  unfold carried
  rw [mantissa_of]
  cases up with
  | false => rw [if_neg Bool.false_ne_true, if_neg Bool.false_ne_true, if_neg (by omega)]
  | true =>
    rw [if_pos rfl, if_pos rfl, add_eq (by omega)]
    simp only [Option.bind_eq_bind, Option.bind_some]
    rw [shr_eq (by omega), Option.bind_some, ← Nat.shiftRight_eq_div_pow]
    by_cases hc : 2 * f.implicit ≤ mantissa + 1
    · rw [if_pos (hcarry.mpr hc), if_pos hc, checked_of_fits (by unfold Fits; omega), Option.bind_some,
        Nat.shiftRight_one]
    · rw [if_neg (mt hcarry.mp hc), if_neg hc]

theorem infinity_eq (hs : Small f) : (Format.of f).infinity = some (f.top * f.implicit) := by
  have hf := hs.fields
  have hlt : f.top * f.implicit < 2^64 :=
    calc f.top * f.implicit ≤ f.sign := by rw [f.sign_eq_top]; exact Nat.le_add_right _ _
      _ < 2^64 := Nat.pow_lt_pow_right (by norm_num) (by omega)
  unfold Format.infinity
  rw [mantissa_of, exponent_of, shl_one (by omega)]
  simp only [Option.bind_eq_bind, Option.bind_some]
  rw [checkedSub_of_le Nat.one_le_two_pow, Option.bind_some]
  exact shl_eq (by omega) hlt

/-- The fields side by side are the pattern of the significand at its lowest bit. -/
theorem assembled_eq (hs : Small f) {k : ℕ} (hk : f.implicit ≤ k) (he : 0 ≤ exponent) (he' : exponent < 2^30) :
    assembled (Format.of f) k exponent = some (f.pack 0 k (exponent - f.fraction)) := by
  have hb := f.bias_pos
  have hb' := hs.bias_lt
  have htop := f.top_eq
  have hf := hs.fields
  unfold assembled pack
  rw [if_neg (not_lt.mpr hk), sub_add_cancel, Format.top, bias_eq]
  by_cases hinf : f.bias < exponent
  · rw [if_pos hinf, if_pos (by omega), infinity_eq hs, zero_add]
  · obtain ⟨e, hexp⟩ : ∃ e : ℕ, exponent + f.bias = e := ⟨(exponent + f.bias).toNat, by omega⟩
    have hetop : e ≤ f.top := by omega
    have hmod : k % f.implicit < f.implicit := Nat.mod_lt _ f.implicit_pos
    have hfit : e * f.implicit < 2^64 :=
      calc e * f.implicit ≤ f.top * f.implicit := Nat.mul_le_mul_right _ hetop
        _ ≤ f.sign := by rw [f.sign_eq_top]; exact Nat.le_add_right _ _
        _ < 2^64 := Nat.pow_lt_pow_right (by norm_num) (by omega)
    have himplicit : f.implicit ≤ 2^64 := Nat.pow_le_pow_right (by norm_num) (by omega)
    rw [if_neg hinf, if_neg (by omega), hexp, checked_of_fits (by unfold Fits; omega)]
    simp only [Option.bind_eq_bind, Option.bind_some]
    rw [mantissa_of, shl_one (by omega), Option.bind_some, checkedSub_of_le Nat.one_le_two_pow, Option.bind_some,
      Int.emod_eq_of_lt (by omega) (by omega), Int.toNat_natCast, shl_eq (by omega) hfit, Option.bind_some,
      Nat.and_two_pow_sub_one_eq_mod]
    have hor := f.or_exponent (Or.inl rfl) hetop hmod
    rw [Nat.zero_or] at hor
    unfold implicit at hor hmod himplicit ⊢
    rw [Nat.mod_eq_of_lt (hmod.trans_le himplicit), hor]

/-- No word overflows on the way out of an integer, and what comes out is the one rounding. -/
theorem fromUnsigned_eq (hs : Small f) (hv : value < 2^128) :
    fromUnsigned value (Format.of f) = some (f.round 0 value 0 false) := by
  unfold fromUnsigned Interchange.round
  by_cases h0 : value = 0
  · rw [if_pos h0, if_pos h0]
  have hf := hs.fields
  have hsize : 0 < value.size := Nat.size_pos.mpr (Nat.pos_of_ne_zero h0)
  have hsize' : value.size ≤ 128 := Nat.size_le.mpr hv
  have hplace : (127 : ℤ) - (leadingZeros 128 value : ℕ) = value.size - 1 := by
    unfold leadingZeros
    omega
  have hb := f.bias_pos
  have hlow : f.lowest (0 + ((value.size : ℤ) - 1)) = (value.size : ℤ) - 1 - f.fraction := by
    unfold lowest
    rw [if_pos (by omega), zero_add]
  obtain ⟨mantissa, up, hsig, hkept, hlo, hhi⟩ := @significand_eq f value (by omega) h0 hsize'
  have hle : kept value 0 ((value.size : ℤ) - 1 - f.fraction) false ≤ 2 * f.implicit := by
    rw [← hkept]
    split_ifs <;> omega
  have hge : f.implicit ≤ kept value 0 ((value.size : ℤ) - 1 - f.fraction) false := by
    rw [← hkept]
    split_ifs <;> omega
  have himplicit := f.implicit_pos
  rw [if_neg h0, if_neg h0, hplace, checked_of_fits (by unfold Fits; omega), hlow]
  simp only [Option.bind_eq_bind, Option.bind_some]
  rw [mantissa_of, hsig, Option.bind_some]
  dsimp only
  rw [carried_eq (by omega) hhi (abs_lt.mpr (by omega)), hkept]
  generalize kept value 0 ((value.size : ℤ) - 1 - f.fraction) false = k at *
  by_cases hc : 2 * f.implicit ≤ k
  · rw [if_pos hc, if_pos hc, Option.bind_some]
    dsimp only
    rw [assembled_eq hs (by omega) (by omega) (by omega)]
    congr 2
    omega
  · rw [if_neg hc, if_neg hc, Option.bind_some]
    dsimp only
    exact assembled_eq hs hge (by omega) (by omega)

/-- What comes out is the nearest the format has, with ties to even. -/
theorem fromUnsigned_rounds (hs : Small f) (hv : value < 2^128) :
    ∃ bits, fromUnsigned value (Format.of f) = some bits ∧ f.RoundsTo value bits := by
  refine ⟨_, fromUnsigned_eq hs hv, ?_⟩
  by_cases h0 : value = 0
  · rw [h0, Nat.cast_zero, Interchange.round, if_pos rfl]
    exact f.roundsTo_zero
  · refine f.round_spec (Or.inl rfl) h0 (Stands.exact value) (fun h => absurd h Bool.false_ne_true) ?_ ?_
    · rw [zpow_zero, mul_one, abs_of_nonneg (Nat.cast_nonneg value)]
    · exact iff_of_false f.sign_pos.ne (not_lt.mpr (Nat.cast_nonneg value))

/-! ## Into an integer -/

/-- Moving a significand to where its lowest bit is worth one. -/
theorem scaled_eq {apart : ℤ} (hlo : -2^30 < apart) (hup : apart < 128)
    (hfit : 0 ≤ apart → mantissa * 2^apart.toNat < 2^128) (hm : mantissa < 2^128) :
    scaled mantissa apart =
      some (if 0 ≤ apart then mantissa * 2^apart.toNat else mantissa / 2^(-apart).toNat) := by
  unfold scaled
  split_ifs with h0
  · rw [asU32_eq h0 (by omega), shl_eq (by omega) (hfit h0)]
  · rw [checked_of_fits (by unfold Fits; omega)]
    simp only [Option.bind_eq_bind, Option.bind_some]
    split_ifs with hfar
    · have hpow : mantissa < 2^(-apart).toNat :=
        hm.trans_le (Nat.pow_le_pow_right (by norm_num) (by omega))
      rw [Nat.div_eq_of_lt hpow]
    · rw [asU32_eq (by omega) (by omega), shr_eq (by omega)]

/-- The integer part of a normal number has as many bits as its exponent says. -/
theorem integerPart_normal (h0 : f.stored bits ≠ 0) (exponent : ℤ)
    (hexp : (f.stored bits : ℤ) - f.bias = exponent) :
    (exponent < 0 → f.integerPart bits = 0) ∧
      (0 ≤ exponent → 2^exponent.toNat ≤ f.integerPart bits ∧ f.integerPart bits < 2^(exponent.toNat + 1)) := by
  have hscale : f.scale bits = exponent - f.fraction := by
    unfold scale
    rw [if_neg h0, hexp]
  have hlo : 2^f.fraction ≤ f.significand bits := by
    unfold Interchange.significand
    rw [if_neg h0]
    exact Nat.le_add_left _ _
  have hhi : f.significand bits < 2^(f.fraction + 1) := by
    rw [pow_succ, mul_comm]
    exact f.significand_lt bits
  unfold integerPart
  rw [hscale]
  generalize f.significand bits = m at *
  constructor
  · intro hneg
    rw [if_neg (by omega)]
    exact Nat.div_eq_of_lt (hhi.trans_le (Nat.pow_le_pow_right (by norm_num) (by omega)))
  · intro hpos
    split_ifs with hs
    · have hsum : exponent.toNat = f.fraction + (exponent - f.fraction).toNat := by omega
      generalize (exponent - f.fraction).toNat = up at hsum
      rw [hsum, Nat.add_right_comm, pow_add, pow_add _ _ up]
      exact ⟨Nat.mul_le_mul_right _ hlo, Nat.mul_lt_mul_of_pos_right hhi (by positivity)⟩
    · have hsum : f.fraction = exponent.toNat + (-(exponent - f.fraction)).toNat := by omega
      generalize (-(exponent - f.fraction)).toNat = down at hsum
      rw [Nat.le_div_iff_mul_le (by positivity), Nat.div_lt_iff_lt_mul (by positivity), ← pow_add, ← pow_add,
        Nat.add_right_comm, ← hsum]
      exact ⟨hlo, hhi⟩

/-- A subnormal is below one. -/
theorem integerPart_subnormal (h0 : f.stored bits = 0) : f.integerPart bits = 0 := by
  have hb := f.bias_pos
  have hlt := f.fractionOf_lt bits
  unfold integerPart Interchange.significand scale smallest
  rw [if_pos h0, if_pos h0, if_neg (by have := f.fraction_pos; omega)]
  exact Nat.div_eq_of_lt (hlt.trans_le (Nat.pow_le_pow_right (by norm_num) (by omega)))

theorem sign_bit (hp : f.Pattern bits) : (bits >>> (f.fraction + f.exponent)) &&& 1 = 1 ↔ f.Negative bits := by
  have hpos := f.sign_pos
  have hshift : bits >>> (f.fraction + f.exponent) = bits / f.sign := by
    rw [Nat.shiftRight_eq_div_pow, Nat.add_comm]
    rfl
  have hlt : bits / f.sign < 2 := (Nat.div_lt_iff_lt_mul hpos).mpr hp
  have hle : 1 ≤ bits / f.sign ↔ f.sign ≤ bits := by
    rw [Nat.le_div_iff_mul_le hpos, Nat.one_mul]
  rw [hshift, Nat.and_one_is_mod, Negative, ← hle]
  generalize bits / f.sign = q at *
  omega

/-- No shift is out of range on the way into an integer, whatever the pattern. What comes out is the integer
part of the magnitude, or zero for a sign, an infinity, a not a number and what does not fit. -/
theorem toUnsigned_eq (hs : Small f) (hp : f.Pattern bits) : toUnsigned bits (Format.of f) =
      some (if f.Negative bits ∨ ¬f.Finite bits ∨ 2^128 ≤ f.integerPart bits then 0
        else f.integerPart bits) := by
  have hf := hs.fields
  have hb := f.bias_pos
  have hb' := hs.bias_lt
  have htop := f.top_eq
  have hle := f.stored_le bits
  unfold toUnsigned
  rw [mantissa_of, exponent_of, bias_eq, shr_eq (by omega), shr_eq (by omega), shl_one (by omega),
    shl_one (by omega)]
  simp only [Option.bind_eq_bind, Option.bind_some]
  rw [checkedSub_of_le Nat.one_le_two_pow, checkedSub_of_le Nat.one_le_two_pow]
  simp only [Option.bind_some]
  rw [← Nat.shiftRight_eq_div_pow, ← Nat.shiftRight_eq_div_pow]
  have hstored : (bits >>> f.fraction) &&& (2^f.exponent - 1) = f.stored bits := f.shift_and_top bits
  have hfraction : bits &&& (2^f.fraction - 1) = f.fractionOf bits := f.and_mask bits
  have hones : 2^f.exponent - 1 = f.top := rfl
  have hsign := sign_bit hp
  rw [hstored, hfraction, hones]
  by_cases hneg : f.Negative bits
  · rw [if_pos (Or.inl (hsign.mpr hneg)), if_pos (Or.inl hneg)]
  by_cases hzero : f.stored bits = 0
  · rw [if_pos (Or.inr (Or.inl hzero)), integerPart_subnormal hzero, ite_self]
  by_cases hfin : f.stored bits = f.top
  · have hnot : ¬f.Finite bits := not_not.mpr hfin
    rw [if_pos (Or.inr (Or.inr hfin)), if_pos (Or.inr (Or.inl hnot))]
  obtain ⟨exponent, hexp⟩ : ∃ exponent, (f.stored bits : ℤ) - f.bias = exponent := ⟨_, rfl⟩
  obtain ⟨hsmall, hpart⟩ := integerPart_normal hzero exponent hexp
  have hfinite : ¬¬f.Finite bits := not_not.mpr hfin
  rw [if_neg (by tauto), hexp, checked_of_fits (by unfold Fits; omega), Option.bind_some]
  by_cases hlarge : 128 ≤ exponent
  · have hge : 2^128 ≤ f.integerPart bits :=
      (Nat.pow_le_pow_right (by norm_num) (by omega)).trans (hpart (by omega)).1
    rw [if_pos hlarge, if_pos (Or.inr (Or.inr hge))]
  rw [if_neg hlarge]
  by_cases hbelow : exponent < 0
  · rw [if_pos hbelow, hsmall hbelow, ite_self]
  have hlt : f.integerPart bits < 2^128 :=
    (hpart (by omega)).2.trans_le (Nat.pow_le_pow_right (by norm_num) (by omega))
  have hor : f.implicit ||| f.fractionOf bits = f.significand bits := by
    rw [Nat.or_comm, f.or_implicit (f.fractionOf_lt bits), Interchange.significand, if_neg hzero]
  have hm : f.significand bits < 2^128 :=
    (f.significand_lt bits).trans_le (by
      rw [implicit, ← pow_succ']
      exact Nat.pow_le_pow_right (by norm_num) (by omega))
  have hscale : f.scale bits = exponent - f.fraction := by
    unfold scale
    rw [if_neg hzero, hexp]
  have hnot : ¬(f.Negative bits ∨ ¬f.Finite bits ∨ 2^128 ≤ f.integerPart bits) := by
    rw [not_or, not_or]
    exact ⟨hneg, hfinite, not_le.mpr hlt⟩
  have hpow : 2^f.fraction = f.implicit := rfl
  rw [if_neg hbelow, if_neg hnot, shl_one (by omega), Option.bind_some,
    checked_of_fits (by unfold Fits; omega), Option.bind_some, hpow, hor, ← hscale]
  rw [scaled_eq (by omega) (by omega) (fun h => ?_) hm, integerPart]
  unfold integerPart at hlt
  rwa [if_pos h] at hlt

/-- What comes out of a finite pattern that is not below zero is its value truncated, where that fits. -/
theorem toUnsigned_truncates (hs : Small f) (hp : f.Pattern bits) (hfin : f.Finite bits)
    (h0 : 0 ≤ f.value bits) (hfit : truncated (f.value bits) < 2^128) :
    ∃ value, toUnsigned bits (Format.of f) = some value ∧ (value : ℤ) = truncated (f.value bits) := by
  rw [truncated_value] at hfit ⊢
  refine ⟨_, toUnsigned_eq hs hp, ?_⟩
  by_cases hneg : f.Negative bits
  · -- the only such pattern is that of a zero with a sign
    have hzero : f.integerPart bits = 0 := by
      have hmag := f.magnitude_nonneg bits
      have hfloor := f.floor_magnitude bits
      unfold value at h0
      rw [if_pos hneg] at h0
      rw [le_antisymm (neg_nonneg.mp h0) hmag, Int.floor_zero] at hfloor
      exact_mod_cast hfloor.symm
    rw [if_pos (Or.inl hneg), if_pos hneg, hzero]
    rfl
  · rw [if_neg hneg] at hfit ⊢
    have hnot : ¬2^128 ≤ f.integerPart bits := by omega
    rw [if_neg (not_or.mpr ⟨hneg, not_or.mpr ⟨not_not.mpr hfin, hnot⟩⟩)]

/-! ## Both ways -/

/-- The formats of the file. -/
def Handled (format : Format) (f : Interchange) : Prop :=
  (format = SINGLE ∧ f = single) ∨ (format = DOUBLE ∧ f = double)

theorem Handled.small {format : Format} (h : Handled format f) : format = Format.of f ∧ Small f := by
  rcases h with ⟨rfl, rfl⟩ | ⟨rfl, rfl⟩
  · exact ⟨rfl, small_single⟩
  · exact ⟨rfl, small_double⟩

/-- For each format of the file, an integer of 128 bits becomes the nearest float with ties to even, a float
that is not below zero becomes its value truncated where that fits, and no pattern shifts out of range. -/
theorem conversions_exact {format : Format} (h : Handled format f) :
    (∀ value < 2^128, ∃ bits, fromUnsigned value format = some bits ∧ f.RoundsTo value bits) ∧
      (∀ bits, f.Pattern bits → ∃ value, toUnsigned bits format = some value) ∧
      ∀ bits, f.Pattern bits → f.Finite bits → 0 ≤ f.value bits → truncated (f.value bits) < 2^128 →
        ∃ value, toUnsigned bits format = some value ∧ (value : ℤ) = truncated (f.value bits) := by
  obtain ⟨rfl, hs⟩ := h.small
  exact ⟨fun value hv => fromUnsigned_rounds hs hv, fun bits hp => ⟨_, toUnsigned_eq hs hp⟩,
    fun bits hp hfin h0 hfit => toUnsigned_truncates hs hp hfin h0 hfit⟩

/-- The integer just past what a `f32` holds exactly, and the `f32` of two and a half. -/
theorem conversions_exact_single :
    (∃ bits, fromUnsigned 16777217 SINGLE = some bits ∧ single.RoundsTo (16777217 : ℕ) bits) ∧
      ∃ value, toUnsigned 0x40200000 SINGLE = some value ∧ (value : ℤ) = truncated (single.value 0x40200000) := by
  have h : Handled SINGLE single := Or.inl ⟨rfl, rfl⟩
  refine ⟨(conversions_exact h).1 _ (by norm_num),
    (conversions_exact h).2.2 _ (by decide) (by decide) ?_ ?_⟩
  · unfold value
    rw [if_neg (by decide)]
    exact single.magnitude_nonneg _
  · rw [truncated_value, if_neg (by decide)]
    decide

end Rucc.Builtins.Convert
