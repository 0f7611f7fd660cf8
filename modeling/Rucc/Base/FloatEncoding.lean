import Rucc.Base.Operations

/-!
# The encoding of a software float

`to_bits` of `float.rs`, next to the `from_bits` of `Rucc/Base/Arith.lean`. An encoding is a sign, an
exponent field and a significand field. `exponentField_pack`, `significandField_pack` and `signField_pack`
read the three back out of it, which is all either round trip needs.

A number is read back when it is `Encodable`: its representation is canonical, and a nan has something
in its fraction. `finish` and `round` only ever give such numbers.
-/

namespace Rucc.Base

open Checked

variable {n bits significand : ℕ} {f : Format} {exponent q : ℤ} {sign inexact : Bool} {r : Float} {st : Status}

/-- An integer cut to the `u128` its low bits are. -/
def asU128 (z : ℤ) : ℕ := (z % 2^128).toNat

theorem asU128_natCast (h : n < 2^128) : asU128 n = n := by
  unfold asU128
  omega

namespace Format

variable (f : Format)

/-- The three fields make up the width, and leave the sign the bit on top. -/
theorem width_eq : f.width - 1 = f.significandBits + f.exponentBits := by cases f <;> decide

theorem width_pos : f.width = f.significandBits + f.exponentBits + 1 := by cases f <;> decide

theorem significandBits_add_exponentBits_le : f.significandBits + f.exponentBits ≤ 127 := by
  cases f <;> decide

/-- The exponent field has a value for every exponent, and two more. -/
theorem two_pow_exponentBits : ((2^f.exponentBits : ℕ) : ℤ) = 2 * f.maxExponent + 2 := by
  cases f <;> decide

end Format

namespace Float

/-- The exponent field and the significand field of the encoding. -/
def encodedFields (x : Float) : ℕ × ℕ :=
  let format := x.format
  match x.category with
  | .zero => (0, 0)
  | .infinite =>
    ((1 <<< format.exponentBits) - 1,
      if format.hasExplicitIntegerBit then 1 <<< (format.precision - 1) else 0)
  | .nan => ((1 <<< format.exponentBits) - 1, x.significand)
  | .finite =>
    let subnormal : Bool := x.significand >>> (format.precision - 1) = 0
    (if subnormal then 0 else asU128 (x.exponent + format.maxExponent),
      x.significand &&& ((1 <<< format.significandBits) - 1))

/-- A sign, an exponent field and a significand field in one word. -/
def pack (format : Format) (sign : Bool) (fields : ℕ × ℕ) : ℕ :=
  (sign.toNat <<< (format.width - 1)) ||| (fields.1 <<< format.significandBits) % 2^128 ||| fields.2

/-- The bits of the encoding. -/
def toBits (x : Float) : ℕ := pack x.format x.sign x.encodedFields

/-- A number that its encoding is read back as. -/
structure Encodable (x : Float) : Prop where
  canonical : x.Canonical
  nan : x.category = .nan → x.exponent = 0 ∧ x.significand < 2^x.format.significandBits ∧
    x.significand % 2^(x.format.precision - 1) ≠ 0

end Float

/-! ## The fields of an encoding -/

/-- The sign of an encoding. -/
def signField (f : Format) (bits : ℕ) : Bool := decide ((bits >>> (f.width - 1)) &&& 1 = 1)

theorem exponentField_eq (f : Format) (bits : ℕ) :
    exponentField f bits = bits / 2^f.significandBits % 2^f.exponentBits := by
  rw [exponentField, Nat.shiftLeft_eq, one_mul, Nat.and_two_pow_sub_one_eq_mod,
    Nat.shiftRight_eq_div_pow]

theorem significandField_eq (f : Format) (bits : ℕ) : significandField f bits = bits % 2^f.significandBits := by
  rw [significandField, Nat.shiftLeft_eq, one_mul, Nat.and_two_pow_sub_one_eq_mod]

theorem signField_eq (f : Format) (bits : ℕ) : signField f bits =
    decide (bits / 2^f.significandBits / 2^f.exponentBits % 2 = 1) := by
  rw [signField, Format.width_eq, Nat.and_one_is_mod, Nat.shiftRight_eq_div_pow, pow_add,
    Nat.div_div_eq_div_mul]

theorem exponentField_lt (f : Format) (bits : ℕ) : exponentField f bits < 2^f.exponentBits := by
  rw [exponentField_eq]
  exact Nat.mod_lt _ (Nat.two_pow_pos _)

theorem significandField_lt (f : Format) (bits : ℕ) : significandField f bits < 2^f.significandBits := by
  rw [significandField_eq]
  exact Nat.mod_lt _ (Nat.two_pow_pos _)

section Pack

variable {f : Format} {e s : ℕ} (sign : Bool) (he : e < 2^f.exponentBits)
  (hs : s < 2^f.significandBits)

include he hs

/-- The fields do not overlap. -/
theorem pack_eq : Float.pack f sign (e, s) = (sign.toNat * 2^f.exponentBits + e) * 2^f.significandBits + s := by
  have hsum := f.significandBits_add_exponentBits_le
  have hfield : e <<< f.significandBits < 2^(f.significandBits + f.exponentBits) := by
    rw [Nat.shiftLeft_eq, pow_add, mul_comm]
    exact Nat.mul_lt_mul_of_pos_left he (Nat.two_pow_pos _)
  have hword : e <<< f.significandBits < 2^128 :=
    hfield.trans_le (Nat.pow_le_pow_right (by norm_num) (by omega))
  have hsum' : e <<< f.significandBits + s < 2^(f.significandBits + f.exponentBits) := by
    rw [Nat.shiftLeft_eq, pow_add]
    calc e * 2^f.significandBits + s < (e + 1) * 2^f.significandBits := by
          rw [add_mul, one_mul]
          omega
      _ ≤ 2^f.exponentBits * 2^f.significandBits := Nat.mul_le_mul_right _ he
      _ = 2^f.significandBits * 2^f.exponentBits := mul_comm _ _
  rw [Float.pack, Nat.mod_eq_of_lt hword, Nat.or_assoc, ← Nat.shiftLeft_add_eq_or_of_lt hs,
    f.width_eq, ← Nat.shiftLeft_add_eq_or_of_lt hsum', Nat.shiftLeft_eq, Nat.shiftLeft_eq, pow_add]
  ring

/-- What is above the significand field. -/
theorem pack_div : Float.pack f sign (e, s) / 2^f.significandBits = sign.toNat * 2^f.exponentBits + e := by
  rw [pack_eq sign he hs, mul_comm, Nat.mul_add_div (Nat.two_pow_pos _), Nat.div_eq_of_lt hs,
    add_zero]

@[simp]
theorem exponentField_pack : exponentField f (Float.pack f sign (e, s)) = e := by
  rw [exponentField_eq, pack_div sign he hs, mul_comm, Nat.mul_add_mod, Nat.mod_eq_of_lt he]

@[simp]
theorem significandField_pack : significandField f (Float.pack f sign (e, s)) = s := by
  rw [significandField_eq, pack_eq sign he hs, mul_comm, Nat.mul_add_mod, Nat.mod_eq_of_lt hs]

@[simp]
theorem signField_pack : signField f (Float.pack f sign (e, s)) = sign := by
  rw [signField_eq, pack_div sign he hs, mul_comm, Nat.mul_add_div (Nat.two_pow_pos _),
    Nat.div_eq_of_lt he]
  cases sign <;> rfl

end Pack

/-- An encoding of the format's width is made of its fields. -/
theorem pack_fields (h : bits < 2^f.width) :
    Float.pack f (signField f bits) (exponentField f bits, significandField f bits) = bits := by
  rw [pack_eq _ (exponentField_lt f bits) (significandField_lt f bits), signField_eq,
    exponentField_eq, significandField_eq]
  have hlow := Nat.div_add_mod bits (2^f.significandBits)
  have hhigh := Nat.div_add_mod (bits / 2^f.significandBits) (2^f.exponentBits)
  have htop : bits / 2^f.significandBits / 2^f.exponentBits < 2 := by
    rw [Nat.div_div_eq_div_mul, ← pow_add]
    refine Nat.div_lt_of_lt_mul ?_
    rw [← pow_succ, ← f.width_pos]
    exact h
  have hbit : (decide (bits / 2^f.significandBits / 2^f.exponentBits % 2 = 1)).toNat =
      bits / 2^f.significandBits / 2^f.exponentBits := by
    rw [Nat.mod_eq_of_lt htop]
    interval_cases bits / 2^f.significandBits / 2^f.exponentBits <;> rfl
  rw [hbit, mul_comm _ (2^f.exponentBits), hhigh, mul_comm, hlow]

/-! ## The round trips -/

/-- The exponent field of the infinities and the nans. -/
def allOnesField (f : Format) : ℕ := (1 <<< f.exponentBits) - 1

theorem allOnesField_eq (f : Format) : (allOnesField f : ℤ) = 2 * f.maxExponent + 1 := by
  have h := f.two_pow_exponentBits
  have hpos := Nat.two_pow_pos f.exponentBits
  unfold allOnesField
  rw [Nat.shiftLeft_eq, one_mul]
  omega

theorem allOnesField_lt (f : Format) : allOnesField f < 2^f.exponentBits := by
  have hpos := Nat.two_pow_pos f.exponentBits
  unfold allOnesField
  rw [Nat.shiftLeft_eq, one_mul]
  omega

/-- The fields of the significand below the leading bit. -/
theorem and_low (n k : ℕ) : n &&& ((1 <<< k) - 1) = n % 2^k := by
  rw [Nat.shiftLeft_eq, one_mul, Nat.and_two_pow_sub_one_eq_mod]

/-- A bit put in front of a number is added to it. -/
theorem or_leading {k : ℕ} (h : n < 2^k) : n ||| 1 <<< k = 2^k + n := by
  rw [Nat.or_comm, ← Nat.shiftLeft_add_eq_or_of_lt h, Nat.shiftLeft_eq, one_mul]

/-- The leading bit is set in a significand that is at least as large. -/
theorem leading_eq_zero (n k : ℕ) : n >>> k = 0 ↔ n < 2^k := by
  rw [Nat.shiftRight_eq_div_pow, Nat.div_eq_zero_iff_lt (Nat.two_pow_pos k)]

/-- The number an exponent field that is not all ones and a significand field are read as. -/
def fromFields (f : Format) (sign : Bool) (e s : ℕ) : Float :=
  if e = allOnesField f then
    if s % 2^(f.precision - 1) = 0 then Float.infinity f sign else ⟨f, .nan, sign, 0, s⟩
  else
    let significand := s ||| if f.hasExplicitIntegerBit || e = 0 then 0 else 1 <<< (f.precision - 1)
    if significand = 0 then Float.zero f sign
    else ⟨f, .finite, sign, if e = 0 then f.minExponent else e - f.maxExponent, significand⟩

/-- Reading an encoding looks at nothing but its fields. -/
theorem fromBits_eq_fromFields (f : Format) (bits : ℕ) : Float.fromBits f bits =
    fromFields f (signField f bits) (exponentField f bits) (significandField f bits) := by
  rw [fromBits_eq, and_low]
  rfl

/-- A packed encoding is read as its fields. -/
theorem fromBits_pack (sign : Bool) {e s : ℕ} (he : e < 2^f.exponentBits) (hs : s < 2^f.significandBits) :
    Float.fromBits f (Float.pack f sign (e, s)) = fromFields f sign e s := by
  rw [fromBits_eq_fromFields, exponentField_pack sign he hs, significandField_pack sign he hs,
    signField_pack sign he hs]

/-- The stored field of a significand, and the leading bit that is implied. -/
theorem restore_significand (hlt : significand < 2^f.precision) (hfull : 2^(f.precision - 1) ≤ significand) :
    (significand % 2^f.significandBits |||
      if f.hasExplicitIntegerBit then 0 else 1 <<< (f.precision - 1)) = significand := by
  obtain ⟨hp8, -⟩ := f.precision_bounds
  have hpow : 2^f.precision = 2^(f.precision - 1) + 2^(f.precision - 1) := by
    rw [← two_mul, ← pow_succ']
    congr 1
    omega
  unfold Format.significandBits
  split_ifs with h
  · rw [Nat.or_zero, Nat.mod_eq_of_lt hlt]
  · rw [or_leading (Nat.mod_lt _ (Nat.two_pow_pos _)), Nat.mod_eq_sub_mod hfull,
      Nat.mod_eq_of_lt (by omega)]
    omega

/-- The stored field of a significand that is not full is all of it. -/
theorem stored_subnormal (hlt : significand < 2^(f.precision - 1)) :
    significand % 2^f.significandBits = significand := by
  refine Nat.mod_eq_of_lt (hlt.trans_le (Nat.pow_le_pow_right (by norm_num) ?_))
  unfold Format.significandBits
  split_ifs <;> omega

/-- What is stored of an infinity is a leading bit, or nothing. -/
theorem stored_infinity (f : Format) :
    (if f.hasExplicitIntegerBit then 1 <<< (f.precision - 1) else 0) < 2^f.significandBits ∧
      (if f.hasExplicitIntegerBit then 1 <<< (f.precision - 1) else 0) % 2^(f.precision - 1) = 0 := by
  cases f <;> decide

/-- The exponent field of a normal number is between the two that are not for normal numbers. -/
theorem normal_field (hle : f.minExponent ≤ exponent)
    (hge : exponent ≤ f.maxExponent) : ∃ e : ℕ, asU128 (exponent + f.maxExponent) = e ∧
      (e : ℤ) = exponent + f.maxExponent ∧ 0 < e ∧ e < allOnesField f := by
  obtain ⟨hm15, hm⟩ := f.maxExponent_bounds
  have hmin : f.minExponent = 1 - f.maxExponent := rfl
  have hones := allOnesField_eq f
  obtain ⟨e, he⟩ : ∃ e : ℕ, (e : ℤ) = exponent + f.maxExponent :=
    ⟨(exponent + f.maxExponent).toNat, by omega⟩
  refine ⟨e, ?_, he, by omega, by omega⟩
  rw [← he]
  exact asU128_natCast (by omega)

/-- The fields of a finite number are read as the number. -/
theorem fromFields_finite (h : Float.Canonical ⟨f, .finite, sign, exponent, significand⟩) :
    ∃ e s, Float.encodedFields ⟨f, .finite, sign, exponent, significand⟩ = (e, s) ∧
      e < 2^f.exponentBits ∧ s < 2^f.significandBits ∧
      fromFields f sign e s = ⟨f, .finite, sign, exponent, significand⟩ := by
  obtain ⟨hpos, hlt, hle, hge, hfull⟩ := h
  dsimp only at hpos hlt hle hge hfull
  have hones := allOnesField_lt f
  have hmask := and_low significand f.significandBits
  have hstored : significand % 2^f.significandBits < 2^f.significandBits :=
    Nat.mod_lt _ (Nat.two_pow_pos _)
  have hlead := leading_eq_zero significand (f.precision - 1)
  rcases lt_or_ge significand (2^(f.precision - 1)) with hsub | hnormal
  · -- A subnormal number has the least exponent, and a field of zero.
    have hexp : exponent = f.minExponent := hfull.resolve_right hsub.not_ge
    have hne : 0 ≠ allOnesField f := by
      have := allOnesField_eq f
      have := f.maxExponent_bounds.1
      omega
    refine ⟨0, significand % 2^f.significandBits, ?_, Nat.two_pow_pos _, hstored, ?_⟩
    · simp only [Float.encodedFields, hlead.2 hsub, decide_true, if_true, hmask]
    · rw [stored_subnormal hsub, fromFields, if_neg hne, hexp]
      simp [hpos.ne']
  · obtain ⟨e, hcast, he, he0, helt⟩ := normal_field hle hge
    have hbias : (e : ℤ) - f.maxExponent = exponent := by omega
    have hrestore := restore_significand hlt hnormal
    refine ⟨e, significand % 2^f.significandBits, ?_, helt.trans hones, hstored, ?_⟩
    · have hfull' : ¬ significand >>> (f.precision - 1) = 0 := mt hlead.1 hnormal.not_gt
      simp only [Float.encodedFields, hfull', decide_false, Bool.false_eq_true, if_false, hcast, hmask]
    · rw [fromFields, if_neg helt.ne]
      simp only [he0.ne', decide_false, Bool.or_false, hrestore, if_false, hpos.ne', hbias]

/-- The fields of an encodable number fit their places, and are read as the number. -/
theorem Float.Encodable.fromFields {x : Float} (hx : x.Encodable) :
    ∃ e s, x.encodedFields = (e, s) ∧ e < 2^x.format.exponentBits ∧
      s < 2^x.format.significandBits ∧ fromFields x.format x.sign e s = x := by
  obtain ⟨f, category, sign, exponent, significand⟩ := x
  obtain ⟨hcanonical, hnan⟩ := hx
  cases category with
  | zero =>
    obtain ⟨rfl, rfl⟩ : exponent = 0 ∧ significand = 0 := hcanonical
    have hne : 0 ≠ allOnesField f := by
      have := allOnesField_eq f
      have := f.maxExponent_bounds.1
      omega
    refine ⟨0, 0, rfl, Nat.two_pow_pos _, Nat.two_pow_pos _, ?_⟩
    simp [Base.fromFields, hne, Float.zero]
  | infinite =>
    obtain ⟨rfl, rfl⟩ : exponent = 0 ∧ significand = 0 := hcanonical
    obtain ⟨hlt, hfraction⟩ := stored_infinity f
    exact ⟨_, _, rfl, allOnesField_lt f, hlt, (if_pos rfl).trans (if_pos hfraction)⟩
  | nan =>
    obtain ⟨rfl, hlt, hfraction⟩ := hnan rfl
    exact ⟨_, _, rfl, allOnesField_lt f, hlt, (if_pos rfl).trans (if_neg hfraction)⟩
  | finite => exact fromFields_finite hcanonical

/-- An encodable number is read back from its encoding. -/
theorem Float.Encodable.fromBits_toBits {x : Float} (hx : x.Encodable) : Float.fromBits x.format x.toBits = x := by
  obtain ⟨e, s, hfields, he, hs, hread⟩ := hx.fromFields
  rw [Float.toBits, hfields, fromBits_pack x.sign he hs, hread]

/-- Where the leading bit is implied, the fields of a number are those it was read from. -/
theorem encodedFields_fromFields {f : Format} {sign : Bool} {e s : ℕ}
    (hf : f.hasExplicitIntegerBit = false) (he : e < 2^f.exponentBits)
    (hs : s < 2^f.significandBits) : (fromFields f sign e s).format = f ∧
      (fromFields f sign e s).sign = sign ∧ (fromFields f sign e s).encodedFields = (e, s) := by
  have hbits : f.significandBits = f.precision - 1 := by
    unfold Format.significandBits
    rw [hf]
    rfl
  rw [hbits] at hs
  have hmask := and_low s f.significandBits
  unfold Base.fromFields
  by_cases hones : e = allOnesField f
  · rw [if_pos hones, Nat.mod_eq_of_lt hs]
    split_ifs with h0
    · refine ⟨rfl, rfl, ?_⟩
      simp only [Float.encodedFields, Float.infinity, hf, Bool.false_eq_true, if_false, hones, h0]
      rfl
    · refine ⟨rfl, rfl, ?_⟩
      simp only [Float.encodedFields, hones]
      rfl
  rw [if_neg hones]
  simp only [hf, Bool.false_or, decide_eq_true_eq]
  rcases Nat.eq_zero_or_pos e with rfl | he0
  · simp only [if_true, Nat.or_zero]
    split_ifs with h0
    · exact ⟨rfl, rfl, by rw [h0]; rfl⟩
    · refine ⟨rfl, rfl, ?_⟩
      have hlead := (leading_eq_zero s (f.precision - 1)).2 hs
      simp only [Float.encodedFields, hlead, decide_true, if_true, and_low, hbits,
        Nat.mod_eq_of_lt hs]
  · -- The leading bit put in front of a normal number is cut off again.
    have hor := or_leading hs
    have hpos := Nat.two_pow_pos (f.precision - 1)
    have hlead : ¬ (2^(f.precision - 1) + s) >>> (f.precision - 1) = 0 := by
      rw [leading_eq_zero]
      omega
    have hsum : (e : ℤ) - f.maxExponent + f.maxExponent = e := by ring
    have heb := f.significandBits_add_exponentBits_le
    have hcast : asU128 e = e := by
      refine asU128_natCast (he.trans_le (Nat.pow_le_pow_right (by norm_num) ?_))
      omega
    simp only [if_neg he0.ne', hor]
    rw [if_neg (by omega)]
    refine ⟨rfl, rfl, ?_⟩
    simp only [Float.encodedFields, hlead, decide_false, Bool.false_eq_true, if_false, hsum, hcast,
      and_low, hbits, Nat.add_mod_left, Nat.mod_eq_of_lt hs]

/-- Where the leading bit is implied, every encoding is the one of the number it is read as. -/
theorem toBits_fromBits_of_implied (hf : f.hasExplicitIntegerBit = false)
    (h : bits < 2^f.width) : (Float.fromBits f bits).toBits = bits := by
  obtain ⟨hformat, hsign, hfields⟩ := @encodedFields_fromFields f (signField f bits) _ _ hf
    (exponentField_lt f bits) (significandField_lt f bits)
  rw [fromBits_eq_fromFields, Float.toBits, hformat, hsign, hfields, pack_fields h]

/-! ## What is encodable -/

namespace Float

theorem encodable_zero (f : Format) (sign : Bool) : (zero f sign).Encodable :=
  ⟨canonical_zero f sign, by simp [zero]⟩

theorem encodable_infinity (f : Format) (sign : Bool) : (infinity f sign).Encodable :=
  ⟨canonical_infinity f sign, by simp [infinity]⟩

theorem encodable_finite {f : Format} {sign : Bool} {exponent : ℤ} {significand : ℕ}
    (h : Canonical ⟨f, .finite, sign, exponent, significand⟩) :
    Encodable ⟨f, .finite, sign, exponent, significand⟩ := ⟨h, by simp⟩

end Float

/-- A significand that carried out of the precision is finished as its half, if at all. -/
theorem finish_carry_bind (q : ℤ) (inexact sign : Bool) (f : Format) : finish (2^f.precision) q inexact sign f =
      (checked 32 (q + 1)).bind fun s => finish (2^(f.precision - 1)) s inexact sign f := by
  by_cases hfit : Fits 32 (q + 1)
  · rw [finish_carry f q inexact sign hfit, checked_of_fits hfit]
    rfl
  · have hcarry : ¬ (2^f.precision) >>> f.precision = 0 := by
      rw [leading_eq_zero]
      exact lt_irrefl _
    simp [finish, hcarry, checked_of_not_fits hfit]

/-- What `finish` gives for a significand that fits the precision: an end of the range, or the number
of that significand. -/
theorem finish_cases (hn : n < 2^f.precision) (h : finish n q inexact sign f = some (r, st)) :
    r = Float.zero f sign ∨ r = Float.infinity f sign ∨
      n ≠ 0 ∧ q + f.precision - 1 ≤ f.maxExponent ∧ r = ⟨f, .finite, sign,
        if 2^(f.precision - 1) ≤ n then q + f.precision - 1 else f.minExponent, n⟩ := by
  have hnocarry := (leading_eq_zero n f.precision).2 hn
  simp only [finish, hnocarry, ne_eq, not_true_eq_false, if_false] at h
  obtain ⟨⟨m, s⟩, hm, h⟩ := Option.bind_eq_some_iff.mp h
  obtain ⟨rfl, rfl⟩ := Prod.mk.inj (Option.some.inj hm)
  dsimp only at h
  by_cases hm : n = 0
  · rw [if_pos hm] at h
    exact Or.inl (Prod.mk.inj (Option.some.inj h)).1.symm
  rw [if_neg hm] at h
  obtain ⟨wide, hwide, h⟩ := Option.bind_eq_some_iff.mp h
  obtain ⟨exponent, hexponent, h⟩ := Option.bind_eq_some_iff.mp h
  rw [checked_eq_some] at hwide hexponent
  by_cases hbig : exponent > f.maxExponent
  · rw [if_pos hbig] at h
    exact Or.inr (Or.inl (Prod.mk.inj (Option.some.inj h)).1.symm)
  rw [if_neg hbig] at h
  refine Or.inr (Or.inr ⟨hm, by omega, (Prod.mk.inj (Option.some.inj h)).1.symm.trans ?_⟩)
  have hfull : (decide (¬ n >>> (f.precision - 1) = 0) = true) = (2^(f.precision - 1) ≤ n) := by
    rw [decide_eq_true_eq, leading_eq_zero, not_lt]
  have hexp : exponent = q + f.precision - 1 := by omega
  simp only [hfull, hexp]

/-- `finish` gives an encodable number for a significand that fits the precision. -/
theorem finish_encodable_of_lt (hn : n < 2^f.precision) (hq : f.leastScale ≤ q)
    (h : finish n q inexact sign f = some (r, st)) : r.Encodable := by
  have hleast : f.leastScale = f.minExponent - f.precision + 1 := rfl
  obtain rfl | rfl | ⟨hpos, hmax, rfl⟩ := finish_cases hn h
  · exact Float.encodable_zero f sign
  · exact Float.encodable_infinity f sign
  · have hmin : f.minExponent ≤ f.maxExponent := by
      have := f.maxExponent_bounds.1
      have : f.minExponent = 1 - f.maxExponent := rfl
      omega
    refine Float.encodable_finite ⟨Nat.pos_of_ne_zero hpos, hn, ?_⟩
    dsimp only
    split_ifs with hfull
    · exact ⟨by omega, hmax, Or.inr hfull⟩
    · exact ⟨le_rfl, hmin, Or.inl rfl⟩

/-- `finish` gives an encodable number for a significand that overflows the precision by a carry at
most. -/
theorem finish_encodable (hn : n ≤ 2^f.precision) (hq : f.leastScale ≤ q)
    (h : finish n q inexact sign f = some (r, st)) : r.Encodable := by
  rcases hn.lt_or_eq with hlt | rfl
  · exact finish_encodable_of_lt hlt hq h
  · rw [finish_carry_bind] at h
    obtain ⟨s, hs, h⟩ := Option.bind_eq_some_iff.mp h
    rw [checked_eq_some] at hs
    have hp8 := f.precision_bounds.1
    have hhalf : 2^(f.precision - 1) < 2^f.precision :=
      Nat.pow_lt_pow_right (by norm_num) (by omega)
    exact finish_encodable_of_lt hhalf (by omega) h

/-- A significand shifted down to a scale fits the precision when the scale leaves room for its leading
bit. -/
theorem shiftRight_lt {d p : ℕ} (h : n.size ≤ p + d) : n >>> d < 2^p := by
  rw [Nat.shiftRight_eq_div_pow]
  refine Nat.div_lt_of_lt_mul (lt_of_lt_of_le (Nat.lt_size_self n) ?_)
  rw [← pow_add, add_comm d]
  exact Nat.pow_le_pow_right (by norm_num) h

/-- `round` gives an encodable number for every word. -/
theorem round_encodable {e : ℤ} {sticky : Bool}
    (hn : n < 2^128) (h : round n e sticky sign f = some (r, st)) : r.Encodable := by
  unfold round at h
  by_cases h0 : n = 0
  · rw [if_pos h0] at h
    rw [← (Prod.mk.inj (Option.some.inj h)).1]
    exact Float.encodable_zero f sign
  rw [if_neg h0] at h
  obtain ⟨top, htop, h⟩ := Option.bind_eq_some_iff.mp h
  obtain ⟨want, hwant, h⟩ := Option.bind_eq_some_iff.mp h
  rw [checked_eq_some] at htop hwant
  rw [leadingZeros_cast hn] at htop
  generalize hscale : max want (f.minExponent - f.precision + 1) = scale at h
  have hleast : f.leastScale ≤ scale := by
    have : f.leastScale = f.minExponent - f.precision + 1 := rfl
    omega
  -- What is kept fits the precision, so that rounding up carries out of it at most.
  have hup : ∀ {integer : ℕ} {up : Prop} [Decidable up], integer < 2^f.precision →
      (if up then integer + 1 else integer) ≤ 2^f.precision := by
    intro integer up _ hlt
    split_ifs <;> omega
  dsimp only at h
  by_cases hle : scale ≤ e
  · rw [if_pos hle] at h
    obtain ⟨up, hup', h⟩ := Option.bind_eq_some_iff.mp h
    rw [checked_eq_some] at hup'
    refine finish_encodable (hup ?_) hleast h
    refine lt_of_le_of_lt (Nat.mod_le _ _) ?_
    rw [Nat.shiftLeft_eq]
    calc n * 2^up.toNat < 2^n.size * 2^up.toNat :=
          Nat.mul_lt_mul_of_pos_right (Nat.lt_size_self n) (Nat.two_pow_pos _)
      _ = 2^(n.size + up.toNat) := (pow_add _ _ _).symm
      _ ≤ 2^f.precision := Nat.pow_le_pow_right (by norm_num) (by omega)
  · rw [if_neg hle] at h
    obtain ⟨down, hdown, h⟩ := Option.bind_eq_some_iff.mp h
    rw [checked_eq_some] at hdown
    split_ifs at h with hall
    · exact finish_encodable (hup (Nat.two_pow_pos _)) hleast h
    · refine finish_encodable (hup (shiftRight_lt ?_)) hleast h
      omega

end Rucc.Base
