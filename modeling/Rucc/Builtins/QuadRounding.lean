import Rucc.Builtins.Quad

/-!
# The fields and the rounding of a quad

The functions of `Rucc.Builtins.Quad` that take a pattern apart and put one together are the ones of the
format with 112 bits of fraction and 15 of exponent. No word overflows and no `Wide` loses a bit: what
is moved up comes to at most 113 bits, and what is moved down is at most 255 bits long.
-/

namespace Rucc.Builtins.Quad

open Checked Words Interchange

variable {bits : ℕ} {low : ℤ}

/-- The format. -/
def quad : Interchange := ⟨112, 15, by norm_num, by norm_num⟩

theorem fraction_eq : quad.fraction = FRACTION := rfl

theorem bias_eq : quad.bias = BIAS := by decide

theorem top_eq : quad.top = TOP := by decide

theorem implicit_eq : quad.implicit = IMPLICIT := rfl

theorem sign_eq : quad.sign = SIGN := rfl

theorem smallest_eq : quad.smallest = SMALLEST := by decide

/-- A pattern is a word of 128 bits. -/
theorem pattern_iff : quad.Pattern bits ↔ bits < 2^128 := by
  unfold Pattern
  rw [sign_eq, SIGN, ← pow_succ']

/-! ## The fields -/

theorem stored_eq (bits : ℕ) : (bits >>> FRACTION) &&& TOP = quad.stored bits := by
  rw [← top_eq]
  exact quad.shift_and_top bits

theorem fractionOf_eq (bits : ℕ) : bits &&& FRACTION_MASK = quad.fractionOf bits :=
  quad.and_mask bits

theorem isNan_eq (bits : ℕ) : isNan bits = decide (quad.NaN bits) := by
  unfold isNan NaN
  simp only [stored_eq, fractionOf_eq, top_eq]

theorem isInfinite_eq (bits : ℕ) : isInfinite bits = decide (quad.Infinite bits) := by
  unfold isInfinite Interchange.Infinite
  simp only [stored_eq, fractionOf_eq, top_eq]

theorem signOf_eq (h : bits < 2^128) : bits &&& SIGN = quad.signOf bits :=
  quad.and_sign (pattern_iff.mpr h)

theorem mixed_eq {left right : ℕ} (hl : left < 2^128) (hr : right < 2^128) :
    (left ^^^ right) &&& SIGN = quad.mixed left right :=
  quad.xor_and_sign (pattern_iff.mpr hl) (pattern_iff.mpr hr)

theorem complement_sign : complement SIGN = quad.sign - 1 := by
  unfold complement U128.complement U128.MAX
  rw [sign_eq, SIGN]
  norm_num

theorem unsigned_eq (h : bits < 2^128) : bits &&& complement SIGN = quad.unsigned bits := by
  rw [complement_sign]
  exact quad.and_not_sign (pattern_iff.mpr h)

theorem isZero_eq (h : bits < 2^128) : isZero bits = decide (quad.significand bits = 0) := by
  unfold isZero
  rw [unsigned_eq h, decide_eq_decide]
  exact quad.unsigned_eq_zero

theorem infinity_eq {sign : ℕ} (h : sign = 0 ∨ sign = quad.sign) :
    infinity sign = quad.infinity sign := by
  have hor := quad.or_exponent h le_rfl quad.implicit_pos
  rw [Nat.or_zero, add_zero] at hor
  unfold infinity Interchange.infinity
  rw [← hor, Nat.shiftLeft_eq, top_eq]
  rfl

theorem empty_eq : EMPTY_NAN = quad.empty := by
  have hlt : 2^(FRACTION - 1) < quad.implicit := Nat.pow_lt_pow_right (by norm_num) (by decide)
  have hor := quad.or_exponent (Or.inl rfl) le_rfl hlt
  rw [Nat.zero_or, zero_add] at hor
  unfold EMPTY_NAN Interchange.empty QUIET
  rw [Nat.shiftLeft_eq, ← top_eq]
  exact hor

/-- Taking a pattern apart overflows nothing. -/
theorem parts_eq (bits : ℕ) : parts bits = some ⟨quad.significand bits, quad.scale bits⟩ := by
  have hst := quad.stored_le bits
  rw [top_eq, TOP] at hst
  unfold parts significand scale
  rw [stored_eq, fractionOf_eq, bias_eq, fraction_eq, smallest_eq]
  dsimp only
  split_ifs with h0
  · rfl
  · rw [checked_of_fits (by unfold Fits BIAS; omega)]
    simp only [Option.bind_eq_bind, Option.bind_some]
    rw [checked_of_fits (by unfold Fits BIAS FRACTION; omega), Option.bind_some, ← implicit_eq,
      quad.or_implicit (quad.fractionOf_lt bits)]

theorem size_le {bits : ℕ} : (quad.significand bits).size ≤ 113 := by
  have := quad.significand_lt bits
  rw [implicit, ← pow_succ'] at this
  exact Nat.size_le.mpr this

theorem significand_lt' (bits : ℕ) : quad.significand bits < 2^113 := Nat.size_le.mp size_le

theorem scale_bounds (bits : ℕ) : -16494 ≤ quad.scale bits ∧ quad.scale bits ≤ 16272 := by
  have := quad.stored_le bits
  rw [top_eq, TOP] at this
  unfold scale
  rw [smallest_eq, bias_eq, fraction_eq]
  unfold SMALLEST BIAS FRACTION
  split_ifs <;> omega

/-! ## The rounding -/

/-- The integer that is kept, where nothing is moved past the top. -/
theorem rounded_eq {m : ℕ} {scale : ℤ} {above : Bool} (hm : m.size < 256)
    (hdrop : Fits 32 (scale - low)) (hup : low ≤ scale → m.size + (scale - low).toNat ≤ 113) :
    rounded (Wide.ofNat m) (low - scale) above = some (Wide.ofNat (kept m scale low above)) := by
  have hm' : m < 2^256 := Nat.size_le.mp hm.le
  unfold Fits at hdrop
  unfold rounded kept
  by_cases hle : low ≤ scale
  · have hsize := hup hle
    rw [if_pos (by omega), if_pos hle, neg_sub, checked_of_fits (by unfold Fits; omega)]
    simp only [Option.bind_eq_bind, Option.bind_some]
    rw [asU32_eq (by omega) (by omega), Wide.shiftedUp_ofNat (by omega)]
  · rw [if_neg (by omega), if_neg hle]
    obtain ⟨drop, hd⟩ : ∃ drop : ℕ, low - scale = drop := ⟨(low - scale).toNat, by omega⟩
    rw [hd, Int.toNat_natCast]
    by_cases hfar : 256 ≤ drop
    · rw [if_pos (by exact_mod_cast hfar), cut_eq_zero (by omega)]
      rfl
    · have hpos : 0 < drop := by omega
      have hkept : m / 2^drop + 1 < 2^256 := by
        have hlt : m < 2^255 := Nat.size_le.mp (by omega)
        have : m / 2^drop ≤ m := Nat.div_le_self _ _
        omega
      have hodd : (Wide.ofNat (m / 2^drop)).low &&& 1 = m / 2^drop % 2 := by
        rw [Nat.and_one_is_mod, Wide.ofNat]
        dsimp only
        omega
      have htie : Wide.ofNat (m % 2^drop) = Wide.ofNat (2^(drop - 1)) ↔
          m % 2^drop = 2^(drop - 1) := ⟨Wide.ofNat_injective, congrArg _⟩
      rw [if_neg (by exact_mod_cast hfar), Wide.ofNat_narrow (by norm_num),
        Wide.shiftedUp_ofNat (by rw [Nat.size_one]; omega), one_mul]
      simp only [Option.bind_eq_bind, Option.bind_some]
      rw [Wide.lowBits_ofNat hm', Wide.shiftedDown_ofNat hm', Wide.plus_ofNat hkept, cut]
      simp only [Wide.lt_ofNat, htie, hodd, decide_eq_true_eq]
      split_ifs <;> rfl

/-- The pattern of what is kept. -/
theorem packed_eq {sign k : ℕ} (hsign : sign = 0 ∨ sign = quad.sign)
    (hk : k < 2 * quad.implicit) (hlow : quad.smallest ≤ low) (hhigh : low ≤ 200000) :
    packed sign (Wide.ofNat k) low = some (quad.pack sign k low) := by
  have hk' : k < 2^113 := by
    rw [implicit, ← pow_succ'] at hk
    exact hk
  have hmod : (Wide.ofNat k).low = k := by
    rw [Wide.ofNat]
    exact Nat.mod_eq_of_lt (by omega)
  unfold packed pack
  rw [hmod, Wide.isZero_ofNat, ← implicit_eq, bias_eq, fraction_eq, top_eq]
  rw [smallest_eq, SMALLEST, BIAS, FRACTION] at hlow
  by_cases h0 : k = 0
  · rw [if_pos (decide_eq_true h0), if_pos (by rw [h0]; exact quad.implicit_pos), h0, add_zero]
  · rw [if_neg (by simpa using h0)]
    by_cases hsmall : k < quad.implicit
    · have hlt : k < quad.sign :=
        hsmall.trans_le (Nat.pow_le_pow_right (by norm_num) (Nat.le_add_left _ _))
      rw [if_pos hsmall, if_pos hsmall, quad.or_of_lt hsign hlt]
    · rw [if_neg hsmall, if_neg hsmall]
      rw [checked_of_fits (by unfold Fits FRACTION; omega)]
      simp only [Option.bind_eq_bind, Option.bind_some]
      rw [checked_of_fits (by unfold Fits FRACTION BIAS; omega)]
      simp only [Option.bind_some]
      by_cases hinf : (TOP : ℤ) ≤ low + FRACTION + BIAS
      · rw [if_pos hinf, if_pos hinf, infinity_eq hsign, Interchange.infinity, top_eq]
      · rw [if_neg hinf, if_neg hinf]
        obtain ⟨e, he⟩ : ∃ e : ℕ, low + FRACTION + BIAS = e :=
          ⟨(low + FRACTION + BIAS).toNat, by unfold FRACTION BIAS; omega⟩
        have hetop : e ≤ quad.top := by
          rw [top_eq]
          omega
        have hesize : e.size ≤ 15 := by
          rw [top_eq, TOP] at hetop
          exact Nat.size_le.mpr (by omega)
        rw [he, Int.toNat_natCast, shl_eq (by decide) (mul_pow_lt (by unfold FRACTION; omega)),
          fractionOf_eq, Option.bind_some, Nat.or_assoc]
        exact congrArg some (quad.or_exponent hsign hetop (quad.fractionOf_lt k))

/-- The one rounding overflows nothing and is the format's. -/
theorem roundFrom_eq {sign m : ℕ} {scale : ℤ} {above : Bool}
    (hsign : sign = 0 ∨ sign = quad.sign) (hm : m.size < 256) (hlo : -100000 ≤ scale)
    (hhi : scale ≤ 100000) :
    roundFrom sign (Wide.ofNat m) scale above = some (quad.round sign m scale above) := by
  unfold roundFrom Interchange.round
  rw [Wide.isZero_ofNat]
  by_cases h0 : m = 0
  · rw [if_pos (decide_eq_true h0), if_pos h0]
  have hsize : 0 < m.size := Nat.size_pos.mpr (Nat.pos_of_ne_zero h0)
  rw [if_neg (by simpa using h0), if_neg h0, Wide.bits_ofNat (Nat.size_le.mp hm.le),
    checked_of_fits (by unfold Fits; omega)]
  simp only [Option.bind_eq_bind, Option.bind_some]
  rw [checked_of_fits (by unfold Fits; omega), Option.bind_some, add_sub_assoc]
  have hlowest : lowestBit (scale + (m.size - 1)) = some (quad.lowest (scale + (m.size - 1))) := by
    unfold lowestBit lowest
    rw [bias_eq, smallest_eq, fraction_eq]
    split_ifs
    · exact checked_of_fits (by unfold Fits FRACTION; omega)
    · rfl
  have hge := quad.le_lowest (scale + (m.size - 1))
  have hge' := quad.smallest_le_lowest (scale + (m.size - 1))
  have hle := quad.lowest_le (scale + (m.size - 1))
  have hkept := @kept_le quad m scale above
  rw [hlowest, Option.bind_some]
  rw [fraction_eq] at hge hle
  have hsm : quad.smallest = -16494 := by decide
  rw [hsm] at hle
  unfold FRACTION at hge hle
  generalize quad.lowest (scale + (m.size - 1)) = low at *
  rw [checked_of_fits (by unfold Fits; omega), Option.bind_some,
    rounded_eq hm (by unfold Fits; omega) (by omega), Option.bind_some]
  generalize kept m scale low above = k at *
  have htwo : 2 * quad.implicit = 2^113 := by rw [implicit, ← pow_succ']; rfl
  have hk : k ≤ 2^113 := by rw [← htwo]; exact hkept
  have hcarry : FRACTION + 1 < (Wide.ofNat k).bits ↔ 2 * quad.implicit ≤ k := by
    rw [Wide.bits_ofNat (by omega), htwo]
    exact Nat.lt_size
  by_cases hc : 2 * quad.implicit ≤ k
  · rw [if_pos (hcarry.mpr hc), if_pos hc, checked_of_fits (by unfold Fits; omega),
      Option.bind_some, Wide.shiftedDown_ofNat (by omega), pow_one]
    exact packed_eq hsign (by omega) (by omega) (by omega)
  · rw [if_neg (mt hcarry.mp hc), if_neg hc]
    exact packed_eq hsign (by omega) hge' (by omega)

end Rucc.Builtins.Quad
