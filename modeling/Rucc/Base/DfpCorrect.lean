import Rucc.Base.DfpParse

/-!
# Which decimal constants are read correctly

A spelling reaches `fit` as a coefficient of at most the precision's digits and an exponent. When no
cut of the exponent was felt, the coefficient is the exact value rounded to the precision, and `fit`
rounds it again only where the exponent is below the least. When a cut was felt, the value is a power
of ten away from the exact one, and the two agree only where both overflow or both underflow to zero.
`Spelling.ReadsRight` is that condition and `parse_correct_iff` the equivalence.
-/

namespace Rucc.Base.Dfp

open Rounding Checked Digits

namespace Spelling

variable (s : Spelling) (width : Width)

/-- The number of digits past the precision. -/
def dropped : ℕ := s.significant.length - width.digits

/-- The digits rounded to the precision, as an integer. -/
def rounded : ℕ := rne ((s.coefficient : ℚ) / 10^s.dropped width)

/-- The exponent the parser gives the rounded digits. -/
def worked : ℤ := s.clamped width + min (s.dropped width : ℤ) (limit width * 4)

/-- The magnitude the parser brings into range. -/
def workedMagnitude : ℚ := s.rounded width * 10^s.worked width

/-- The exact exponent of the rounded digits. -/
def droppedScale : ℤ := s.scale + s.dropped width

theorem value_significant : Digits.value s.significant = s.coefficient :=
  Digits.value_dropWhile _

theorem decimal_significant : Digits.Decimal s.significant := s.decimal.dropWhile

/-- A spelling without significant digits is a zero. -/
theorem coefficient_eq_zero_iff : s.coefficient = 0 ↔ s.significant = [] := by
  rw [← s.value_significant]
  constructor
  · intro h
    cases hs : s.significant with
    | nil => rfl
    | cons d ds =>
      have hd := ne_zero_of_dropWhile hs
      have := le_value ds hd
      have hpos : 0 < 10^ds.length := by positivity
      rw [hs] at h
      omega
  · intro h
    rw [h]
    rfl

/-- The first significant digit is not zero, so the digits count up to the coefficient. -/
theorem pow_le_coefficient (h : s.coefficient ≠ 0) : 10^(s.significant.length - 1) ≤ s.coefficient := by
  rw [← s.value_significant]
  cases hs : s.significant with
  | nil => exact absurd (s.coefficient_eq_zero_iff.2 hs) h
  | cons d ds =>
    have := le_value ds (ne_zero_of_dropWhile hs)
    simpa using this

theorem coefficient_lt_pow : s.coefficient < 10^s.significant.length := by
  rw [← s.value_significant]
  exact value_lt s.decimal_significant

/-- The exact magnitude in units of the last digit kept. -/
theorem magnitude_eq : s.magnitude = (s.coefficient : ℚ) / 10^s.dropped width * 10^s.droppedScale width := by
  unfold magnitude droppedScale
  rw [zpow_add₀ (by norm_num), zpow_natCast]
  field_simp

/-- The digits kept are as many as the precision has, where any are dropped. -/
theorem kept_bounds (h : 0 < s.dropped width) (h0 : s.coefficient ≠ 0) :
    (10 : ℚ)^(width.digits - 1) ≤ (s.coefficient : ℚ) / 10^s.dropped width ∧
      (s.coefficient : ℚ) / 10^s.dropped width < 10^width.digits := by
  have hd7 := width.digits_bounds.1
  have hlen : s.significant.length = width.digits + s.dropped width := by
    unfold dropped at h ⊢
    omega
  have h1 := s.pow_le_coefficient h0
  have h2 := s.coefficient_lt_pow
  constructor
  · rw [le_div_iff₀ (by positivity), ← pow_add]
    have : width.digits - 1 + s.dropped width = s.significant.length - 1 := by omega
    rw [this]
    exact_mod_cast h1
  · rw [div_lt_iff₀ (by positivity), ← pow_add, ← hlen]
    exact_mod_cast h2

/-- The rounded digits without any dropped. -/
theorem rounded_of_short (h : s.dropped width = 0) : s.rounded width = s.coefficient := by
  unfold rounded
  rw [h, pow_zero, div_one, rne_natCast]

/-- The rounded digits are no more than the precision has, up to a carry. -/
theorem rounded_le (h0 : s.coefficient ≠ 0) : s.rounded width ≤ 10^width.digits := by
  rcases Nat.eq_zero_or_pos (s.dropped width) with h | h
  · rw [s.rounded_of_short width h]
    have h1 := s.coefficient_lt_pow
    have h2 : 10^s.significant.length ≤ 10^width.digits :=
      Nat.pow_le_pow_right (by norm_num) (by unfold dropped at h; omega)
    omega
  · refine rne_le (by positivity) ?_
    have := (s.kept_bounds width h h0).2.le
    exact_mod_cast this

theorem rounded_pos (h0 : s.coefficient ≠ 0) : 0 < s.rounded width := by
  rcases Nat.eq_zero_or_pos (s.dropped width) with h | h
  · rw [s.rounded_of_short width h]
    exact Nat.pos_of_ne_zero h0
  · have h1 := (s.kept_bounds width h h0).1
    have h2 : ((10^(width.digits - 1) : ℕ) : ℚ) ≤ (s.coefficient : ℚ) / 10^s.dropped width := by
      exact_mod_cast h1
    have h3 : 0 < 10^(width.digits - 1) := by positivity
    have := le_rne h2
    unfold rounded
    omega

/-- What is read right: a number with the sign and the exact magnitude, rounded once to nearest with
ties to even and reported as inexact when it changed, with the written exponent where the digits and
the exponent are in range. -/
structure Correct (bits : ℕ) (st : Status) : Prop where
  sign : (decode bits width).HasSign s.negative
  rounds : width.grid.Rounds s.magnitude (decode bits width).magnitude
  status : st.has .INEXACT ↔ (decode bits width).magnitude ≠ some s.magnitude
  keeps : s.coefficient ≤ width.maxCoefficient → width.minExponent ≤ s.scale →
    s.scale ≤ width.maxExponent → decode bits width = .finite s.negative s.coefficient s.scale

/-- The condition for a spelling to be read right. The exponents must be counted in an `i64`. A zero
must keep an exponent in range. Any other number must keep its exponent through the cuts and not come
to the wrong side of a tie at the least exponent, or it must overflow, or underflow to zero, both as
it is and as it was cut. -/
def ReadsRight : Prop :=
  Fits 64 (s.cutWritten - s.fraction.length) ∧
    if s.coefficient = 0 then
      width.minExponent ≤ s.scale → s.scale ≤ width.maxExponent →
        max width.minExponent (min width.maxExponent (s.clamped width)) = s.scale
    else
      (s.worked width = s.droppedScale width ∧
        ¬ DoublyRounded ((s.coefficient : ℚ) / 10^s.dropped width)
          (10^(width.minExponent - s.droppedScale width).toNat)) ∨
      (width.grid.limit ≤ s.magnitude ∧ width.grid.limit ≤ s.workedMagnitude width) ∨
      (s.magnitude ≤ width.grid.unit width.minExponent / 2 ∧
        s.workedMagnitude width ≤ width.grid.unit width.minExponent / 2)

end Spelling

/-- The digits of a number that is not zero reach `fit` rounded to the precision. -/
theorem assemble_spec (s : Spelling) (width : Width) (h0 : s.coefficient ≠ 0) :
    ∃ bits st status, assemble s.negative s.significant (s.clamped width) width = some (bits, st) ∧
      Fitted width s.negative (s.workedMagnitude width) status bits st ∧
      (status.has .INEXACT ↔ s.coefficient % 10^s.dropped width ≠ 0) := by
  have hmax := width.maxCoefficient_succ
  have hdec := s.decimal_significant
  have hval := s.value_significant
  have hpos := s.rounded_pos width h0
  unfold assemble
  by_cases hlong : width.digits < s.significant.length
  · have hdrop : s.significant.length - width.digits = s.dropped width := rfl
    have hadd : min (if s.dropped width < 2^63 then (s.dropped width : ℤ) else (2^63 - 1) / 4)
        (limit width * 4) = min (s.dropped width : ℤ) (limit width * 4) := by
      have hb := width.exponent_bounds
      unfold limit
      split_ifs with h
      · rfl
      · omega
    simp only [if_pos hlong, hdrop, hadd]
    -- The digits kept and dropped are the significant ones.
    have hlenD : (s.significant.drop width.digits).length = s.dropped width := by
      rw [List.length_drop]
      rfl
    have htake : Digits.Decimal (s.significant.take width.digits) := fun d hd =>
      hdec d (List.mem_of_mem_take hd)
    have hdrop' : Digits.Decimal (s.significant.drop width.digits) := fun d hd =>
      hdec d (List.mem_of_mem_drop hd)
    have hround := roundsUp_spec (s.significant.take width.digits) hdrop'
    rw [List.take_append_drop, hval, hlenD] at hround
    have hkept : value (s.significant.take width.digits) < 10^width.digits := by
      have := value_lt htake
      rwa [List.length_take, min_eq_left hlong.le] at this
    have hany : (s.significant.drop width.digits).any (· ≠ 0) =
        decide (s.coefficient % 10^s.dropped width ≠ 0) := by
      have hsplit := value_append (s.significant.take width.digits)
        (s.significant.drop width.digits)
      have hlt := value_lt hdrop'
      rw [List.take_append_drop, hval, hlenD] at hsplit
      rw [hlenD] at hlt
      rw [hsplit, Nat.mul_add_mod', Nat.mod_eq_of_lt hlt, Bool.eq_iff_iff]
      simp [value_eq_zero]
    rw [hany]
    have hstatus : (if decide (s.coefficient % 10^s.dropped width ≠ 0) = true then
        Status.NONE.with_ .INEXACT else Status.NONE).has .INEXACT ↔
        s.coefficient % 10^s.dropped width ≠ 0 := by
      split_ifs with h
      · simpa using h
      · simpa using h
    generalize (if decide (s.coefficient % 10^s.dropped width ≠ 0) = true then
      Status.NONE.with_ .INEXACT else Status.NONE) = status at *
    generalize value (s.significant.take width.digits) = kept at *
    have hrounded : s.rounded width = kept +
        (roundsUp (s.significant.take width.digits) (s.significant.drop width.digits)).toNat :=
      hround
    unfold Spelling.workedMagnitude Spelling.worked
    cases hup : roundsUp (s.significant.take width.digits) (s.significant.drop width.digits) with
    | false =>
      rw [hup, Bool.toNat_false, add_zero] at hrounded
      obtain ⟨bits, st, hfit, hfitted⟩ := fit_spec s.negative
        (s.clamped width + min (s.dropped width : ℤ) (limit width * 4)) width status
        (by omega : s.rounded width ≤ width.maxCoefficient) hpos
      rw [hrounded] at hfit hfitted ⊢
      exact ⟨bits, st, status, hfit, hfitted, hstatus⟩
    | true =>
      rw [hup, Bool.toNat_true] at hrounded
      simp only [if_true]
      by_cases hcarry : width.maxCoefficient < kept + 1
      · -- A carry out of the precision is a power of ten, one exponent up.
        obtain ⟨j, hj⟩ : ∃ j, width.digits = j + 1 :=
          ⟨width.digits - 1, by have := width.digits_bounds.1; omega⟩
        have htop : s.rounded width = 10^j * 10 := by
          rw [← pow_succ, ← hj]
          omega
        have hten : (kept + 1) / 10 = 10^j := by
          rw [← hrounded, htop, Nat.mul_div_cancel _ (by norm_num)]
        have hlt : 10^j ≤ width.maxCoefficient := by
          have h1 : 10^(j + 1) = 10^j * 10 := pow_succ _ _
          have h2 : 0 < 10^j := by positivity
          rw [hj] at hmax
          omega
        obtain ⟨bits, st, hfit, hfitted⟩ := fit_spec s.negative
          (s.clamped width + min (s.dropped width : ℤ) (limit width * 4) + 1) width
          status hlt (by positivity)
        have hsame : (s.rounded width : ℚ) *
            10^(s.clamped width + min (s.dropped width : ℤ) (limit width * 4)) = ((10^j : ℕ) : ℚ) *
            10^(s.clamped width + min (s.dropped width : ℤ) (limit width * 4) + 1) := by
          rw [htop, zpow_add_one₀ (by norm_num)]
          push_cast
          ring
        rw [if_pos hcarry, hten, hsame]
        exact ⟨bits, st, status, hfit, hfitted, hstatus⟩
      · obtain ⟨bits, st, hfit, hfitted⟩ := fit_spec s.negative
          (s.clamped width + min (s.dropped width : ℤ) (limit width * 4)) width status
          (by omega : s.rounded width ≤ width.maxCoefficient) hpos
        rw [hrounded] at hfit hfitted ⊢
        rw [if_neg hcarry]
        exact ⟨bits, st, status, hfit, hfitted, hstatus⟩
  · have hdrop : s.dropped width = 0 := by
      unfold Spelling.dropped
      omega
    have hshort := s.rounded_of_short width hdrop
    have hle := s.rounded_le width h0
    have hlt : s.coefficient ≤ width.maxCoefficient := by
      have h1 := s.coefficient_lt_pow
      have h2 : 10^s.significant.length ≤ 10^width.digits :=
        Nat.pow_le_pow_right (by norm_num) (by omega)
      omega
    have hb := width.exponent_bounds
    have hworked : s.worked width = s.clamped width := by
      unfold Spelling.worked limit
      rw [hdrop]
      simp
      omega
    obtain ⟨bits, st, hfit, hfitted⟩ := fit_spec s.negative (s.clamped width) width
      .NONE hlt (Nat.pos_of_ne_zero h0)
    rw [if_neg hlong, hval, Spelling.workedMagnitude, hshort, hworked]
    exact ⟨bits, st, .NONE, hfit, hfitted, by simp [hdrop, Nat.mod_one]⟩

/-! ## The exponent kept -/

section Exact

variable (s : Spelling) (width : Width)

variable {x : ℚ}

/-- The exact magnitude is spaced at the last digit kept, unless that is below the least. -/
theorem spaced_droppedScale (h0 : s.coefficient ≠ 0) (hd : 0 < s.dropped width)
    (hleast : width.minExponent ≤ s.droppedScale width) :
    width.grid.Spaced s.magnitude (s.droppedScale width) := by
  obtain ⟨h1, h2⟩ := s.kept_bounds width hd h0
  have hu : (0 : ℚ) < 10^s.droppedScale width := by positivity
  rw [s.magnitude_eq width]
  refine ⟨hleast, ?_, Or.inr ?_⟩
  · rw [Width.grid_top, Width.grid_unit]
    push_cast
    exact mul_lt_mul_of_pos_right h2 hu
  · rw [Width.grid_base, Width.grid_precision, Width.grid_unit]
    push_cast
    exact mul_le_mul_of_nonneg_right h1 hu.le

/-- Below the least exponent, a magnitude of at most the precision's digits is spaced at the
least. -/
theorem spaced_least {e : ℤ} (hx : x ≤ 10^width.digits) (he : e < width.minExponent) :
    width.grid.Spaced (x * 10^e) width.minExponent := by
  refine ⟨le_rfl, ?_, Or.inl rfl⟩
  have h1 : (10 : ℚ)^e < 10^width.minExponent := zpow_lt_zpow_right₀ (by norm_num) he
  rw [Width.grid_top, Width.grid_unit]
  push_cast
  calc x * 10^e ≤ 10^width.digits * 10^e := mul_le_mul_of_nonneg_right hx (by positivity)
    _ < 10^width.digits * 10^width.minExponent := mul_lt_mul_of_pos_left h1 (by positivity)

/-- A magnitude spaced at the least exponent rounds to an integer of units, never to an infinity. -/
theorem rounds_least_iff (hx : 0 ≤ x) (hs : width.grid.Spaced x width.minExponent)
    (r : Option ℚ) : width.grid.Rounds x r ↔
      r = some ((rne (x / 10^width.minExponent) : ℚ) * 10^width.minExponent) := by
  have hb := width.exponent_bounds
  have hr : width.grid.Rounds x
      (some ((rne (x / 10^width.minExponent) : ℚ) * 10^width.minExponent)) := by
    refine width.grid.rounds_scaled hx hs _ ?_ ?_
    · rw [Width.grid_most]
      simp only [reduceCtorEq, false_iff]
      omega
    · intro v hv
      rw [Width.grid_unit]
      exact (Option.some.inj hv).symm
  constructor
  · intro h
    exact width.grid.rounds_unique hx h hr
  · rintro rfl
    exact hr

/-- With the exponent kept, the parser rounds like the exact magnitude does, unless it comes to the
wrong side of a tie. -/
theorem rounds_worked_iff (h0 : s.coefficient ≠ 0) (hw : s.worked width = s.droppedScale width)
    {r : Option ℚ} (hr : width.grid.Rounds (s.workedMagnitude width) r) :
    width.grid.Rounds s.magnitude r ↔ ¬ DoublyRounded ((s.coefficient : ℚ) / 10^s.dropped width)
      (10^(width.minExponent - s.droppedScale width).toNat) := by
  have hx0 : (0 : ℚ) ≤ (s.coefficient : ℚ) / 10^s.dropped width := by positivity
  have hmag := s.magnitude_eq width
  unfold Spelling.workedMagnitude at hr
  rw [hw] at hr
  rcases Nat.eq_zero_or_pos (s.dropped width) with hd | hd
  · -- Nothing is dropped, so there is one rounding.
    have hround := s.rounded_of_short width hd
    rw [hd, pow_zero, div_one] at hmag
    rw [hround] at hr
    rw [hmag, hd, pow_zero, div_one]
    simp only [hr, true_iff]
    rintro ⟨m, -, ⟨-, h⟩ | ⟨-, h⟩⟩
    · rw [rne_natCast] at h
      exact lt_irrefl _ h
    · rw [rne_natCast] at h
      exact lt_irrefl _ h
  rcases le_or_gt width.minExponent (s.droppedScale width) with hleast | hleast
  · -- The digits kept are the ones the format keeps there.
    have hspaced := spaced_droppedScale s width h0 hd hleast
    have hscaled : s.magnitude / width.grid.unit (s.droppedScale width) =
        (s.coefficient : ℚ) / 10^s.dropped width := by
      rw [hmag, Width.grid_unit, mul_div_cancel_right₀ _ (by positivity)]
    have hsame := width.grid.rounds_rne_iff
      (by rw [hmag]; positivity) hspaced r
    rw [hscaled, Width.grid_unit] at hsame
    have hone : 10^(width.minExponent - s.droppedScale width).toNat = 1 := by
      have : (width.minExponent - s.droppedScale width).toNat = 0 := by omega
      rw [this, pow_zero]
    have hnot := (rne_rne_div_iff (b := 1) hx0 (by norm_num) (Or.inl rfl)).1
      (by rw [Nat.cast_one, div_one, div_one, rne_natCast])
    rw [hone, ← hsame]
    exact iff_of_true hr hnot
  · -- More digits are dropped at the least exponent.
    obtain ⟨k, hk⟩ : ∃ k, (width.minExponent - s.droppedScale width).toNat = k + 1 :=
      ⟨(width.minExponent - s.droppedScale width).toNat - 1, by omega⟩
    have hpow : (10 : ℚ)^width.minExponent = (10^(k + 1) : ℕ) * 10^s.droppedScale width := by
      push_cast
      rw [← zpow_natCast, ← zpow_add₀ (by norm_num)]
      congr 1
      omega
    have hu : (0 : ℚ) < 10^s.droppedScale width := by positivity
    have hum : (0 : ℚ) < 10^width.minExponent := by positivity
    have hle : (s.rounded width : ℚ) ≤ 10^width.digits := by
      exact_mod_cast s.rounded_le width h0
    have hy := (rounds_least_iff width (by positivity) (spaced_least width hle hleast) r).1 hr
    have hx := rounds_least_iff width (x := s.magnitude) (by rw [hmag]; positivity)
      (by
        rw [hmag]
        exact spaced_least width (s.kept_bounds width hd h0).2.le hleast) r
    rw [hx, hy, Option.some.injEq, mul_left_inj' hum.ne', Nat.cast_inj, hmag, hpow,
      mul_div_mul_right _ _ hu.ne', mul_div_mul_right _ _ hu.ne', hk]
    refine rne_rne_div_iff hx0 (by positivity) (Or.inr ?_)
    rw [pow_succ]
    omega

/-- A spelling with an exponent cut is a power of ten away from its exact magnitude, too far for the
two to round to one positive magnitude. -/
theorem worked_eq_of_rounds (h0 : s.coefficient ≠ 0) {v : ℚ} (hv0 : v ≠ 0)
    (hx : width.grid.Rounds s.magnitude (some v))
    (hy : width.grid.Rounds (s.workedMagnitude width) (some v)) :
    s.worked width = s.droppedScale width := by
  have hmag := s.magnitude_eq width
  have hcoef : (0 : ℚ) ≤ (s.coefficient : ℚ) / 10^s.dropped width := by positivity
  obtain ⟨hx1, hx2⟩ := width.grid.rounds_near (by rw [hmag]; positivity) hv0 hx
  obtain ⟨hy1, hy2⟩ := width.grid.rounds_near
    (by unfold Spelling.workedMagnitude; positivity) hv0 hy
  -- The rounded digits are nearly the exact ones.
  have hnear : |(s.coefficient : ℚ) / 10^s.dropped width - s.rounded width| ≤
      s.rounded width / 10 := by
    rcases Nat.eq_zero_or_pos (s.dropped width) with hd | hd
    · rw [s.rounded_of_short width hd, hd, pow_zero, div_one, sub_self, abs_zero]
      positivity
    · have h1 := abs_sub_rne_le hcoef
      have h2 := (s.kept_bounds width hd h0).1
      have h3 : (10 : ℚ)^6 ≤ 10^(width.digits - 1) :=
        pow_le_pow_right₀ (by norm_num) (by have := width.digits_bounds.1; omega)
      have h4 : |(s.coefficient : ℚ) / 10^s.dropped width - s.rounded width| ≤ 1 / 2 := h1
      have h5 := (abs_le.1 h4).2
      norm_num at h3
      linarith
  have hpos : (0 : ℚ) < s.rounded width := by exact_mod_cast s.rounded_pos width h0
  rw [abs_le] at hnear
  unfold Spelling.workedMagnitude at hy1 hy2
  rw [hmag] at hx1 hx2
  have hu1 : (0 : ℚ) < 10^s.worked width := by positivity
  have hu2 : (0 : ℚ) < 10^s.droppedScale width := by positivity
  generalize (s.coefficient : ℚ) / 10^s.dropped width = c at *
  generalize (s.rounded width : ℚ) = n at *
  have hcn : c ≤ 11 / 10 * n ∧ 9 / 10 * n ≤ c := ⟨by linarith, by linarith⟩
  rcases lt_trichotomy (s.worked width) (s.droppedScale width) with h | h | h
  · exfalso
    have hten : (10 : ℚ) * 10^s.worked width ≤ 10^s.droppedScale width := by
      rw [← zpow_one_add₀ (by norm_num)]
      exact zpow_le_zpow_right₀ (by norm_num) (by omega)
    generalize (10 : ℚ)^s.worked width = u1 at *
    generalize (10 : ℚ)^s.droppedScale width = u2 at *
    have h1 : 9 / 10 * n * (10 * u1) ≤ c * u2 := mul_le_mul hcn.2 hten (by positivity) hcoef
    have h2 : 0 < n * u1 := mul_pos hpos hu1
    linarith
  · exact h
  · exfalso
    have hten : (10 : ℚ) * 10^s.droppedScale width ≤ 10^s.worked width := by
      rw [← zpow_one_add₀ (by norm_num)]
      exact zpow_le_zpow_right₀ (by norm_num) (by omega)
    generalize (10 : ℚ)^s.worked width = u1 at *
    generalize (10 : ℚ)^s.droppedScale width = u2 at *
    have h1 : n * (10 * u2) ≤ n * u1 := mul_le_mul_of_nonneg_left hten hpos.le
    have h2 : c * u2 ≤ 11 / 10 * n * u2 := mul_le_mul_of_nonneg_right hcn.1 hu2.le
    have h3 : 0 < n * u2 := mul_pos hpos hu2
    linarith

/-- A magnitude of the format has no digits past the precision. -/
theorem mod_eq_zero_of_holds (h0 : s.coefficient ≠ 0) (h : width.grid.Holds s.magnitude) :
    s.coefficient % 10^s.dropped width = 0 := by
  rcases Nat.eq_zero_or_pos (s.dropped width) with hd | hd
  · rw [hd, pow_zero, Nat.mod_one]
  obtain ⟨m, r, hm, -, -, heq⟩ := h
  have hlen : s.significant.length = width.digits + s.dropped width := by
    unfold Spelling.dropped at hd ⊢
    omega
  have hlow := s.pow_le_coefficient h0
  have hd7 := width.digits_bounds.1
  rw [Width.grid_top] at hm
  rw [Width.grid_unit] at heq
  unfold Spelling.magnitude at heq
  -- The power of the magnitude is so high that it drops the digits by itself.
  have hr : s.scale + s.dropped width ≤ r := by
    by_contra hlt
    have h1 : (s.coefficient : ℚ) * 10^s.scale < 10^width.digits * 10^r := by
      rw [heq]
      have : (m : ℚ) < 10^width.digits := by exact_mod_cast hm
      exact mul_lt_mul_of_pos_right this (by positivity)
    have h2 : (10 : ℚ)^width.digits * 10^r ≤ 10^(s.significant.length - 1) * 10^s.scale := by
      rw [← zpow_natCast, ← zpow_natCast, ← zpow_add₀ (by norm_num), ← zpow_add₀ (by norm_num)]
      exact zpow_le_zpow_right₀ (by norm_num) (by omega)
    have h3 : (10 : ℚ)^(s.significant.length - 1) * 10^s.scale ≤ s.coefficient * 10^s.scale := by
      refine mul_le_mul_of_nonneg_right ?_ (by positivity)
      exact_mod_cast hlow
    linarith
  obtain ⟨j, rfl⟩ : ∃ j : ℕ, r = s.scale + s.dropped width + j :=
    ⟨(r - s.scale - s.dropped width).toNat, by omega⟩
  have hnat : s.coefficient = m * 10^j * 10^s.dropped width := by
    have hu : (0 : ℚ) < 10^s.scale := by positivity
    have : (s.coefficient : ℚ) * 10^s.scale = (m * 10^j * 10^s.dropped width : ℕ) * 10^s.scale := by
      rw [heq, zpow_add₀ (by norm_num), zpow_add₀ (by norm_num), zpow_natCast, zpow_natCast]
      push_cast
      ring
    exact_mod_cast mul_right_cancel₀ hu.ne' this
  rw [hnat, Nat.mul_mod_left]

end Exact

/-! ## The condition -/

section Condition

variable (s : Spelling) (width : Width)

/-- A zero is read as a zero, at the nearest exponent in range to the one that was cut. -/
theorem correct_zero_iff (h0 : s.coefficient = 0) :
    (∃ bits st, assemble s.negative s.significant (s.clamped width) width = some (bits, st) ∧
      s.Correct width bits st) ↔
      (width.minExponent ≤ s.scale → s.scale ≤ width.maxExponent →
        max width.minExponent (min width.maxExponent (s.clamped width)) = s.scale) := by
  obtain ⟨bits, hfit, hdecode⟩ := fit_zero s.negative (s.clamped width) width .NONE
  have hassemble : assemble s.negative s.significant (s.clamped width) width =
      some (bits, .NONE) := by
    rw [s.coefficient_eq_zero_iff.1 h0]
    exact hfit
  have hx : s.magnitude = 0 := by
    rw [Spelling.magnitude, h0]
    simp
  have hm : (decode bits width).magnitude = some 0 := by
    rw [hdecode]
    simp [Decoded.magnitude]
  rw [hassemble]
  constructor
  · rintro ⟨bits', st, heq, hcorrect⟩ hlo hhi
    rw [Option.some.injEq, Prod.mk.injEq] at heq
    have hkeeps := hcorrect.keeps (by rw [h0]; exact Nat.zero_le _) hlo hhi
    rw [← heq.1, hdecode, h0, Decoded.finite.injEq] at hkeeps
    exact hkeeps.2.2
  · intro hexp
    refine ⟨bits, .NONE, rfl, by rw [hdecode]; rfl, ?_, ?_, ?_⟩
    · rw [hm, hx]
      exact width.grid.rounds_self width.grid.holds_zero
    · rw [hm, hx]
      simp
    · intro _ hlo hhi
      rw [hdecode, h0, hexp hlo hhi]

/-- A number that keeps its exponent, with the precision and the exponent in range, is kept as it
is. -/
theorem keeps_of_worked {bits : ℕ} {st : Status} (h0 : s.coefficient ≠ 0)
    (hw : s.worked width = s.droppedScale width)
    (hassemble : assemble s.negative s.significant (s.clamped width) width = some (bits, st))
    (hc : s.coefficient ≤ width.maxCoefficient) (hlo : width.minExponent ≤ s.scale)
    (hhi : s.scale ≤ width.maxExponent) :
    decode bits width = .finite s.negative s.coefficient s.scale := by
  have hmax := width.maxCoefficient_succ
  have hshort : ¬ width.digits < s.significant.length := by
    intro h
    have h1 := s.pow_le_coefficient h0
    have h2 : 10^width.digits ≤ 10^(s.significant.length - 1) :=
      Nat.pow_le_pow_right (by norm_num) (by omega)
    omega
  have hd : s.dropped width = 0 := by
    unfold Spelling.dropped
    omega
  have hb := width.exponent_bounds
  have hclamped : s.clamped width = s.scale := by
    unfold Spelling.worked Spelling.droppedScale limit at hw
    rw [hd] at hw
    push_cast at hw
    omega
  obtain ⟨bits', hfit, hdecode⟩ := fit_keeps s.negative .NONE hc hlo hhi
  rw [assemble, if_neg hshort, s.value_significant, hclamped, hfit, Option.some.injEq,
    Prod.mk.injEq] at hassemble
  rw [← hassemble.1]
  exact hdecode

/-- A magnitude in range neither overflows nor underflows. -/
theorem in_range {r : Option ℚ} (h0 : s.coefficient ≠ 0) (hc : s.coefficient ≤ width.maxCoefficient)
    (hlo : width.minExponent ≤ s.scale) (hhi : s.scale ≤ width.maxExponent)
    (hx : width.grid.Rounds s.magnitude r) (hr : r = none ∨ r = some 0) : False := by
  have hmax := width.maxCoefficient_succ
  have hheld : width.grid.Holds s.magnitude := by
    refine ⟨s.coefficient, s.scale, ?_, hlo, hhi, by simp [Spelling.magnitude]⟩
    rw [Width.grid_top]
    omega
  have hpos : 0 < s.magnitude := by
    have : (0 : ℚ) < s.coefficient := by exact_mod_cast Nat.pos_of_ne_zero h0
    unfold Spelling.magnitude
    positivity
  have hself := width.grid.rounds_unique hpos.le hx (width.grid.rounds_self hheld)
  rcases hr with rfl | rfl
  · cases hself
  · rw [Option.some.injEq] at hself
    linarith

/-- A number that is not zero is read right exactly when it keeps its exponent and comes to no wrong
side of a tie, or overflows, or underflows to zero. -/
theorem correct_iff (h0 : s.coefficient ≠ 0) :
    (∃ bits st, assemble s.negative s.significant (s.clamped width) width = some (bits, st) ∧
      s.Correct width bits st) ↔
      (s.worked width = s.droppedScale width ∧
        ¬ DoublyRounded ((s.coefficient : ℚ) / 10^s.dropped width)
          (10^(width.minExponent - s.droppedScale width).toNat)) ∨
      (width.grid.limit ≤ s.magnitude ∧ width.grid.limit ≤ s.workedMagnitude width) ∨
      (s.magnitude ≤ width.grid.unit width.minExponent / 2 ∧
        s.workedMagnitude width ≤ width.grid.unit width.minExponent / 2) := by
  obtain ⟨bits, st, status, hassemble, hfitted, hstatus⟩ := assemble_spec s width h0
  have hrounds := hfitted.rounds
  have hx0 : 0 < s.magnitude := by
    have : (0 : ℚ) < s.coefficient := by exact_mod_cast Nat.pos_of_ne_zero h0
    unfold Spelling.magnitude
    positivity
  have hy0 : 0 < s.workedMagnitude width := by
    have : (0 : ℚ) < s.rounded width := by exact_mod_cast s.rounded_pos width h0
    unfold Spelling.workedMagnitude
    positivity
  constructor
  · rintro ⟨bits', st', heq, hcorrect⟩
    rw [hassemble, Option.some.injEq, Prod.mk.injEq] at heq
    obtain ⟨rfl, rfl⟩ := heq
    have hx := hcorrect.rounds
    generalize (decode bits width).magnitude = r at *
    cases r with
    | none => exact Or.inr (Or.inl ⟨hx, hrounds⟩)
    | some v =>
      rcases eq_or_ne v 0 with rfl | hv0
      · exact Or.inr (Or.inr ⟨(width.grid.rounds_zero_iff hx0.le).1 hx,
          (width.grid.rounds_zero_iff hy0.le).1 hrounds⟩)
      · have hw := worked_eq_of_rounds s width h0 hv0 hx hrounds
        exact Or.inl ⟨hw, (rounds_worked_iff s width h0 hw hrounds).1 hx⟩
  · intro hcond
    refine ⟨bits, st, hassemble, hfitted.sign, ?_, ?_, ?_⟩
    · rcases hcond with ⟨hw, hnot⟩ | ⟨hx, hy⟩ | ⟨hx, hy⟩
      · exact (rounds_worked_iff s width h0 hw hrounds).2 hnot
      · have hnone : width.grid.Rounds (s.workedMagnitude width) none := hy
        rw [width.grid.rounds_unique hy0.le hrounds hnone]
        exact hx
      · rw [width.grid.rounds_unique hy0.le hrounds ((width.grid.rounds_zero_iff hy0.le).2 hy)]
        exact (width.grid.rounds_zero_iff hx0.le).2 hx
    · rw [hfitted.status, hstatus]
      rcases hcond with ⟨hw, hnot⟩ | ⟨hx, hy⟩ | ⟨hx, hy⟩
      · -- With the exponent kept, the value changed when digits were dropped or `fit` changed it.
        by_cases hmod : s.coefficient % 10^s.dropped width = 0
        · have hsame : s.workedMagnitude width = s.magnitude := by
            obtain ⟨n, hn⟩ := Nat.dvd_of_mod_eq_zero hmod
            have hdiv : (s.coefficient : ℚ) / 10^s.dropped width = n := by
              rw [hn]
              push_cast
              field_simp
            rw [s.magnitude_eq width, Spelling.workedMagnitude, Spelling.rounded, hdiv,
              rne_natCast, hw]
          rw [hsame]
          simp [hmod]
        · have hne : (decode bits width).magnitude ≠ some s.magnitude := by
            intro h
            have hx := (rounds_worked_iff s width h0 hw hrounds).2 hnot
            rw [h] at hx
            exact hmod (mod_eq_zero_of_holds s width h0 hx.2.1)
          exact iff_of_true (Or.inl hmod) hne
      · have hnone : width.grid.Rounds (s.workedMagnitude width) none := hy
        rw [width.grid.rounds_unique hy0.le hrounds hnone]
        simp
      · rw [width.grid.rounds_unique hy0.le hrounds ((width.grid.rounds_zero_iff hy0.le).2 hy)]
        simp [hx0.ne, hy0.ne]
    · intro hc hlo hhi
      rcases hcond with ⟨hw, -⟩ | ⟨hx, hy⟩ | ⟨hx, hy⟩
      · exact keeps_of_worked s width h0 hw hassemble hc hlo hhi
      · exact (in_range s width (r := none) h0 hc hlo hhi hx (Or.inl rfl)).elim
      · exact (in_range s width h0 hc hlo hhi ((width.grid.rounds_zero_iff hx0.le).2 hx)
          (Or.inr rfl)).elim

end Condition

/-- The parser accepts exactly the spellings, and reads a spelling right exactly when the spelling
meets the condition. -/
theorem parse_correct_iff (width : Width) :
    (∀ text, (∀ e, parse text width ≠ some (.error e)) ↔ ∃ s : Spelling, s.text = text) ∧
      ∀ s : Spelling, (∃ bits st, parse s.text width = some (.ok (bits, st)) ∧
        s.Correct width bits st) ↔ s.ReadsRight width := by
  refine ⟨fun text => accepts_iff text width, fun s => ?_⟩
  have hparse : (∃ bits st, parse s.text width = some (.ok (bits, st)) ∧
      s.Correct width bits st) ↔ Fits 64 (s.cutWritten - s.fraction.length) ∧
      ∃ bits st, assemble s.negative s.significant (s.clamped width) width = some (bits, st) ∧
        s.Correct width bits st := by
    rw [parse_text]
    by_cases hfits : Fits 64 (s.cutWritten - s.fraction.length)
    · simp [checked_of_fits hfits, hfits]
    · simp [checked_of_not_fits hfits, hfits]
  rw [hparse, Spelling.ReadsRight]
  refine and_congr_right fun _ => ?_
  split_ifs with h0
  · exact correct_zero_iff s width h0
  · exact correct_iff s width h0

/-- A spelling whose digits past the precision are behind a tie at the least exponent of `_Decimal32`:
a little more than half of the smallest number. -/
def pastTie : Spelling where
  sign := none
  whole := [5]
  point := true
  fraction := [0, 0, 0, 0, 0, 0, 1]
  exponent := some ⟨false, some true, [1, 0, 2], by simp [Digits.Decimal], by simp⟩
  decimal := by simp [Digits.Decimal]
  nonempty := by simp
  pointed := by simp

/-- That spelling is `5.0000001e-102`, and it is read as zero. -/
theorem parse_pastTie : pastTie.text = "5.0000001e-102".toList ∧
    (parse pastTie.text .d32).map (Except.map Prod.fst) = some (.ok 0) := by
  constructor
  · decide
  · decide

/-- Not every spelling is read right. -/
theorem not_parse_correct : ¬ ∀ (width : Width) (s : Spelling), ∃ bits st,
    parse s.text width = some (.ok (bits, st)) ∧ s.Correct width bits st := by
  intro h
  obtain ⟨bits, st, hparse, hcorrect⟩ := h .d32 pastTie
  have hbits := parse_pastTie.2
  rw [hparse] at hbits
  obtain rfl : bits = 0 := by simpa [Except.map] using hbits
  have hx : pastTie.magnitude = 50000001 * 10^(-109 : ℤ) := by
    have hscale : pastTie.scale = -109 := by decide
    have hcoefficient : pastTie.coefficient = 50000001 := by decide
    rw [Spelling.magnitude, hscale, hcoefficient]
    norm_num
  have hm : (decode 0 .d32).magnitude = some 0 := by
    have : decode 0 .d32 = .finite false 0 (-101) := by decide
    rw [this]
    simp [Decoded.magnitude]
  have hrounds := hcorrect.rounds
  rw [hm, hx] at hrounds
  refine Width.d32.grid.not_rounds_zero ?_ hrounds
  rw [Width.grid_unit]
  have hleast : Width.d32.grid.least = -109 + 8 := rfl
  have hu : (0 : ℚ) < 10^(-109 : ℤ) := by positivity
  rw [hleast, zpow_add₀ (by norm_num)]
  generalize (10 : ℚ)^(-109 : ℤ) = u at *
  norm_num
  linarith

end Rucc.Base.Dfp
