import Rucc.Base.Arith

/-!
# The operations round correctly

Each operation on finite numbers reaches `round` with a significand and an exponent that keep the
exact answer (`Kept`): a sum by lining the smaller number up behind the larger, a product by cutting
the 256-bit product to its leading word, and a quotient by dividing two bits further than the
precision. `round_spec` then rounds that answer, and `Operation.correctlyRounded_iff` puts the four
operations together.
-/

namespace Rucc.Base

open Rounding Checked

variable {x : ℚ} {e : ℤ} {s n : ℕ} {sticky : Bool} {f : Format}

/-! ## What a step keeps of a magnitude -/

/-- Shifting a significand down keeps its magnitude, with a sticky bit for what fell off. -/
theorem Kept.shiftRight (n d : ℕ) (e : ℤ) : Kept (n * 2^e) (n / 2^d) (e + d) (decide (n % 2^d ≠ 0)) := by
  have hu : (0 : ℚ) < 2^e := by positivity
  have h2 : (2 : ℚ)^(e + d) = 2^d * 2^e := by
    rw [add_comm, zpow_add₀ (by norm_num), zpow_natCast]
  have hdm : (n : ℚ) = 2^d * (n / 2^d : ℕ) + (n % 2^d : ℕ) := by
    exact_mod_cast (Nat.div_add_mod n (2^d)).symm
  have hlt : ((n % 2^d : ℕ) : ℚ) < 2^d := by exact_mod_cast Nat.mod_lt n (Nat.two_pow_pos d)
  have h0 : (0 : ℚ) ≤ (n % 2^d : ℕ) := Nat.cast_nonneg _
  refine ⟨?_, ?_, ?_⟩
  · rw [h2, ← mul_assoc]
    exact mul_le_mul_of_nonneg_right (by linarith) hu.le
  · rw [h2, ← mul_assoc]
    exact mul_lt_mul_of_pos_right (by linarith) hu
  · rw [h2, decide_eq_true_iff, ← mul_assoc, mul_lt_mul_iff_left₀ hu]
    constructor
    · intro h
      have : (0 : ℚ) < (n % 2^d : ℕ) := by exact_mod_cast Nat.pos_of_ne_zero h
      linarith
    · intro h h'
      rw [h'] at hdm
      push_cast at hdm h
      linarith

/-- A magnitude below one unit is kept by a sticky bit alone. -/
theorem Kept.of_lt (h0 : 0 < x) (h1 : x < 2^e) : Kept x 0 e true where
  le := by simpa using h0.le
  lt := by simpa using h1
  sticky_iff := by simpa using h0

/-- Adding whole units to what is kept of a magnitude. -/
theorem Kept.add (h : Kept x s e sticky) (n : ℕ) : Kept (n * 2^e + x) (n + s) e sticky where
  le := by
    have := h.le
    push_cast
    linarith
  lt := by
    have := h.lt
    push_cast
    linarith
  sticky_iff := by
    rw [h.sticky_iff]
    push_cast
    constructor <;> intro h' <;> linarith

/-- Taking what is kept of a magnitude from whole units: what was dropped takes one more unit, and
leaves the rest of it. -/
theorem Kept.sub (h : Kept x s e sticky)
    (hn : s + sticky.toNat ≤ n) : Kept (n * 2^e - x) (n - (s + sticky.toNat)) e sticky := by
  have hu : (0 : ℚ) < 2^e := by positivity
  have hle := h.le
  have hlt := h.lt
  have hst := h.sticky_iff
  have hcast : ((n - (s + sticky.toNat) : ℕ) : ℚ) = n - s - (sticky.toNat : ℕ) := by
    rw [Nat.cast_sub hn]
    push_cast
    ring
  constructor
  all_goals rw [hcast]
  · cases sticky
    · have : ¬ (s : ℚ) * 2^e < x := mt hst.2 (by simp)
      simp only [Bool.toNat_false, Nat.cast_zero]
      linarith
    · simp only [Bool.toNat_true, Nat.cast_one]
      linarith
  · cases sticky
    · simp only [Bool.toNat_false, Nat.cast_zero]
      linarith
    · have := hst.1 rfl
      simp only [Bool.toNat_true, Nat.cast_one]
      linarith
  · cases sticky
    · have : ¬ (s : ℚ) * 2^e < x := mt hst.2 (by simp)
      simp only [Bool.toNat_false, Nat.cast_zero, Bool.false_eq_true, false_iff]
      linarith
    · simp only [Bool.toNat_true, Nat.cast_one, true_iff]
      linarith

namespace Float

/-! ## Finite numbers -/

/-- A canonical finite number of the format `f`. -/
structure IsFinite (f : Format) (x : Float) : Prop where
  format : x.format = f
  category : x.category = .finite
  pos : 0 < x.significand
  lt : x.significand < 2^f.precision
  least_le : f.leastScale ≤ x.scale
  le_most : x.scale ≤ f.mostScale
  full : x.scale = f.leastScale ∨ 2^(f.precision - 1) ≤ x.significand

/-- A canonical number in the finite category is one. -/
theorem Canonical.isFinite {x : Float} (h : x.Canonical) (hc : x.category = .finite) : IsFinite x.format x := by
  unfold Canonical at h
  rw [hc] at h
  obtain ⟨h1, h2, h3, h4, h5⟩ := h
  have hs : x.scale = x.exponent - x.format.precision + 1 := rfl
  have hl : x.format.leastScale = x.format.minExponent - x.format.precision + 1 := rfl
  have hm : x.format.mostScale = x.format.maxExponent - x.format.precision + 1 := rfl
  exact ⟨rfl, hc, h1, h2, by omega, by omega, h5.imp_left fun h => by omega⟩

namespace IsFinite

variable {f : Format} {x y : Float}

theorem canonical (h : IsFinite f x) : x.Canonical := by
  have hs : x.scale = x.exponent - x.format.precision + 1 := rfl
  have hl : f.leastScale = f.minExponent - f.precision + 1 := rfl
  have hm : f.mostScale = f.maxExponent - f.precision + 1 := rfl
  obtain ⟨hf, hc, h1, h2, h3, h4, h5⟩ := h
  unfold Canonical
  rw [hc]
  dsimp only
  rw [hf] at hs ⊢
  exact ⟨h1, h2, by omega, by omega, h5.imp_left fun h => by omega⟩

theorem magnitude_eq (h : IsFinite f x) : x.magnitude = some ((x.significand : ℚ) * 2^x.scale) := by
  unfold magnitude
  rw [h.category]

theorem magnitude_pos (h : IsFinite f x) : (0 : ℚ) < x.significand * 2^x.scale := by
  have : (0 : ℚ) < x.significand := by exact_mod_cast h.pos
  positivity

theorem value_eq (h : IsFinite f x) : x.value = some (signed x.sign (x.significand * 2^x.scale)) := by
  unfold value
  rw [h.magnitude_eq]
  rfl

theorem holds (h : IsFinite f x) : f.grid.Holds (x.significand * 2^x.scale) := by
  refine ⟨x.significand, x.scale, ?_, h.least_le, h.le_most, ?_⟩
  · simpa using h.lt
  · simp

/-- A number with a larger scale has the larger magnitude, since its significand is full. -/
theorem le_of_scale_lt (hx : IsFinite f x) (hy : IsFinite f y) (h : y.scale < x.scale) :
    (y.significand : ℚ) * 2^y.scale ≤ x.significand * 2^x.scale := by
  have hfull := hx.full.resolve_left (by have := hy.least_le; omega)
  have hy' : (y.significand : ℚ) ≤ 2^f.precision := by exact_mod_cast hy.lt.le
  have hx' : (2 : ℚ)^(f.precision - 1) ≤ x.significand := by exact_mod_cast hfull
  have hp := f.precision_bounds.1
  calc (y.significand : ℚ) * 2^y.scale
      ≤ 2^f.precision * 2^y.scale := mul_le_mul_of_nonneg_right hy' (by positivity)
    _ = 2^((f.precision : ℤ) + y.scale) := by rw [zpow_add₀ (by norm_num), zpow_natCast]
    _ ≤ 2^(((f.precision - 1 : ℕ) : ℤ) + x.scale) := zpow_le_zpow_right₀ (by norm_num) (by omega)
    _ = 2^(f.precision - 1) * 2^x.scale := by rw [zpow_add₀ (by norm_num), zpow_natCast]
    _ ≤ x.significand * 2^x.scale := mul_le_mul_of_nonneg_right hx' (by positivity)

/-- The comparison puts the number with the larger magnitude and the larger scale first. -/
theorem compareMagnitude_spec (hx : IsFinite f x) (hy : IsFinite f y) :
    (x.compareMagnitude y = .lt → x.scale ≤ y.scale ∧
      (x.significand : ℚ) * 2^x.scale ≤ y.significand * 2^y.scale) ∧
    (x.compareMagnitude y ≠ .lt → y.scale ≤ x.scale ∧
      (y.significand : ℚ) * 2^y.scale ≤ x.significand * 2^x.scale) := by
  have hcmp : x.compareMagnitude y =
      (compare x.exponent y.exponent).then (compare x.significand y.significand) := by
    unfold compareMagnitude
    rw [hx.category, hy.category]
  have hsx : x.scale = x.exponent - f.precision + 1 := by rw [scale, hx.format]
  have hsy : y.scale = y.exponent - f.precision + 1 := by rw [scale, hy.format]
  rw [hcmp]
  rcases lt_trichotomy x.exponent y.exponent with h | h | h
  · rw [compare_lt_iff_lt.2 h]
    have := hy.le_of_scale_lt hx (by omega)
    exact ⟨fun _ => ⟨by omega, this⟩, fun h' => absurd rfl h'⟩
  · rw [compare_eq_iff_eq.2 h]
    have hscale : x.scale = y.scale := by omega
    rw [hscale, Ordering.eq_then]
    have hu : (0 : ℚ) ≤ 2^y.scale := by positivity
    constructor
    · intro h'
      have : (x.significand : ℚ) ≤ y.significand := by
        exact_mod_cast (compare_lt_iff_lt.1 h').le
      exact ⟨le_rfl, mul_le_mul_of_nonneg_right this hu⟩
    · intro h'
      have : (y.significand : ℚ) ≤ x.significand := by
        exact_mod_cast not_lt.1 (mt compare_lt_iff_lt.2 h')
      exact ⟨le_rfl, mul_le_mul_of_nonneg_right this hu⟩
  · rw [compare_gt_iff_gt.2 h]
    have := hx.le_of_scale_lt hy (by omega)
    exact ⟨fun h' => by simp at h', fun _ => ⟨by omega, this⟩⟩

end IsFinite

end Float

/-! ## Correctly rounded answers -/

/-- What IEEE 754 asks of an operation whose exact answer is `exact`: the nearest number of the
format with ties to even, with the sign of the exact answer or `zeroSign` where that is zero, and
reported as inexact exactly when it differs from the exact answer. -/
structure CorrectlyRounded (f : Format) (exact : ℚ) (zeroSign : Bool) (r : Float) (st : Status) :
    Prop extends IsNumber f (if exact = 0 then zeroSign else decide (exact < 0)) r where
  rounds : f.grid.Rounds |exact| r.magnitude
  status : st.has .INEXACT ↔ r.value ≠ some exact

/-- The sign of a product of signs and magnitudes, and of a quotient. -/
theorem Float.signed_mul (s t : Bool) (a b : ℚ) : signed s a * signed t b = signed (s != t) (a * b) := by
  cases s <;> cases t <;> simp

theorem Float.signed_div (s t : Bool) (a b : ℚ) : signed s a / signed t b = signed (s != t) (a / b) := by
  cases s <;> cases t <;> simp [neg_div, div_neg]

/-- A correctly rounded magnitude with the sign of the exact answer is a correctly rounded
answer. -/
theorem Rounded.correctly {sign : Bool} {r : Float} {st : Status}
    (h : Rounded f x sign r st) (zeroSign : Bool) (hx : 0 ≤ x)
    (hzero : x = 0 → sign = zeroSign) :
    CorrectlyRounded f (Float.signed sign x) zeroSign r st := by
  have habs : |Float.signed sign x| = x := by
    cases sign <;> simp [abs_of_nonneg hx]
  have hsign : (if Float.signed sign x = 0 then zeroSign else decide (Float.signed sign x < 0)) =
      sign := by
    rcases hx.eq_or_lt with rfl | hpos
    · simp [hzero]
    · cases sign
      · simp [hpos.ne', hpos.not_gt]
      · simp [hpos.ne', hpos]
  refine ⟨?_, ?_, ?_⟩
  · rw [hsign]
    exact h.toIsNumber
  · rw [habs]
    exact h.rounds
  · rw [h.status, Float.value, h.sign, not_iff_not]
    cases hm : r.magnitude with
    | none => simp
    | some v => cases sign <;> simp

/-! ## Sums -/

section Sums

variable {f : Format} {big small : Float}

/-- What lining up keeps of the smaller number, in units of the larger one's guard bits. Bits fall
off only past the guard, and then what is left is half as long at most. -/
theorem lineUp_spec {s d : ℕ} (q : ℤ) (hs : 0 < s) (hlt : s < 2^f.precision) :
    Kept (s * 2^q) (Float.lineUp s d).1 (q + d - GUARD) (Float.lineUp s d).2 ∧
      (Float.lineUp s d).1 < 2^(f.precision + 3) ∧
      ((Float.lineUp s d).2 = true → 3 < d ∧ (Float.lineUp s d).1 < 2^(f.precision - 1)) := by
  obtain ⟨hp8, hp113⟩ := f.precision_bounds
  have hG : GUARD = 3 := rfl
  have hhalf : 2^f.precision = 2 * 2^(f.precision - 1) := by
    rw [← pow_succ']
    congr 1
    omega
  unfold Float.lineUp
  rw [hG]
  split_ifs with h h'
  · obtain ⟨k, hk⟩ : ∃ k, 3 - d = k := ⟨_, rfl⟩
    have hq : q + d - (3 : ℕ) = q - k := by omega
    have hx : (s : ℚ) * 2^q = (s * 2^k : ℕ) * 2^(q - k) := by
      rw [zpow_sub₀ (by norm_num), zpow_natCast]
      push_cast
      field_simp
    refine ⟨?_, ?_, by simp⟩
    · rw [hk, hq, hx, Nat.shiftLeft_eq]
      exact Kept.exact _ _
    · rw [hk, Nat.shiftLeft_eq, pow_add]
      exact Nat.mul_lt_mul_of_lt_of_le hlt (Nat.pow_le_pow_right (by norm_num) (by omega))
        (Nat.two_pow_pos _)
  · refine ⟨Kept.of_lt ?_ ?_, Nat.two_pow_pos _, fun _ => ⟨by omega, Nat.two_pow_pos _⟩⟩
    · have : (0 : ℚ) < s := by exact_mod_cast hs
      positivity
    · have hs' : (s : ℚ) < 2^f.precision := by exact_mod_cast hlt
      calc (s : ℚ) * 2^q < 2^f.precision * 2^q := mul_lt_mul_of_pos_right hs' (by positivity)
        _ = 2^((f.precision : ℤ) + q) := by rw [zpow_add₀ (by norm_num), zpow_natCast]
        _ ≤ 2^(q + d - (3 : ℕ)) := zpow_le_zpow_right₀ (by norm_num) (by omega)
  · obtain ⟨k, hk⟩ : ∃ k, d - 3 = k + 1 := ⟨d - 4, by omega⟩
    have hq : q + d - (3 : ℕ) = q + (k + 1 : ℕ) := by omega
    have hle : s / 2^(k + 1) ≤ s / 2 := Nat.div_le_div_left (by
      rw [pow_succ']
      have := Nat.two_pow_pos k
      omega) (by norm_num)
    have hp3 : 2^f.precision ≤ 2^(f.precision + 3) :=
      Nat.pow_le_pow_right (by norm_num) (by omega)
    have hmask : s &&& ((1 <<< (k + 1)) - 1) = s % 2^(k + 1) := by
      rw [Nat.shiftLeft_eq, one_mul, Nat.and_two_pow_sub_one_eq_mod]
    dsimp only
    rw [hk, hq, hmask, Nat.shiftRight_eq_div_pow]
    exact ⟨Kept.shiftRight s (k + 1) q, by omega, fun _ => ⟨by omega, by omega⟩⟩

/-- A kept sum is rounded: it is too short for its half to be lost, and its exponents are those of
the format. -/
theorem round_sum {x : ℚ} {n : ℕ} {q : ℤ} {sticky : Bool} (sign : Bool)
    (hk : Kept x n (q - GUARD) sticky) (hn : n < 2^(f.precision + 4))
    (hlong : sticky = true → 2^f.precision ≤ n) (hlo : f.leastScale ≤ q) (hhi : q ≤ f.mostScale) :
    ∃ r st, round n (q - GUARD) sticky sign f = some (r, st) ∧ Rounded f x sign r st := by
  obtain ⟨hp8, hp113⟩ := f.precision_bounds
  obtain ⟨hm15, hm⟩ := f.maxExponent_bounds
  obtain ⟨hl1, hl2⟩ := f.leastScale_bounds
  have hG : GUARD = 3 := rfl
  have hmost : f.mostScale = f.maxExponent - f.precision + 1 := rfl
  have h128 : n < 2^128 :=
    lt_of_lt_of_le hn (Nat.pow_le_pow_right (by norm_num) (by omega))
  have hsize := size_le_of_lt h128
  rw [hG] at hk ⊢
  refine round_spec sign hk h128 hlong ?_ ?_ ?_ (Or.inl ?_) ?_
  · unfold Fits; omega
  · unfold Fits; omega
  · unfold Fits; omega
  · unfold Fits; omega
  · rintro ⟨h, -⟩
    omega

/-- The sum of two finite numbers lined up. -/
theorem totalOrdered_spec (hb : Float.IsFinite f big) (hs : Float.IsFinite f small)
    (hscale : small.scale ≤ big.scale)
    (hle : (small.significand : ℚ) * 2^small.scale ≤ big.significand * 2^big.scale) :
    ∃ r st, Float.totalOrdered big small f = some (r, st) ∧
      CorrectlyRounded f (Float.signed big.sign (big.significand * 2^big.scale) +
        Float.signed small.sign (small.significand * 2^small.scale)) (big.sign && small.sign)
        r st := by
  obtain ⟨hp8, hp113⟩ := f.precision_bounds
  have hG : GUARD = 3 := rfl
  obtain ⟨d, hd⟩ : ∃ d : ℕ, (big.scale - small.scale).toNat = d := ⟨_, rfl⟩
  have hq : small.scale + d - GUARD = big.scale - GUARD := by omega
  obtain ⟨hkept, hright, hsticky⟩ := lineUp_spec (f := f) (d := d) small.scale hs.pos hs.lt
  rw [hq] at hkept
  have hleft : (big.significand : ℚ) * 2^big.scale =
      (big.significand <<< GUARD : ℕ) * 2^(big.scale - GUARD) := by
    rw [hG, zpow_sub₀ (by norm_num), zpow_natCast, Nat.shiftLeft_eq]
    push_cast
    field_simp
    norm_num
  have hleftLt : big.significand <<< GUARD < 2^(f.precision + 3) := by
    rw [hG, Nat.shiftLeft_eq, pow_add]
    exact Nat.mul_lt_mul_of_pos_right hb.lt (by norm_num)
  have hparts : Float.totalOrdered big small f =
      if big.sign = small.sign then
        round (big.significand <<< GUARD + (Float.lineUp small.significand d).1)
          (big.scale - GUARD) (Float.lineUp small.significand d).2 big.sign f
      else if big.significand <<< GUARD = (Float.lineUp small.significand d).1 +
          (Float.lineUp small.significand d).2.toNat then some (Float.zero f false, .NONE)
      else (checkedSub (big.significand <<< GUARD) ((Float.lineUp small.significand d).1 +
          (Float.lineUp small.significand d).2.toNat)).bind fun n =>
        round n (big.scale - GUARD) (Float.lineUp small.significand d).2 big.sign f := by
    rw [← hd]
    rfl
  rw [hparts]
  generalize (Float.lineUp small.significand d).1 = right at *
  generalize (Float.lineUp small.significand d).2 = sticky at *
  -- Bits fall off only when the larger number is normal, which leaves its significand long.
  have hlongLeft : sticky = true → 2^(f.precision + 2) ≤ big.significand <<< GUARD := by
    intro h
    have hfull := hb.full.resolve_left (by
      have := hs.least_le
      have := (hsticky h).1
      omega)
    rw [hG, Nat.shiftLeft_eq]
    calc 2^(f.precision + 2) = 2^(f.precision - 1) * 2^3 := by
          rw [← pow_add]
          congr 1
          omega
      _ ≤ big.significand * 2^3 := Nat.mul_le_mul_right _ hfull
  generalize big.significand <<< GUARD = left at *
  have hpow4 : 2^(f.precision + 4) = 2 * 2^(f.precision + 3) := pow_succ' _ _
  have hpow3 : 2^(f.precision + 3) = 8 * 2^f.precision := by rw [pow_add]; ring
  have hpow2 : 2^(f.precision + 2) = 4 * 2^f.precision := by rw [pow_add]; ring
  have hpow1 : 2^f.precision = 2 * 2^(f.precision - 1) := by
    rw [← pow_succ']
    congr 1
    omega
  rw [hleft] at hle ⊢
  have hpos := hs.magnitude_pos
  generalize (small.significand : ℚ) * 2^small.scale = y at *
  by_cases hsign : big.sign = small.sign
  · rw [if_pos hsign]
    obtain ⟨r, st, hr, hround⟩ := round_sum big.sign (hkept.add left) (by omega)
      (fun h => by have := hlongLeft h; omega) hb.least_le hb.le_most
    refine ⟨r, st, hr, ?_⟩
    have hsum : Float.signed big.sign (left * 2^(big.scale - GUARD)) + Float.signed small.sign y =
        Float.signed big.sign (left * 2^(big.scale - GUARD) + y) := by
      rw [← hsign]
      cases big.sign
      · simp
      · simp only [Float.signed_true]
        ring
    rw [hsum]
    refine hround.correctly _ (by positivity) fun h => ?_
    have : (0 : ℚ) ≤ left * 2^(big.scale - GUARD) := by positivity
    linarith
  · rw [if_neg hsign]
    have hdiff : Float.signed big.sign (left * 2^(big.scale - GUARD)) +
        Float.signed small.sign y =
        Float.signed big.sign (left * 2^(big.scale - GUARD) - y) := by
      revert hsign
      cases big.sign <;> cases small.sign <;> intro h
      · exact absurd rfl h
      · simp only [Float.signed_true, Float.signed_false]
        ring
      · simp only [Float.signed_true, Float.signed_false]
        ring
      · exact absurd rfl h
    have hand : (big.sign && small.sign) = false := by
      revert hsign
      cases big.sign <;> cases small.sign <;> simp
    rw [hdiff, hand]
    have hu : (0 : ℚ) < 2^(big.scale - GUARD) := by positivity
    have hrl : right ≤ left := by
      have := le_trans hkept.le hle
      exact_mod_cast le_of_mul_le_mul_right this hu
    have hrs : right + sticky.toNat ≤ left := by
      cases sticky
      · simpa using hrl
      · have h1 := hlongLeft rfl
        have h2 := (hsticky rfl).2
        simp only [Bool.toNat_true]
        omega
    by_cases heq : left = right + sticky.toNat
    · -- Nothing is left, and a sticky bit would have left something.
      rw [if_pos heq]
      have hsf : sticky = false := by
        by_contra h
        have h' : sticky = true := by simpa using h
        have h1 := hlongLeft h'
        have h2 := (hsticky h').2
        rw [h'] at heq
        simp only [Bool.toNat_true] at heq
        omega
      have hy : (left : ℚ) * 2^(big.scale - GUARD) - y = 0 := by
        have h1 := mt hkept.sticky_iff.2 (by simp [hsf])
        have h2 := hkept.le
        rw [heq, hsf]
        simp only [Bool.toNat_false, add_zero]
        linarith
      refine ⟨_, _, rfl, ?_⟩
      rw [hy]
      have hz : Rounded f 0 false (Float.zero f false) .NONE :=
        ⟨⟨rfl, rfl, by simp, by simp [Float.zero]⟩, f.grid.rounds_self f.grid.holds_zero, by
          simp⟩
      have := hz.correctly false le_rfl fun _ => rfl
      simpa using this
    · rw [if_neg heq, checkedSub_of_le hrs]
      obtain ⟨r, st, hr, hround⟩ := round_sum (f := f) big.sign (hkept.sub hrs) (by omega)
        (fun h => by
          have h1 := hlongLeft h
          have h2 := (hsticky h).2
          rw [h]
          simp only [Bool.toNat_true]
          omega) hb.least_le hb.le_most
      refine ⟨r, st, hr, hround.correctly _ (by linarith) fun h => ?_⟩
      -- The magnitudes are equal, so the lined up ones are and nothing was dropped.
      exfalso
      have hk := hkept.sub hrs
      rw [h] at hk
      have h1 := hk.le
      have h2 : (left - (right + sticky.toNat) : ℕ) ≠ 0 := by omega
      have h3 : (0 : ℚ) < (left - (right + sticky.toNat) : ℕ) := by
        exact_mod_cast Nat.pos_of_ne_zero h2
      have := mul_pos h3 hu
      linarith

/-- The sum of two finite numbers, whichever is the larger. -/
theorem totalFinite_spec {x y : Float} (hx : Float.IsFinite f x) (hy : Float.IsFinite f y) :
    ∃ r st, Float.totalFinite x y = some (r, st) ∧
      CorrectlyRounded f (Float.signed x.sign (x.significand * 2^x.scale) +
        Float.signed y.sign (y.significand * 2^y.scale)) (x.sign && y.sign) r st := by
  obtain ⟨hlt, hge⟩ := hx.compareMagnitude_spec hy
  unfold Float.totalFinite
  by_cases h : x.compareMagnitude y = .lt
  · obtain ⟨hscale, hle⟩ := hlt h
    rw [if_pos h, hx.format, add_comm, Bool.and_comm]
    exact totalOrdered_spec hy hx hscale hle
  · obtain ⟨hscale, hle⟩ := hge h
    rw [if_neg h, hx.format]
    exact totalOrdered_spec hx hy hscale hle

end Sums

/-! ## Products -/

/-- The half is lost exactly when the significand is a whole word long and the magnitude is between
half of the smallest subnormal number and all of it. -/
theorem losesHalf_iff {significand : ℕ} {exponent : ℤ}
    (hk : Kept x significand exponent sticky) (h128 : significand < 2^128) :
    LosesHalf f exponent x ↔ 2^127 ≤ significand ∧ f.grid.unit f.leastScale / 2 < x ∧
      x < f.grid.unit f.leastScale := by
  have hu : (0 : ℚ) < 2^exponent := by positivity
  have htop : x < 2^(exponent + 128) := by
    have hs : (significand : ℚ) + 1 ≤ 2^(128 : ℕ) := by exact_mod_cast h128
    calc x < (significand + 1) * 2^exponent := hk.lt
      _ ≤ 2^(128 : ℕ) * 2^exponent := mul_le_mul_of_nonneg_right hs hu.le
      _ = 2^(exponent + 128) := by
          rw [add_comm, zpow_add₀ (by norm_num)]
          rfl
  have hhalf : f.grid.unit f.leastScale / 2 = 2^(f.leastScale - 1) := by
    rw [Format.grid_unit, zpow_sub_one₀ (by norm_num)]
    rfl
  rw [LosesHalf, hhalf, Format.grid_unit]
  constructor
  · rintro ⟨hscale, hlo⟩
    refine ⟨?_, hlo, by rwa [hscale]⟩
    have h : (2 : ℚ)^(127 : ℕ) * 2^exponent < (significand + 1 : ℕ) * 2^exponent := by
      calc (2 : ℚ)^(127 : ℕ) * 2^exponent = 2^(exponent + 127) := by
            rw [add_comm exponent, zpow_add₀ (by norm_num)]
            rfl
        _ = 2^(f.leastScale - 1) := by
            congr 1
            omega
        _ < x := hlo
        _ < (significand + 1 : ℕ) * 2^exponent := by
            push_cast
            exact hk.lt
    have h' : (2^127 : ℕ) < significand + 1 := by
      exact_mod_cast lt_of_mul_lt_mul_right h hu.le
    omega
  · rintro ⟨hlong, hlo, hhi⟩
    refine ⟨?_, hlo⟩
    have hs : (2 : ℚ)^(127 : ℕ) ≤ significand := by exact_mod_cast hlong
    have hbot : (2 : ℚ)^(exponent + 127) ≤ x := by
      calc (2 : ℚ)^(exponent + 127) = 2^(127 : ℕ) * 2^exponent := by
            rw [add_comm exponent, zpow_add₀ (by norm_num)]
            rfl
        _ ≤ significand * 2^exponent := mul_le_mul_of_nonneg_right hs hu.le
        _ ≤ x := hk.le
    have h1 := (zpow_lt_zpow_iff_right₀ (by norm_num : (1 : ℚ) < 2)).1 (lt_of_le_of_lt hbot hhi)
    have h2 := (zpow_lt_zpow_iff_right₀ (by norm_num : (1 : ℚ) < 2)).1 (lt_trans hlo htop)
    omega

/-- The significand and the exponent that `product` rounds, and whether something nonzero was cut
off below them. -/
def leadingWord (left right : ℕ) (exponent : ℤ) : ℕ × ℤ × Bool :=
  let (high, low) := wideMultiply left right
  if high = 0 then (low, exponent, false)
  else
    let drop := 128 - leadingZeros high
    ((high <<< (128 - drop)) % 2^128 ||| (low >>> drop), exponent + drop,
      decide (low &&& ((1 <<< drop) - 1) ≠ 0))

/-- The leading word keeps the product, and is full when it is not all of it. -/
theorem leadingWord_spec {left right : ℕ} (exponent : ℤ) (hl : left < 2^113) (hr : right < 2^113) :
    Kept ((left * right : ℕ) * 2^exponent) (leadingWord left right exponent).1
        (leadingWord left right exponent).2.1 (leadingWord left right exponent).2.2 ∧
      (leadingWord left right exponent).1 < 2^128 ∧
      (2^127 ≤ (leadingWord left right exponent).1 ↔ 2^127 ≤ left * right) ∧
      ((leadingWord left right exponent).2.2 = true →
        2^127 ≤ (leadingWord left right exponent).1) ∧
      exponent ≤ (leadingWord left right exponent).2.1 ∧
      (leadingWord left right exponent).2.1 ≤ exponent + 128 := by
  obtain ⟨hprod, hlow⟩ := wideMultiply_spec (lt_trans hl (by norm_num) : left < 2^128)
    (lt_trans hr (by norm_num) : right < 2^128)
  have hlt : left * right < 2^113 * 2^113 := Nat.mul_lt_mul'' hl hr
  unfold leadingWord
  generalize left * right = n at *
  generalize wideMultiply left right = halves at *
  obtain ⟨high, low⟩ := halves
  dsimp only at *
  have hhigh : high < 2^128 := by omega
  by_cases h0 : high = 0
  · subst h0
    rw [if_pos rfl]
    have hn : low = n := by omega
    subst hn
    exact ⟨Kept.exact _ _, hlow, Iff.rfl, by simp, le_rfl, by dsimp only; omega⟩
  · rw [if_neg h0]
    obtain ⟨d, hd⟩ : ∃ d, 128 - leadingZeros high = d := ⟨_, rfl⟩
    have hsize := size_le_of_lt hhigh
    have hds : d = high.size := by
      unfold leadingZeros at hd
      omega
    have hd0 : 0 < d := by
      rw [hds]
      exact Nat.size_pos.2 (by omega)
    have hhd : high < 2^d := by
      rw [hds]
      exact Nat.lt_size_self _
    have hhd' : 2^(d - 1) ≤ high := by
      rw [hds]
      exact two_pow_size_le (by omega)
    have h128 : 2^128 = 2^(128 - d) * 2^d := by
      rw [← pow_add]
      congr 1
      omega
    have h127 : 2^127 = 2^(d - 1) * 2^(128 - d) := by
      rw [← pow_add]
      congr 1
      omega
    -- The leading word is the product shifted down by the bits the high half has.
    have hword : high * 2^(128 - d) < 2^128 := by
      rw [h128, mul_comm (2^(128 - d))]
      exact Nat.mul_lt_mul_of_pos_right hhd (Nat.two_pow_pos _)
    have hlowd : low / 2^d < 2^(128 - d) := by
      rw [Nat.div_lt_iff_lt_mul (Nat.two_pow_pos _), ← h128]
      exact hlow
    have hsig : (high <<< (128 - d)) % 2^128 ||| (low >>> d) = n / 2^d := by
      rw [Nat.shiftLeft_eq, Nat.mod_eq_of_lt hword, ← Nat.shiftLeft_eq, Nat.shiftRight_eq_div_pow,
        ← Nat.shiftLeft_add_eq_or_of_lt hlowd, Nat.shiftLeft_eq, ← hprod, h128, ← mul_assoc,
        mul_comm _ (2^d), Nat.mul_add_div (Nat.two_pow_pos _)]
    have hmod : low &&& ((1 <<< d) - 1) = n % 2^d := by
      rw [Nat.shiftLeft_eq, one_mul, Nat.and_two_pow_sub_one_eq_mod, ← hprod, h128, ← mul_assoc,
        Nat.mul_add_mod']
    have hfull : 2^127 ≤ n / 2^d := by
      rw [Nat.le_div_iff_mul_le (Nat.two_pow_pos _), h127, mul_assoc, ← h128]
      have := Nat.mul_le_mul_right (2^128) hhd'
      omega
    have hshort : n / 2^d < 2^128 := by
      rw [Nat.div_lt_iff_lt_mul (Nat.two_pow_pos _), ← hprod]
      calc high * 2^128 + low < (high + 1) * 2^128 := by
            rw [add_mul, one_mul]
            exact Nat.add_lt_add_left hlow _
        _ ≤ 2^d * 2^128 := Nat.mul_le_mul_right _ hhd
        _ = 2^128 * 2^d := mul_comm _ _
    rw [hd, hsig, hmod]
    refine ⟨Kept.shiftRight n d exponent, hshort, ?_, fun _ => hfull, ?_, ?_⟩
    · have := Nat.div_le_self n (2^d)
      exact ⟨fun h => by omega, fun _ => hfull⟩
    · dsimp only
      omega
    · dsimp only
      omega

section Products

variable {f : Format} {x y : Float}

/-- A product of finite numbers is its leading word, rounded. -/
theorem product_finite (hx : Float.IsFinite f x) (hy : Float.IsFinite f y) : Float.product x y =
      round (leadingWord x.significand y.significand (x.scale + y.scale)).1
        (leadingWord x.significand y.significand (x.scale + y.scale)).2.1
        (leadingWord x.significand y.significand (x.scale + y.scale)).2.2 (x.sign != y.sign) f := by
  have hnan : Float.propagatedNan x y = none := by
    simp [Float.propagatedNan, Float.isNan, hx.category, hy.category]
  have hformat : x.format = y.format := hx.format.trans hy.format.symm
  simp only [Float.product, hformat, hy.format, hnan, hx.category, hy.category, guard, if_true,
    Float.parts, leadingWord, Float.scale, bind, pure, Option.bind]
  split_ifs <;> rfl

/-- The magnitudes whose product is lost: the product of the significands is a word long, and the
product is between half of the smallest subnormal number and all of it. -/
def LosesProduct (x y : Float) (v : ℚ) : Prop :=
  2^127 ≤ x.significand * y.significand ∧
    x.format.grid.unit x.format.leastScale / 2 < v ∧ v < x.format.grid.unit x.format.leastScale

/-- The leading word of a product of finite numbers. -/
theorem leadingWord_finite (hx : Float.IsFinite f x) (hy : Float.IsFinite f y) :
    Kept (x.significand * 2^x.scale * (y.significand * 2^y.scale))
        (leadingWord x.significand y.significand (x.scale + y.scale)).1
        (leadingWord x.significand y.significand (x.scale + y.scale)).2.1
        (leadingWord x.significand y.significand (x.scale + y.scale)).2.2 ∧
      (leadingWord x.significand y.significand (x.scale + y.scale)).1 < 2^128 ∧
      (2^127 ≤ (leadingWord x.significand y.significand (x.scale + y.scale)).1 ↔
        2^127 ≤ x.significand * y.significand) ∧
      ((leadingWord x.significand y.significand (x.scale + y.scale)).2.2 = true →
        2^127 ≤ (leadingWord x.significand y.significand (x.scale + y.scale)).1) ∧
      x.scale + y.scale ≤ (leadingWord x.significand y.significand (x.scale + y.scale)).2.1 ∧
      (leadingWord x.significand y.significand (x.scale + y.scale)).2.1 ≤
        x.scale + y.scale + 128 := by
  have hp := f.precision_bounds.2
  have hp113 : 2^f.precision ≤ 2^113 := Nat.pow_le_pow_right (by norm_num) hp
  have hexact : ((x.significand * y.significand : ℕ) : ℚ) * 2^(x.scale + y.scale) =
      x.significand * 2^x.scale * (y.significand * 2^y.scale) := by
    rw [zpow_add₀ (by norm_num)]
    push_cast
    ring
  rw [← hexact]
  exact leadingWord_spec _ (lt_of_lt_of_le hx.lt hp113) (lt_of_lt_of_le hy.lt hp113)

/-- What the leading word of a product of finite numbers loses. -/
theorem losesHalf_leadingWord (hx : Float.IsFinite f x) (hy : Float.IsFinite f y) :
    LosesHalf f (leadingWord x.significand y.significand (x.scale + y.scale)).2.1
        (x.significand * 2^x.scale * (y.significand * 2^y.scale)) ↔
      LosesProduct x y (x.significand * 2^x.scale * (y.significand * 2^y.scale)) := by
  obtain ⟨hk, h128, h127, -⟩ := leadingWord_finite hx hy
  rw [losesHalf_iff hk h128, h127, LosesProduct, hx.format]

/-- The product of two finite numbers is rounded correctly unless it is lost. -/
theorem product_finite_spec (hx : Float.IsFinite f x) (hy : Float.IsFinite f y)
    (hkept : ¬ LosesProduct x y (x.significand * 2^x.scale * (y.significand * 2^y.scale))) :
    ∃ r st, Float.product x y = some (r, st) ∧
      Rounded f (x.significand * 2^x.scale * (y.significand * 2^y.scale)) (x.sign != y.sign)
        r st := by
  obtain ⟨hp8, hp113⟩ := f.precision_bounds
  obtain ⟨hm15, hm⟩ := f.maxExponent_bounds
  obtain ⟨hl1, hl2⟩ := f.leastScale_bounds
  have hmost : f.mostScale = f.maxExponent - f.precision + 1 := rfl
  obtain ⟨hk, h128, -, hlong, hlo, hhi⟩ := leadingWord_finite hx hy
  have hsize := size_le_of_lt h128
  have hxl := hx.least_le
  have hxm := hx.le_most
  have hyl := hy.least_le
  have hym := hy.le_most
  have hp127 : 2^f.precision ≤ 2^127 := Nat.pow_le_pow_right (by norm_num) (by omega)
  rw [product_finite hx hy]
  refine round_spec _ hk h128 (fun h => le_trans hp127 (hlong h)) ?_ ?_ ?_ (Or.inl ?_)
    (mt (losesHalf_leadingWord hx hy).1 hkept)
  · unfold Fits; omega
  · unfold Fits; omega
  · unfold Fits; omega
  · unfold Fits; omega

/-- A lost product is a zero, which is not what it rounds to. -/
theorem product_finite_loses (hx : Float.IsFinite f x) (hy : Float.IsFinite f y)
    (hlost : LosesProduct x y (x.significand * 2^x.scale * (y.significand * 2^y.scale))) :
    ∃ st, Float.product x y = some (Float.zero f (x.sign != y.sign), st) := by
  obtain ⟨hk, h128, -⟩ := leadingWord_finite hx hy
  rw [product_finite hx hy]
  exact round_loses_half _ hk h128 ((losesHalf_leadingWord hx hy).2 hlost)

end Products

/-! ## Quotients -/

/-- A division keeps the quotient, with a sticky bit for the remainder. -/
theorem Kept.div (n : ℕ) {d : ℕ} (hd : 0 < d) (e : ℤ) :
    Kept ((n : ℚ) / d * 2^e) (n / d) e (decide (n % d ≠ 0)) := by
  have hu : (0 : ℚ) < 2^e := by positivity
  have hd' : (0 : ℚ) < d := by exact_mod_cast hd
  have hdm : (n : ℚ) = d * (n / d : ℕ) + (n % d : ℕ) := by
    exact_mod_cast (Nat.div_add_mod n d).symm
  have hlt : ((n % d : ℕ) : ℚ) < d := by exact_mod_cast Nat.mod_lt n hd
  have h0 : (0 : ℚ) ≤ (n % d : ℕ) := Nat.cast_nonneg _
  refine ⟨mul_le_mul_of_nonneg_right ?_ hu.le, mul_lt_mul_of_pos_right ?_ hu, ?_⟩
  · rw [le_div_iff₀ hd']
    linarith
  · rw [div_lt_iff₀ hd']
    linarith
  · rw [decide_eq_true_iff, mul_lt_mul_iff_left₀ hu, lt_div_iff₀ hd']
    constructor
    · intro h
      have : (0 : ℚ) < (n % d : ℕ) := by exact_mod_cast Nat.pos_of_ne_zero h
      linarith
    · intro h h'
      rw [h'] at hdm
      push_cast at hdm h
      linarith

/-- A significand shifted up until its leading bit is the top bit of a word. -/
theorem shiftLeft_leadingZeros (hpos : 0 < n) (h128 : n < 2^128) :
    (n <<< leadingZeros n) % 2^128 = n * 2^leadingZeros n ∧ 2^127 ≤ n * 2^leadingZeros n ∧
      n * 2^leadingZeros n < 2^128 := by
  have hsize := size_le_of_lt h128
  have hpos' := Nat.size_pos.2 hpos
  have hlt : n * 2^leadingZeros n < 2^128 := by
    calc n * 2^leadingZeros n < 2^n.size * 2^leadingZeros n :=
          Nat.mul_lt_mul_of_pos_right (Nat.lt_size_self n) (Nat.two_pow_pos _)
      _ = 2^128 := by
          rw [← pow_add]
          congr 1
          unfold leadingZeros
          omega
  refine ⟨?_, ?_, hlt⟩
  · rw [Nat.shiftLeft_eq, Nat.mod_eq_of_lt hlt]
  · calc 2^127 = 2^(n.size - 1) * 2^leadingZeros n := by
          rw [← pow_add]
          congr 1
          unfold leadingZeros
          omega
      _ ≤ n * 2^leadingZeros n := Nat.mul_le_mul_right _ (two_pow_size_le hpos)

section Quotients

variable {f : Format} {x y : Float}

/-- The quotient of two finite numbers is rounded correctly: it has at least two bits more than the
format and at most three, so its half is not lost. -/
theorem quotient_finite_spec (hx : Float.IsFinite f x) (hy : Float.IsFinite f y) :
    ∃ r st, Float.quotient x y = some (r, st) ∧
      Rounded f (x.significand * 2^x.scale / (y.significand * 2^y.scale)) (x.sign != y.sign)
        r st := by
  obtain ⟨hp8, hp113⟩ := f.precision_bounds
  obtain ⟨hm15, hm⟩ := f.maxExponent_bounds
  obtain ⟨hl1, hl2⟩ := f.leastScale_bounds
  have hmost : f.mostScale = f.maxExponent - f.precision + 1 := rfl
  have hp128 : 2^f.precision ≤ 2^128 := Nat.pow_le_pow_right (by norm_num) (by omega)
  have hnan : Float.propagatedNan x y = none := by
    simp [Float.propagatedNan, Float.isNan, hx.category, hy.category]
  have hformat : x.format = y.format := hx.format.trans hy.format.symm
  have hparts : ∀ z, Float.IsFinite f z → z.parts = (z.significand, z.scale) := fun z _ => rfl
  obtain ⟨hnx, hn1, hn2⟩ := shiftLeft_leadingZeros hx.pos (lt_of_lt_of_le hx.lt hp128)
  obtain ⟨hdy, hd1, hd2⟩ := shiftLeft_leadingZeros hy.pos (lt_of_lt_of_le hy.lt hp128)
  have hzx : leadingZeros x.significand ≤ 128 := Nat.sub_le _ _
  have hzy : leadingZeros y.significand ≤ 128 := Nat.sub_le _ _
  have hexact : (x.significand : ℚ) * 2^x.scale / (y.significand * 2^y.scale) =
      ((x.significand * 2^leadingZeros x.significand * 2^(f.precision + 2) : ℕ) : ℚ) /
        (y.significand * 2^leadingZeros y.significand : ℕ) *
        2^(x.scale - leadingZeros x.significand - (y.scale - leadingZeros y.significand) -
          (f.precision + 2 : ℕ)) := by
    have hy0 : (y.significand : ℚ) ≠ 0 := by exact_mod_cast hy.pos.ne'
    rw [zpow_sub₀ (by norm_num), zpow_sub₀ (by norm_num), zpow_sub₀ (by norm_num),
      zpow_sub₀ (by norm_num), zpow_natCast, zpow_natCast, zpow_natCast]
    push_cast
    field_simp
  rw [hexact]
  simp only [Float.quotient, hformat, hy.format, hnan, hx.category, hy.category, guard, if_true,
    hparts x hx, hparts y hy, hnx, hdy, bind, pure, Option.bind]
  generalize x.significand * 2^leadingZeros x.significand = n at *
  generalize y.significand * 2^leadingZeros y.significand = d at *
  have hpow : 2^(f.precision + 2) = 4 * 2^f.precision := by
    rw [pow_add]
    ring
  have hp120 : 2^(f.precision + 2) ≤ 2^120 := Nat.pow_le_pow_right (by norm_num) (by omega)
  have hd0 : 0 < d := by omega
  -- The numerator is between a half and two of the divisor.
  have hhi : n * 2^(f.precision + 2) < 2^127 * d := by
    calc n * 2^(f.precision + 2) ≤ 2 * d * 2^120 := Nat.mul_le_mul (by omega) hp120
      _ < 2^127 * d := by omega
  have hlo : 2^f.precision ≤ n * 2^(f.precision + 2) / d := by
    rw [Nat.le_div_iff_mul_le hd0, hpow]
    calc 2^f.precision * d ≤ 2^f.precision * (4 * n) := Nat.mul_le_mul_left _ (by omega)
      _ = n * (4 * 2^f.precision) := by ring
  rw [longDivide_spec hd0 hd2 hn2 hhi]
  dsimp only
  have hk := Kept.div (n * 2^(f.precision + 2)) hd0
    (x.scale - leadingZeros x.significand - (y.scale - leadingZeros y.significand) -
      (f.precision + 2 : ℕ))
  have hword : n * 2^(f.precision + 2) / d < 2^127 := by
    rw [Nat.div_lt_iff_lt_mul hd0]
    exact hhi
  have h128 : n * 2^(f.precision + 2) / d < 2^128 := lt_trans hword (by norm_num)
  have hsize := size_le_of_lt h128
  have hxl := hx.least_le
  have hxm := hx.le_most
  have hyl := hy.least_le
  have hym := hy.le_most
  refine round_spec _ hk h128 (fun _ => hlo) ?_ ?_ ?_ (Or.inl ?_) ?_
  · unfold Fits; omega
  · unfold Fits; omega
  · unfold Fits; omega
  · unfold Fits; omega
  · rw [losesHalf_iff hk h128]
    rintro ⟨h, -⟩
    omega

end Quotients

end Rucc.Base
