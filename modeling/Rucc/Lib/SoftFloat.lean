import Rucc.Lib.Interchange

/-!
# Arithmetic on interchange formats in integers

Software arithmetic that takes each operand apart into an integer and a power of two, combines the two
exactly, and rounds once at the end. `round` is that rounding and `round_spec` says that it is the one IEEE 754 asks
for. `rounds_close` is for what is not rounded because it lies too close to a pattern, and `lines_up`
is the order of the magnitudes by their bits.
-/

namespace Rucc.Interchange

open Rounding

variable (f : Interchange)

variable {m drop big small : ℕ} {above : Bool} {z x : ℚ}

/-! ## Rounding -/

/-- An integer without its `drop` low bits, rounded to nearest with ties to even. `above` says that
there is a little more than the integer, which breaks a tie. -/
def cut (m drop : ℕ) (above : Bool) : ℕ :=
  if 2^(drop - 1) < m % 2^drop ∨ m % 2^drop = 2^(drop - 1) ∧ (above ∨ m / 2^drop % 2 = 1)
  then m / 2^drop + 1 else m / 2^drop

/-- Where the lowest bit of the answer has to sit, for the place of the leading bit. -/
def lowest (leading : ℤ) : ℤ :=
  if 1 - f.bias ≤ leading then leading - f.fraction else f.smallest

/-- The integer that is kept of `m`, whose lowest bit is worth `scale`, at the lowest bit `low`. -/
def kept (m : ℕ) (scale low : ℤ) (above : Bool) : ℕ :=
  if low ≤ scale then m * 2^(scale - low).toNat else cut m (low - scale).toNat above

/-- The pattern of a significand below twice the implicit bit, with its lowest bit worth `low`. -/
def pack (sign kept : ℕ) (low : ℤ) : ℕ :=
  if kept < f.implicit then sign + kept
  else if f.top ≤ low + f.fraction + f.bias then sign + f.top * f.implicit
  else sign + (low + f.fraction + f.bias).toNat * f.implicit + kept % f.implicit

/-- The pattern nearest `m * 2^scale`, or a little more than that, with `sign` in its sign bit. -/
def round (sign m : ℕ) (scale : ℤ) (above : Bool) : ℕ :=
  if m = 0 then sign
  else
    let low := f.lowest (scale + (m.size - 1))
    let k := kept m scale low above
    if 2 * f.implicit ≤ k then f.pack sign (k / 2) (low + 1) else f.pack sign k low

/-- What lies wholly below half of the lowest bit is cut to nothing. -/
theorem cut_eq_zero (h : m.size < drop) : cut m drop above = 0 := by
  have hlt : m < 2^(drop - 1) := Nat.size_le.mp (by omega)
  have hlt' : m < 2^drop := hlt.trans_le (Nat.pow_le_pow_right (by norm_num) (by omega))
  unfold cut
  rw [Nat.mod_eq_of_lt hlt', Nat.div_eq_of_lt hlt', if_neg (by omega)]

/-- The lowest bit is no further below the leading one than the fraction reaches. -/
theorem le_lowest (leading : ℤ) : leading - f.fraction ≤ f.lowest leading := by
  unfold lowest smallest
  split_ifs <;> omega

theorem smallest_le_lowest (leading : ℤ) : f.smallest ≤ f.lowest leading := by
  unfold lowest smallest
  split_ifs <;> omega

/-- The lowest bit is where the leading one puts it, or at the bottom of the format. -/
theorem lowest_le (leading : ℤ) : f.lowest leading ≤ max f.smallest (leading - f.fraction) := by
  unfold lowest
  split_ifs <;> omega

/-- What is kept is at most the power of two that a carry makes. -/
theorem kept_le {m : ℕ} {scale : ℤ} {above : Bool} :
    kept m scale (f.lowest (scale + (m.size - 1))) above ≤ 2 * f.implicit := by
  have hle := f.le_lowest (scale + (m.size - 1))
  have hlt : m < 2^m.size := Nat.lt_size_self m
  have htwo : 2 * f.implicit = 2^(f.fraction + 1) := by rw [implicit, pow_succ, mul_comm]
  rw [htwo]
  generalize f.lowest (scale + (m.size - 1)) = low at *
  unfold kept
  split_ifs with h
  · calc m * 2^(scale - low).toNat ≤ 2^m.size * 2^(scale - low).toNat :=
          Nat.mul_le_mul_right _ hlt.le
      _ = 2^(m.size + (scale - low).toNat) := (pow_add _ _ _).symm
      _ ≤ 2^(f.fraction + 1) := Nat.pow_le_pow_right (by norm_num) (by omega)
  · have hdiv : m / 2^(low - scale).toNat < 2^(f.fraction + 1) := by
      rw [Nat.div_lt_iff_lt_mul (by positivity), ← pow_add]
      exact hlt.trans_le (Nat.pow_le_pow_right (by norm_num) (by omega))
    unfold cut
    split_ifs <;> omega

/-- The number `z` that the integer and the little more stand for, in units of the integer's lowest
bit. -/
def Stands (m : ℕ) (above : Bool) (z : ℚ) : Prop :=
  (m : ℚ) ≤ z ∧ z < m + 1 ∧ ((m : ℚ) < z ↔ above = true)

theorem Stands.exact (m : ℕ) : Stands m false m := ⟨le_rfl, lt_add_one _, by simp⟩

/-- Cutting is rounding to nearest, with ties to even. -/
theorem cut_eq_rne (hdrop : 0 < drop) (hz : Stands m above z) : cut m drop above = rne (z / 2^drop) := by
  obtain ⟨hle, hlt, habove⟩ := hz
  have hpow : (0 : ℚ) < 2^drop := by positivity
  have hhalf : 2^drop = 2 * 2^(drop - 1) := by
    rw [← pow_succ']
    congr 1
    omega
  have hhalf' : (2 : ℚ)^drop = 2 * 2^(drop - 1) := by exact_mod_cast hhalf
  have hsplit := Nat.div_add_mod m (2^drop)
  have hr : m % 2^drop < 2^drop := Nat.mod_lt _ (by positivity)
  unfold cut
  generalize m / 2^drop = n at *
  generalize m % 2^drop = r at *
  have hm : (m : ℚ) = n * 2^drop + r := by
    rw [← hsplit]
    push_cast
    ring
  rw [hm] at hle hlt habove
  have hn : (n : ℚ) ≤ z / 2^drop := by
    rw [le_div_iff₀ hpow]
    have : (0 : ℚ) ≤ r := Nat.cast_nonneg r
    linarith
  have hn1 : z / 2^drop < n + 1 := by
    rw [div_lt_iff₀ hpow]
    have : (r : ℚ) + 1 ≤ 2^drop := by exact_mod_cast hr
    linarith
  -- Which side of the half way point the value lies on.
  have hover : (n : ℚ) + 1 / 2 < z / 2^drop ↔ n * 2^drop + 2^(drop - 1) < z := by
    rw [lt_div_iff₀ hpow, hhalf']
    constructor <;> intro h <;> linarith
  rcases lt_trichotomy r (2^(drop - 1)) with h | h | h
  · have h' : (r : ℚ) + 1 ≤ 2^(drop - 1) := by exact_mod_cast h
    rw [if_neg (by omega), rne_of_lt_half hn]
    rw [div_lt_iff₀ hpow, hhalf']
    rw [hhalf'] at hlt
    linarith
  · have h' : (r : ℚ) = 2^(drop - 1) := by exact_mod_cast h
    rw [h'] at hle habove
    cases above with
    | true =>
      rw [if_pos (Or.inr ⟨h, Or.inl rfl⟩), rne_of_half_lt (hover.mpr (habove.mpr rfl)) hn1]
    | false =>
      have heq : z = n * 2^drop + 2^(drop - 1) :=
        le_antisymm (not_lt.mp (mt habove.mp (by simp))) hle
      have htie : z / 2^drop = n + 1 / 2 := by
        rw [heq, hhalf']
        field_simp
      rw [rne_of_half htie]
      by_cases hodd : n % 2 = 1
      · rw [if_pos (Or.inr ⟨h, Or.inr hodd⟩), hodd]
      · rw [if_neg]
        · omega
        · rintro (h1 | ⟨-, h1 | h1⟩)
          · omega
          · exact absurd h1 (by simp)
          · exact hodd h1
  · have h' : (2 : ℚ)^(drop - 1) < r := by exact_mod_cast h
    rw [if_pos (Or.inl h), rne_of_half_lt (hover.mpr (by linarith)) hn1]

/-- The kept integer is the value rounded to units of the lowest bit. -/
theorem kept_eq_rne {m : ℕ} {scale low : ℤ} {above : Bool} {z : ℚ} (hz : Stands m above z)
    (h : low < scale ∨ low = scale → above = false) :
    kept m scale low above = rne (z * 2^scale / 2^low) := by
  unfold kept
  split_ifs with hle
  · have hexact : z = m :=
      le_antisymm (not_lt.mp (mt hz.2.2.mp (by rw [h (lt_or_eq_of_le hle)]; simp))) hz.1
    have hpow : (2 : ℚ)^scale / 2^low = ((2^(scale - low).toNat : ℕ) : ℚ) := by
      rw [← zpow_sub₀ (by norm_num), Nat.cast_pow, Nat.cast_ofNat, ← zpow_natCast,
        Int.toNat_of_nonneg (by omega)]
    rw [mul_div_assoc, hpow, hexact, ← Nat.cast_mul, rne_natCast]
  · have hpow : (2 : ℚ)^scale / 2^low = 1 / 2^(low - scale).toNat := by
      rw [← zpow_sub₀ (by norm_num), ← zpow_natCast, Int.toNat_of_nonneg (by omega), one_div,
        ← zpow_neg, neg_sub]
    rw [mul_div_assoc, hpow, mul_one_div]
    exact cut_eq_rne (by omega) hz

/-! ## Packing -/

/-- A pattern that was packed: a number, with the sign that was asked for, and the significand at its
lowest bit unless that is past the top of the format. -/
theorem pack_spec {sign k : ℕ} {low : ℤ} (hsign : sign = 0 ∨ sign = f.sign)
    (hk : k < 2 * f.implicit) (hlow : f.smallest ≤ low) (hsub : k < f.implicit → low = f.smallest) :
    f.Pattern (f.pack sign k low) ∧ ¬f.NaN (f.pack sign k low) ∧
      (f.Negative (f.pack sign k low) ↔ sign = f.sign) ∧
      (if f.Finite (f.pack sign k low) then some (f.magnitude (f.pack sign k low)) else none) =
        if f.implicit ≤ k ∧ f.bias - f.fraction < low then none else some ((k : ℚ) * 2^low) := by
  have htop := f.top_eq
  have hb := f.bias_pos
  unfold pack
  by_cases hsmall : k < f.implicit
  · -- A subnormal, whose fraction is the whole significand.
    obtain ⟨hp, hst, hfr, hneg⟩ := @fields f sign 0 k hsign (Nat.zero_le _) hsmall
    rw [zero_mul, add_zero] at hp hst hfr hneg
    have hfin : f.Finite (sign + k) := by
      unfold Finite
      omega
    have hout : ¬(f.implicit ≤ k ∧ f.bias - f.fraction < low) := by omega
    rw [if_pos hsmall, if_neg hout]
    refine ⟨hp, fun h => hfin h.1, hneg, ?_⟩
    rw [if_pos hfin, magnitude, significand, scale, if_pos hst, if_pos hst, hfr, hsub hsmall]
  · rw [if_neg hsmall]
    unfold smallest at hlow
    by_cases hinf : (f.top : ℤ) ≤ low + f.fraction + f.bias
    · obtain ⟨hp, hst, hfr, hneg⟩ := @fields f sign f.top 0 hsign le_rfl f.implicit_pos
      rw [add_zero] at hp hst hfr hneg
      have hout : f.implicit ≤ k ∧ f.bias - f.fraction < low := by omega
      rw [if_pos hinf, if_pos hout]
      exact ⟨hp, fun h => h.2 hfr, hneg, if_neg (not_not.mpr hst)⟩
    · have hmod : k % f.implicit = k - f.implicit := by
        rw [Nat.mod_eq_sub_mod (not_lt.mp hsmall), Nat.mod_eq_of_lt (by omega)]
      obtain ⟨hp, hst, hfr, hneg⟩ := @fields f sign (low + f.fraction + f.bias).toNat
        (k % f.implicit) hsign (by omega) (Nat.mod_lt _ f.implicit_pos)
      have hfin : f.Finite (sign + (low + f.fraction + f.bias).toNat * f.implicit +
          k % f.implicit) := by
        unfold Finite
        rw [hst]
        omega
      have hout : ¬(f.implicit ≤ k ∧ f.bias - f.fraction < low) := by omega
      rw [if_neg hinf, if_neg hout]
      refine ⟨hp, fun h => hfin h.1, hneg, ?_⟩
      rw [if_pos hfin, magnitude, significand, scale, hst, if_neg (by omega), if_neg (by omega), hfr,
        hmod, Nat.sub_add_cancel (not_lt.mp hsmall), Int.toNat_of_nonneg (by omega)]
      congr 3
      ring

/-! ## The rounding is correct -/

/-- The spacing around a value by the place of its leading bit. -/
theorem spaced_lowest {m : ℕ} {scale : ℤ} {above : Bool} {z : ℚ} (hm : m ≠ 0)
    (hz : Stands m above z) :
    f.grid.Spaced (z * 2^scale) (f.lowest (scale + (m.size - 1))) := by
  have hsize : 0 < m.size := Nat.size_pos.mpr (Nat.pos_of_ne_zero hm)
  have hpow : (0 : ℚ) < 2^scale := by positivity
  have hhi : z < 2^m.size := by
    have h : m + 1 ≤ 2^m.size := Nat.lt_size_self m
    have h' : (m : ℚ) + 1 ≤ 2^m.size := by exact_mod_cast h
    linarith [hz.2.1]
  have hlo : (2 : ℚ)^(m.size - 1) ≤ z := by
    have h : 2^(m.size - 1) ≤ m := Nat.lt_size.mp (by omega)
    have h' : (2 : ℚ)^(m.size - 1) ≤ m := by exact_mod_cast h
    linarith [hz.1]
  have hlead : (2 : ℚ)^(scale + ((m.size : ℤ) - 1)) = 2^(m.size - 1) * 2^scale := by
    rw [zpow_add₀ (by norm_num), mul_comm, ← Nat.cast_pred hsize, zpow_natCast]
  have hlead' : (2 : ℚ)^(scale + ((m.size : ℤ) - 1) + 1) = 2^m.size * 2^scale := by
    rw [add_assoc, sub_add_cancel, zpow_add₀ (by norm_num), mul_comm, zpow_natCast]
  have htop : ∀ low : ℤ, ((2^(f.fraction + 1) : ℕ) : ℚ) * 2^low = 2^(low + f.fraction + 1) := by
    intro low
    rw [Nat.cast_pow, Nat.cast_ofNat, ← zpow_natCast, ← zpow_add₀ (by norm_num)]
    congr 1
    push_cast
    ring
  have hshort : ∀ low : ℤ, ((2^f.fraction : ℕ) : ℚ) * 2^low = 2^(low + f.fraction) := by
    intro low
    rw [Nat.cast_pow, Nat.cast_ofNat, ← zpow_natCast, ← zpow_add₀ (by norm_num), add_comm]
  have hup : ∀ q : ℤ, scale + ((m.size : ℤ) - 1) + 1 ≤ q → z * 2^scale < 2^q := by
    intro q hq
    calc z * 2^scale < 2^m.size * 2^scale := mul_lt_mul_of_pos_right hhi hpow
      _ = 2^(scale + ((m.size : ℤ) - 1) + 1) := hlead'.symm
      _ ≤ 2^q := zpow_le_zpow_right₀ (by norm_num) hq
  unfold lowest smallest
  split_ifs with h
  · refine ⟨?_, ?_, Or.inr ?_⟩
    · rw [grid_least, smallest]
      omega
    · rw [grid_top, grid_unit, htop]
      exact hup _ (by omega)
    · rw [grid_base, grid_precision, Nat.add_sub_cancel, grid_unit, hshort, sub_add_cancel, hlead]
      exact mul_le_mul_of_nonneg_right hlo hpow.le
  · refine ⟨le_rfl, ?_, Or.inl rfl⟩
    rw [grid_top, grid_unit, htop]
    exact hup _ (by omega)

/-- The rounding is correct wherever the little more lies below the lowest bit of the answer. -/
theorem round_spec {sign : ℕ} {scale : ℤ} (hsign : sign = 0 ∨ sign = f.sign) (hm : m ≠ 0) (hz : Stands m above z)
    (habove : above = true → f.fraction + 2 ≤ m.size) (hx : |x| = z * 2^scale)
    (hneg : sign = f.sign ↔ x < 0) : f.RoundsTo x (f.round sign m scale above) := by
  have hspaced := @spaced_lowest f m scale above z hm hz
  have hlast : f.lowest (scale + (m.size - 1)) < scale ∨
      f.lowest (scale + (m.size - 1)) = scale → above = false := by
    intro h
    by_contra hne
    have hsize := habove (by simpa using hne)
    unfold lowest smallest at h
    split_ifs at h <;> omega
  have hk := @kept_eq_rne m scale (f.lowest (scale + (m.size - 1))) above z hz hlast
  have hx0 : 0 ≤ |x| := abs_nonneg x
  have hle := @kept_le f m scale above
  rw [← hx] at hspaced hk
  unfold round
  rw [if_neg hm]
  dsimp only
  generalize f.lowest (scale + (m.size - 1)) = low at *
  generalize kept m scale low above = k at *
  have hu : (0 : ℚ) < f.grid.unit low := f.grid.unit_pos low
  have hfull : k < f.implicit → low = f.smallest := by
    intro hlt
    refine hspaced.full.resolve_right fun hge => ?_
    have : f.implicit ≤ k := by
      rw [hk]
      refine le_rne ?_
      rw [le_div_iff₀ (by positivity)]
      rw [grid_base, grid_precision, Nat.add_sub_cancel, grid_unit] at hge
      exact hge
    omega
  have hlow : f.smallest ≤ low := hspaced.least_le
  have hkunit : rne (|x| / f.grid.unit low) = k := by rw [grid_unit]; exact hk.symm
  split_ifs with hcarry
  · -- The rounding carried out of the top, which can only have made it a power of two.
    have hk2 : k = 2 * f.implicit := le_antisymm hle hcarry
    have hhalf : k / 2 = f.implicit := by omega
    obtain ⟨hp, hnan, hnegp, hread⟩ := @pack_spec f sign f.implicit (low + 1) hsign
      (by have := f.implicit_pos; omega) (by omega) (fun h => absurd h (lt_irrefl _))
    rw [hhalf]
    refine ⟨hp, hnan, hnegp.trans hneg, ?_⟩
    rw [hread]
    refine f.grid.rounds_scaled hx0 hspaced _ ?_ ?_
    · rw [hkunit, hk2, grid_most, grid_top, pow_succ, implicit, mul_comm]
      simp only [le_refl, true_and, ite_eq_left_iff, reduceCtorEq, imp_false, not_not]
      omega
    · intro v hv
      rw [hkunit, hk2, grid_unit]
      split_ifs at hv with hout
      have := Option.some.inj hv
      rw [← this, zpow_add₀ (by norm_num)]
      push_cast
      ring
  · obtain ⟨hp, hnan, hnegp, hread⟩ := @pack_spec f sign k low hsign (not_le.mp hcarry) hlow hfull
    refine ⟨hp, hnan, hnegp.trans hneg, ?_⟩
    rw [hread]
    refine f.grid.rounds_scaled hx0 hspaced _ ?_ ?_
    · rw [hkunit, grid_most, grid_top, pow_succ]
      simp only [ite_eq_left_iff, reduceCtorEq, imp_false, not_not]
      constructor
      · exact fun h => Or.inl h.2
      · rintro (h | ⟨-, h⟩)
        · refine ⟨?_, h⟩
          by_contra hsmall
          have := hfull (not_le.mp hsmall)
          have := f.bias_pos
          unfold smallest at *
          omega
        · unfold implicit at hcarry
          omega
    · intro v hv
      rw [hkunit, grid_unit]
      split_ifs at hv with hout
      exact (Option.some.inj hv).symm

/-- What is not rounded: a finite pattern stands for its own value, unless it is the negative zero. -/
theorem roundsTo_self {bits : ℕ} (hp : f.Pattern bits) (hfin : f.Finite bits)
    (h0 : f.significand bits ≠ 0) : f.RoundsTo (f.value bits) bits := by
  have hpos : 0 < f.magnitude bits :=
    lt_of_le_of_ne (f.magnitude_nonneg bits) fun h => h0 (f.magnitude_eq_zero.mp h.symm)
  refine ⟨hp, fun h => hfin h.1, ?_, ?_⟩
  · unfold value
    split_ifs with hn
    · exact iff_of_true hn (by linarith)
    · exact iff_of_false hn (by linarith)
  · rw [if_pos hfin, abs_value]
    exact f.grid.rounds_self (f.holds_magnitude hfin)

/-- Zero is the positive zero. -/
theorem roundsTo_zero : f.RoundsTo 0 0 := by
  obtain ⟨hp, hst, hfr, hneg⟩ := @fields f 0 0 0 (Or.inl rfl) (Nat.zero_le _) f.implicit_pos
  rw [zero_mul, add_zero, add_zero] at hp hst hfr hneg
  have hb := f.bias_pos
  have htop := f.top_eq
  have hfin : f.Finite 0 := by
    unfold Finite
    omega
  refine ⟨hp, fun h => hfin h.1, ?_, ?_⟩
  · rw [hneg]
    exact iff_of_false f.sign_pos.ne (lt_irrefl _)
  · have hmag : f.magnitude 0 = 0 := by
      rw [magnitude_eq_zero, significand, if_pos hst, hfr]
    rw [if_pos hfin, abs_zero, hmag]
    exact f.grid.rounds_self f.grid.holds_zero

/-- What lies within a quarter of the spacing around a full significand rounds to it, also where the
spacing halves below a power of two. -/
theorem rounds_close {q : ℤ} (hx : 0 ≤ x) (hm : f.implicit ≤ m)
    (hm2 : m < 2 * f.implicit) (hlow : f.smallest ≤ q) (hhigh : q ≤ f.bias - f.fraction)
    (hclose : |x - m * 2^q| < 2^q / 4) : f.grid.Rounds x (some (m * 2^q)) := by
  have hu : (0 : ℚ) < 2^q := by positivity
  obtain ⟨hlo, hhi⟩ := abs_lt.mp hclose
  have hm' : (f.implicit : ℚ) ≤ m := by exact_mod_cast hm
  have hm2' : (m : ℚ) + 1 ≤ 2 * f.implicit := by exact_mod_cast hm2
  have htop : ((2^(f.fraction + 1) : ℕ) : ℚ) = 2 * f.implicit := by
    rw [pow_succ, implicit]
    push_cast
    ring
  have hout : m ≠ 2^(f.fraction + 1) := by
    rw [pow_succ, mul_comm]
    exact hm2.ne
  by_cases hside : f.implicit * 2^q ≤ x ∨ q = f.smallest
  · -- The spacing is the one of the significand.
    have hspaced : f.grid.Spaced x q := by
      refine ⟨hlow, ?_, ?_⟩
      · rw [grid_top, grid_unit, htop]
        calc x < m * 2^q + 2^q / 4 := by linarith
          _ ≤ (m + 1) * 2^q := by rw [add_mul, one_mul]; linarith
          _ ≤ 2 * f.implicit * 2^q := mul_le_mul_of_nonneg_right hm2' hu.le
      · rw [grid_base, grid_precision, Nat.add_sub_cancel, grid_unit]
        exact hside.symm
    have hrne : rne (x / 2^q) = m := by
      refine rne_eq_of_abs_lt (by positivity) ?_
      rw [abs_lt, lt_sub_iff_add_lt, sub_lt_iff_lt_add, lt_div_iff₀ hu, div_lt_iff₀ hu]
      constructor <;> linarith
    refine f.grid.rounds_scaled hx hspaced _ ?_ ?_
    · rw [grid_unit, hrne, grid_most, grid_top]
      simp only [reduceCtorEq, false_iff, not_or, not_and]
      exact ⟨by omega, fun _ => hout⟩
    · rintro v hv
      rw [grid_unit, hrne, ← Option.some.inj hv]
  · -- Below a power of two the spacing is half as wide, and the power is a full integer of it.
    rw [not_or, not_le] at hside
    obtain ⟨hlt, hne⟩ := hside
    have hmeq : m = f.implicit := by
      by_contra hne'
      have h1 : f.implicit + 1 ≤ m := by omega
      have h1' : (f.implicit : ℚ) + 1 ≤ m := by exact_mod_cast h1
      have h2 := mul_le_mul_of_nonneg_right h1' hu.le
      linarith
    have hhalf : (2 : ℚ)^q = 2 * 2^(q - 1) := by
      rw [← zpow_one_add₀ (by norm_num)]
      congr 1
      ring
    have hu' : (0 : ℚ) < 2^(q - 1) := by positivity
    have hone : (2 : ℚ) ≤ f.implicit := by exact_mod_cast f.one_lt_implicit
    rw [hmeq] at hlo hhi ⊢
    rw [hhalf] at hlo hhi hlt ⊢
    have hspaced : f.grid.Spaced x (q - 1) := by
      refine ⟨?_, ?_, Or.inr ?_⟩
      · rw [grid_least]
        omega
      · rw [grid_top, grid_unit, htop]
        linarith
      · rw [grid_base, grid_precision, Nat.add_sub_cancel, grid_unit]
        change (f.implicit : ℚ) * 2^(q - 1) ≤ x
        have htwo := mul_le_mul_of_nonneg_right hone hu'.le
        linarith
    have hrne : rne (x / 2^(q - 1)) = 2^(f.fraction + 1) := by
      refine rne_eq_of_abs_lt (by positivity) ?_
      rw [htop, abs_lt, lt_sub_iff_add_lt, sub_lt_iff_lt_add, lt_div_iff₀ hu', div_lt_iff₀ hu']
      constructor <;> linarith
    refine f.grid.rounds_scaled hx hspaced _ ?_ ?_
    · rw [grid_unit, hrne, grid_most, grid_top]
      simp only [reduceCtorEq, false_iff, not_or, not_and]
      omega
    · rintro v hv
      rw [grid_unit, hrne, htop, ← Option.some.inj hv]
      ring

/-! ## The order of the patterns -/

/-- A pattern without its sign. -/
def unsigned (bits : ℕ) : ℕ := f.stored bits * f.implicit + f.fractionOf bits

/-- The magnitude of a pattern is in the order of its bits: the larger of two lines up above the
smaller. -/
theorem lines_up (h : f.unsigned small ≤ f.unsigned big) : f.scale small ≤ f.scale big ∧
      f.significand small ≤ f.significand big * 2^(f.scale big - f.scale small).toNat := by
  have hfs := f.fractionOf_lt small
  have hfb := f.fractionOf_lt big
  have hstored : f.stored small ≤ f.stored big := by
    by_contra! hlt
    have : (f.stored big + 1) * f.implicit ≤ f.stored small * f.implicit :=
      Nat.mul_le_mul_right _ hlt
    unfold unsigned at h
    rw [add_mul, one_mul] at this
    omega
  rcases hstored.lt_or_eq with hlt | heq
  · have hscale : f.scale small ≤ f.scale big := by
      unfold scale smallest
      split_ifs <;> omega
    refine ⟨hscale, ?_⟩
    have hbig : f.implicit ≤ f.significand big := by
      unfold significand
      rw [if_neg (by omega)]
      omega
    by_cases hsame : f.scale small = f.scale big
    · -- The smallest normal and the subnormals share their lowest bit.
      have hsub : f.stored small = 0 := by
        by_contra h0
        unfold scale at hsame
        rw [if_neg h0, if_neg (by omega)] at hsame
        omega
      rw [hsame, sub_self, Int.toNat_zero, pow_zero, mul_one]
      unfold significand
      rw [if_pos hsub, if_neg (by omega)]
      omega
    · have hpow : 2^1 ≤ 2^(f.scale big - f.scale small).toNat :=
        Nat.pow_le_pow_right (by norm_num) (by omega)
      calc f.significand small ≤ f.implicit * 2^1 := by
            have := f.significand_lt small
            omega
        _ ≤ f.significand big * 2^(f.scale big - f.scale small).toNat :=
            Nat.mul_le_mul hbig hpow
  · have hscale : f.scale small = f.scale big := by
      unfold scale
      rw [heq]
    refine ⟨hscale.le, ?_⟩
    rw [hscale, sub_self, Int.toNat_zero, pow_zero, mul_one]
    unfold unsigned at h
    rw [heq] at h
    unfold significand
    rw [heq]
    split_ifs <;> omega

/-- The larger pattern's magnitude, in units of the smaller one's lowest bit. -/
theorem magnitude_aligned (h : f.scale small ≤ f.scale big) : f.magnitude big =
      ((f.significand big * 2^(f.scale big - f.scale small).toNat : ℕ) : ℚ) * 2^f.scale small := by
  have hpow : ((2^(f.scale big - f.scale small).toNat : ℕ) : ℚ) * 2^f.scale small =
      2^f.scale big := by
    rw [Nat.cast_pow, Nat.cast_ofNat, ← zpow_natCast, Int.toNat_of_nonneg (by omega),
      ← zpow_add₀ (by norm_num), sub_add_cancel]
  rw [Nat.cast_mul, mul_assoc, hpow]
  rfl

end Rucc.Interchange
