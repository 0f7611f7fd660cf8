import Mathlib.Tactic
import Mathlib.Data.Rat.Floor

/-!
# Rounding to nearest with ties to even, on a floating grid

A floating format holds the magnitudes `m * base^q` with an integer `m` below `base^precision` and
`q` between two ends. `Grid` is such a format for any even base, so that binary and decimal formats
are both instances of it, and `Grid.Rounds` says what IEEE 754's round to nearest with ties to even
makes of a magnitude: the nearest one that the grid holds, and an infinity from halfway past the
largest one on.

`rne` rounds a rational to the nearest integer. The main result, `Grid.rounds_scaled`, is that
rounding `x / base^q` with `rne` rounds `x` on the grid, where `base^q` is the spacing of the grid
around `x`. An implementation that scales, rounds to an integer and scales back is related to
`Grid.Rounds` by this theorem alone.
-/

namespace Rucc.Rounding

variable {x : ℚ} {n : ℕ}

/-! ## Rounding to an integer -/

/-- The integer nearest a nonnegative rational, and the even one of the two when it is halfway. -/
def rne (x : ℚ) : ℕ :=
  let n := ⌊x⌋₊
  if x - n < 1 / 2 ∨ x - n = 1 / 2 ∧ n % 2 = 0 then n else n + 1

/-- A value less than half way up from an integer rounds to it. -/
theorem rne_of_lt_half (h0 : (n : ℚ) ≤ x) (h1 : x < n + 1 / 2) : rne x = n := by
  have hfloor : ⌊x⌋₊ = n := (Nat.floor_eq_iff (le_trans (by positivity) h0)).2 ⟨h0, by linarith⟩
  unfold rne
  rw [hfloor]
  exact if_pos (Or.inl (by linarith))

/-- A value more than half way up from an integer rounds to the one above. -/
theorem rne_of_half_lt (h0 : (n : ℚ) + 1 / 2 < x) (h1 : x < n + 1) : rne x = n + 1 := by
  have hn : (0 : ℚ) ≤ n := Nat.cast_nonneg n
  have hfloor : ⌊x⌋₊ = n := (Nat.floor_eq_iff (by linarith)).2 ⟨by linarith, h1⟩
  unfold rne
  rw [hfloor]
  refine if_neg ?_
  rintro (h | ⟨h, -⟩)
  · linarith
  · linarith

/-- A value half way between two integers rounds to the even one. -/
theorem rne_of_half (h : x = n + 1 / 2) : rne x = n + n % 2 := by
  have hn : (0 : ℚ) ≤ n := Nat.cast_nonneg n
  have hfloor : ⌊x⌋₊ = n := (Nat.floor_eq_iff (by linarith)).2 ⟨by linarith, by linarith⟩
  unfold rne
  rw [hfloor]
  rcases Nat.mod_two_eq_zero_or_one n with h0 | h1
  · rw [if_pos (Or.inr ⟨by linarith, h0⟩), h0, add_zero]
  · rw [if_neg, h1]
    rintro (h' | ⟨-, h'⟩)
    · linarith
    · omega

/-- An integer rounds to itself. -/
theorem rne_natCast (n : ℕ) : rne (n : ℚ) = n := rne_of_lt_half le_rfl (by norm_num)

/-- The rounded integer is within a half of the value. -/
theorem abs_sub_rne_le (hx : 0 ≤ x) : |x - rne x| ≤ 1 / 2 := by
  have hlo : (⌊x⌋₊ : ℚ) ≤ x := Nat.floor_le hx
  have hhi : x < ⌊x⌋₊ + 1 := Nat.lt_floor_add_one x
  unfold rne
  dsimp only
  split_ifs with h
  · rw [abs_le]
    rcases h with h | ⟨h, -⟩
    · constructor <;> linarith
    · constructor <;> linarith
  · have hge : 1 / 2 ≤ x - ⌊x⌋₊ := by
      by_contra hlt
      exact h (Or.inl (by linarith))
    push_cast
    rw [abs_le]
    constructor <;> linarith

/-- A tie rounds to an even integer. -/
theorem rne_even_of_tie (hx : 0 ≤ x) (h : |x - rne x| = 1 / 2) : rne x % 2 = 0 := by
  have hlo : (⌊x⌋₊ : ℚ) ≤ x := Nat.floor_le hx
  have hhi : x < ⌊x⌋₊ + 1 := Nat.lt_floor_add_one x
  rcases lt_trichotomy (x - ⌊x⌋₊) (1 / 2) with hf | hf | hf
  · rw [rne_of_lt_half hlo (by linarith), abs_of_nonneg (by linarith)] at h
    linarith
  · rw [rne_of_half (n := ⌊x⌋₊) (by linarith)]
    omega
  · rw [rne_of_half_lt (n := ⌊x⌋₊) (by linarith) hhi] at h
    push_cast at h
    rw [abs_of_neg (by linarith)] at h
    linarith

/-- No integer is nearer than the rounded one. -/
theorem abs_sub_rne_le_abs_sub (hx : 0 ≤ x) (n : ℕ) : |x - rne x| ≤ |x - n| := by
  have hr := abs_sub_rne_le hx
  rcases eq_or_ne (rne x) n with h | h
  · rw [h]
  · have hsep : (1 : ℚ) ≤ |(rne x : ℚ) - n| := by
      have : (1 : ℤ) ≤ |(rne x : ℤ) - n| := Int.one_le_abs (by omega)
      exact_mod_cast this
    have htri : |(rne x : ℚ) - n| ≤ |x - rne x| + |x - n| := by
      calc |(rne x : ℚ) - n| = |(x - n) - (x - rne x)| := by congr 1; ring
        _ ≤ |x - n| + |x - rne x| := abs_sub _ _
        _ = |x - rne x| + |x - n| := add_comm _ _
    linarith

/-- An integer as near as the rounded one is half way from the value, unless it is the same. -/
theorem abs_sub_eq_half_of_eq (hx : 0 ≤ x) (hne : n ≠ rne x) (h : |x - n| = |x - rne x|) : |x - rne x| = 1 / 2 := by
  have hr := abs_sub_rne_le hx
  have hsep : (1 : ℚ) ≤ |(rne x : ℚ) - n| := by
    have : (1 : ℤ) ≤ |(rne x : ℤ) - n| := Int.one_le_abs (by omega)
    exact_mod_cast this
  have htri : |(rne x : ℚ) - n| ≤ |x - n| + |x - rne x| := by
    calc |(rne x : ℚ) - n| = |(x - n) - (x - rne x)| := by congr 1; ring
      _ ≤ |x - n| + |x - rne x| := abs_sub _ _
  linarith

/-- Rounding is monotone against an integer below: from an integer on, values round to at least
it. -/
theorem le_rne (h : (n : ℚ) ≤ x) : n ≤ rne x := by
  have hn : n ≤ ⌊x⌋₊ := Nat.le_floor h
  unfold rne
  dsimp only
  split_ifs <;> omega

/-- A value below `n - 1/2` rounds to an integer below `n`. -/
theorem rne_lt (hx : 0 ≤ x) (h : x < n - 1 / 2) : rne x < n := by
  have hr := (abs_le.1 (abs_sub_rne_le hx)).1
  have : (rne x : ℚ) < n := by linarith
  exact_mod_cast this

/-- A value below an integer rounds to at most it. -/
theorem rne_le (hx : 0 ≤ x) (h : x ≤ n) : rne x ≤ n := by
  have hr := (abs_le.1 (abs_sub_rne_le hx)).1
  have : (rne x : ℚ) < n + 1 := by linarith
  have : rne x < n + 1 := by exact_mod_cast this
  omega

/-- A value nearer to `n` than any half way point around it rounds to `n`. -/
theorem rne_eq_of_abs_lt (hx : 0 ≤ x) (h : |x - n| < 1 / 2) : rne x = n := by
  by_contra hne
  have h1 := abs_sub_rne_le_abs_sub hx n
  have hsep : (1 : ℚ) ≤ |(rne x : ℚ) - n| := by
    have : (1 : ℤ) ≤ |(rne x : ℤ) - n| := Int.one_le_abs (by omega)
    exact_mod_cast this
  have htri : |(rne x : ℚ) - n| ≤ |x - n| + |x - rne x| := by
    calc |(rne x : ℚ) - n| = |(x - n) - (x - rne x)| := by congr 1; ring
      _ ≤ |x - n| + |x - rne x| := abs_sub _ _
  linarith

/-- A value that was rounded to an integer already comes to the wrong side of a tie: the integer is
half way between two multiples of `b`, and the value is not, on the side of the odd one. -/
def DoublyRounded (x : ℚ) (b : ℕ) : Prop :=
  ∃ m : ℕ, 2 * rne x = b * (2 * m + 1) ∧
    (m % 2 = 0 ∧ (rne x : ℚ) < x ∨ m % 2 = 1 ∧ x < (rne x : ℚ))

/-- Rounding to an integer first and to a multiple of `b` next is one rounding, unless the integer
comes to the wrong side of a tie. -/
theorem rne_rne_div_iff {b : ℕ} (hx : 0 ≤ x) (hb0 : 0 < b) (hb : b = 1 ∨ b % 2 = 0) :
    rne ((rne x : ℚ) / b) = rne (x / b) ↔ ¬ DoublyRounded x b := by
  have hbq : (0 : ℚ) < b := by exact_mod_cast hb0
  have hr := abs_le.1 (abs_sub_rne_le hx)
  generalize hc : rne x = c at hr
  rcases hb with rfl | heven
  · -- A multiple of one is the integer itself.
    have hnot : ¬ DoublyRounded x 1 := by
      rintro ⟨m, hm, -⟩
      omega
    rw [Nat.cast_one, div_one, div_one, rne_natCast, hc]
    simp [hnot]
  obtain ⟨h, hh⟩ : ∃ h, b = 2 * h := ⟨b / 2, by omega⟩
  have hbh : (b : ℚ) = 2 * h := by exact_mod_cast hh
  have hh0 : (0 : ℚ) < h := by linarith
  have hh1 : (1 : ℚ) ≤ h := by exact_mod_cast (by omega : 1 ≤ h)
  unfold DoublyRounded
  rw [hc]
  -- The integer is `2 h m + s` with `s` below `2 h`, and `s = h` is the tie.
  obtain ⟨m, s, hs, hcm⟩ : ∃ m s, s < 2 * h ∧ c = 2 * h * m + s :=
    ⟨c / (2 * h), c % (2 * h), Nat.mod_lt _ (by omega), (Nat.div_add_mod c (2 * h)).symm⟩
  have hcq : (c : ℚ) = 2 * h * m + s := by exact_mod_cast hcm
  have hm0 : (0 : ℚ) ≤ m := Nat.cast_nonneg m
  have hs0 : (0 : ℚ) ≤ s := Nat.cast_nonneg s
  have htie : ∀ m', 2 * c = b * (2 * m' + 1) ↔ m' = m ∧ s = h := by
    intro m'
    rw [hcm, hh]
    constructor
    · intro heq
      have h1 : 2 * h * m + s = h * (2 * m' + 1) := by
        have : 2 * (2 * h * m + s) = 2 * (h * (2 * m' + 1)) := by rw [heq]; ring
        omega
      have h2 : m' = m := by
        by_contra hne
        rcases Nat.lt_or_gt_of_ne hne with hlt | hgt
        · have : h * (2 * (m' + 1)) ≤ h * (2 * m) := Nat.mul_le_mul_left _ (by omega)
          have e1 : h * (2 * (m' + 1)) = h * (2 * m' + 1) + h := by ring
          have e2 : h * (2 * m) = 2 * h * m := by ring
          omega
        · have : h * (2 * (m + 1)) ≤ h * (2 * m') := Nat.mul_le_mul_left _ (by omega)
          have e1 : h * (2 * (m + 1)) = 2 * h * m + 2 * h := by ring
          have e2 : h * (2 * m' + 1) = h * (2 * m') + h := by ring
          omega
      subst h2
      have e : h * (2 * m' + 1) = 2 * h * m' + h := by ring
      exact ⟨rfl, by omega⟩
    · rintro ⟨rfl, rfl⟩
      ring
  simp only [htie]
  rcases lt_trichotomy s h with hlt | heq | hgt
  · -- Both are below the tie.
    have hlt' : (s : ℚ) + 1 ≤ h := by exact_mod_cast hlt
    have h1 : rne ((c : ℚ) / b) = m := by
      refine rne_of_lt_half ?_ ?_
      · rw [le_div_iff₀ hbq, hbh, hcq]
        linarith
      · rw [div_lt_iff₀ hbq, hbh, hcq]
        linarith
    have h2 : rne (x / b) = m := by
      refine rne_eq_of_abs_lt (div_nonneg hx hbq.le) ?_
      rw [abs_lt, lt_sub_iff_add_lt, sub_lt_iff_lt_add, lt_div_iff₀ hbq, div_lt_iff₀ hbq, hbh]
      constructor
      · linarith
      · linarith
    rw [h1, h2]
    simp only [true_iff, not_exists, not_and]
    intro m' hm'
    omega
  · -- The integer is the tie, so the value decides.
    subst heq
    have h1 : rne ((c : ℚ) / b) = m + m % 2 := by
      refine rne_of_half ?_
      rw [div_eq_iff hbq.ne', hbh, hcq]
      ring
    rw [h1]
    have hmod : m % 2 < 2 := Nat.mod_lt _ (by norm_num)
    rcases lt_trichotomy x c with hlt | heq | hgt
    · have h2 : rne (x / b) = m := by
        refine rne_of_lt_half ?_ ?_
        · rw [le_div_iff₀ hbq, hbh]
          linarith
        · rw [div_lt_iff₀ hbq, hbh]
          linarith
      rw [h2]
      constructor
      · rintro h3 ⟨m', ⟨rfl, -⟩, ⟨-, h4⟩ | ⟨h4, -⟩⟩
        · linarith
        · omega
      · intro h3
        by_contra h4
        exact h3 ⟨m, ⟨rfl, rfl⟩, Or.inr ⟨by omega, hlt⟩⟩
    · rw [heq, h1]
      simp
    · have h2 : rne (x / b) = m + 1 := by
        refine rne_of_half_lt ?_ ?_
        · rw [lt_div_iff₀ hbq, hbh]
          linarith
        · rw [div_lt_iff₀ hbq, hbh]
          linarith
      rw [h2]
      constructor
      · rintro h3 ⟨m', ⟨rfl, -⟩, ⟨h4, -⟩ | ⟨-, h4⟩⟩
        · omega
        · linarith
      · intro h3
        by_contra h4
        exact h3 ⟨m, ⟨rfl, rfl⟩, Or.inl ⟨by omega, hgt⟩⟩
  · -- Both are above the tie.
    have hgt' : (h : ℚ) + 1 ≤ s := by exact_mod_cast hgt
    have hs2 : (s : ℚ) + 1 ≤ 2 * h := by exact_mod_cast hs
    have h1 : rne ((c : ℚ) / b) = m + 1 := by
      refine rne_of_half_lt ?_ ?_
      · rw [lt_div_iff₀ hbq, hbh, hcq]
        linarith
      · rw [div_lt_iff₀ hbq, hbh, hcq]
        linarith
    have h2 : rne (x / b) = m + 1 := by
      refine rne_of_half_lt ?_ ?_
      · rw [lt_div_iff₀ hbq, hbh]
        linarith
      · rw [div_lt_iff₀ hbq, hbh]
        linarith
    rw [h1, h2]
    simp only [true_iff, not_exists, not_and]
    intro m' hm'
    omega

/-! ## Floating grids -/

/-- A floating format as a set of magnitudes: an integer below `base^precision` times a power of
the base between `least` and `most`. The base is even and the precision is at least two digits, so
that a power of the base is even as an integer of full precision. -/
structure Grid where
  /-- The base the format counts in. -/
  base : ℕ
  /-- The number of digits. -/
  precision : ℕ
  /-- The smallest power of the base that scales the integer. -/
  least : ℤ
  /-- The largest. -/
  most : ℤ
  one_lt_base : 1 < base
  base_even : base % 2 = 0
  one_lt_precision : 1 < precision
  least_le_most : least ≤ most

namespace Grid

variable (g : Grid)

variable {q r : ℤ} {x v : ℚ}

/-- The spacing of the grid at the power `q`. -/
def unit (q : ℤ) : ℚ := (g.base : ℚ) ^ q

/-- The number of integers at one power. -/
def top : ℕ := g.base ^ g.precision

/-- The magnitudes the format holds. -/
def Holds (v : ℚ) : Prop :=
  ∃ (m : ℕ) (q : ℤ), m < g.top ∧ g.least ≤ q ∧ q ≤ g.most ∧ v = m * g.unit q

/-- The magnitudes whose integer is even at the power the format keeps them at, which is the one
that makes the integer as long as the precision, or the least. -/
def EvenAt (v : ℚ) : Prop :=
  ∃ (m : ℕ) (q : ℤ), m < g.top ∧ g.least ≤ q ∧ (q = g.least ∨ g.base ^ (g.precision - 1) ≤ m) ∧
    v = m * g.unit q ∧ m % 2 = 0

/-- Half way from the largest magnitude to the one that would follow it. From here on the nearest
is an infinity. -/
def limit : ℚ := (g.top - 1 / 2) * g.unit g.most

/-- `v` is a magnitude of the format nearest `x`, and an even one when another is as near. -/
def Nearest (x v : ℚ) : Prop :=
  g.Holds v ∧ (∀ w, g.Holds w → |x - v| ≤ |x - w|) ∧
    ∀ w, g.Holds w → w ≠ v → |x - w| = |x - v| → g.EvenAt v

/-- What round to nearest with ties to even makes of the magnitude `x`: a magnitude of the format,
or `none` for an infinity. -/
def Rounds (x : ℚ) : Option ℚ → Prop
  | some v => x < g.limit ∧ g.Nearest x v
  | none => g.limit ≤ x

theorem base_pos : (0 : ℚ) < g.base := by
  have := g.one_lt_base
  exact_mod_cast (by omega : 0 < g.base)

theorem one_le_base : (1 : ℚ) ≤ g.base := by
  have := g.one_lt_base
  exact_mod_cast (by omega : 1 ≤ g.base)

theorem unit_pos (q : ℤ) : 0 < g.unit q := zpow_pos g.base_pos q

theorem unit_succ (q : ℤ) : g.unit (q + 1) = g.base * g.unit q := by
  unfold unit
  rw [zpow_add_one₀ g.base_pos.ne', mul_comm]

/-- The unit at a higher power is a multiple of the one at a lower. -/
theorem unit_of_le (h : q ≤ r) : g.unit r = (g.base ^ (r - q).toNat : ℕ) * g.unit q := by
  unfold unit
  push_cast
  rw [← zpow_natCast, ← zpow_add₀ g.base_pos.ne']
  congr 1
  omega

theorem unit_le_unit (h : q ≤ r) : g.unit q ≤ g.unit r :=
  zpow_le_zpow_right₀ g.one_le_base h

/-- A full integer is the base times a power one digit shorter. -/
theorem top_eq : g.top = g.base ^ (g.precision - 1) * g.base := by
  have := g.one_lt_precision
  rw [top, ← pow_succ]
  congr 1
  omega

theorem top_pos : 0 < g.top := Nat.pow_pos (by have := g.one_lt_base; omega)

theorem one_lt_top : 1 < g.top :=
  Nat.one_lt_pow (by have := g.one_lt_precision; omega) g.one_lt_base

/-- The power one digit shorter is even, since the precision is at least two digits. -/
theorem short_even : g.base ^ (g.precision - 1) % 2 = 0 := by
  have := g.one_lt_precision
  rw [← Nat.even_iff]
  exact (Nat.even_iff.2 g.base_even).pow_of_ne_zero (by omega)

theorem top_even : g.top % 2 = 0 := by
  have := g.one_lt_precision
  rw [top, ← Nat.even_iff]
  exact (Nat.even_iff.2 g.base_even).pow_of_ne_zero (by omega)

theorem short_lt_top : g.base ^ (g.precision - 1) < g.top := by
  have h1 := g.one_lt_precision
  exact Nat.pow_lt_pow_right g.one_lt_base (by omega)

/-- The unit of a full integer is one digit up. -/
theorem top_mul_unit (q : ℤ) : (g.top : ℚ) * g.unit q = (g.base ^ (g.precision - 1) : ℕ) * g.unit (q + 1) := by
  rw [g.unit_succ, g.top_eq]
  push_cast
  ring

/-- Zero is on every grid. -/
theorem holds_zero : g.Holds 0 :=
  ⟨0, g.least, g.top_pos, le_rfl, g.least_le_most, by simp⟩

/-- The spacing that an implementation rounds `x` at: below a full integer of units, and with as
many digits as the precision has, unless the power is the least. -/
structure Spaced (x : ℚ) (q : ℤ) : Prop where
  least_le : g.least ≤ q
  lt_top : x < g.top * g.unit q
  full : q = g.least ∨ (g.base ^ (g.precision - 1) : ℕ) * g.unit q ≤ x

/-- A magnitude of the format that is no multiple of the spacing around `x` is further from `x` than
the shortest full integer of units, which is itself a magnitude of the format. -/
theorem holds_split (hs : g.Spaced x q) {w : ℚ} (hw : g.Holds w) :
    (∃ n : ℕ, w = n * g.unit q) ∨ (w < (g.base ^ (g.precision - 1) : ℕ) * g.unit q ∧
      (g.base ^ (g.precision - 1) : ℕ) * g.unit q ≤ x) := by
  obtain ⟨m, r, hm, hr, -, rfl⟩ := hw
  rcases le_or_gt q r with h | h
  · refine Or.inl ⟨m * g.base ^ (r - q).toNat, ?_⟩
    rw [g.unit_of_le h]
    push_cast
    ring
  · refine Or.inr ⟨?_, hs.full.resolve_left (by omega)⟩
    have hmt : (m : ℚ) < g.top := by exact_mod_cast hm
    calc (m : ℚ) * g.unit r < g.top * g.unit r := mul_lt_mul_of_pos_right hmt (g.unit_pos r)
      _ = (g.base ^ (g.precision - 1) : ℕ) * g.unit (r + 1) := g.top_mul_unit r
      _ ≤ (g.base ^ (g.precision - 1) : ℕ) * g.unit q :=
          mul_le_mul_of_nonneg_left (g.unit_le_unit (by omega)) (by positivity)

/-- The distance from `x` to an integer of units, in units. -/
theorem abs_sub_mul_unit (x : ℚ) (q : ℤ) (n : ℕ) : |x - n * g.unit q| = |x / g.unit q - n| * g.unit q := by
  have hu := g.unit_pos q
  rw [← abs_of_pos hu, ← abs_mul, abs_of_pos hu, sub_mul, div_mul_cancel₀ _ hu.ne']

/-- A rounded integer of units is a magnitude of the format when `x` is below the limit. -/
theorem holds_rne (hx : 0 ≤ x) (hs : g.Spaced x q) (hq : q ≤ g.most)
    (hlim : x < g.limit) : g.Holds (rne (x / g.unit q) * g.unit q) := by
  have hu := g.unit_pos q
  have hy0 : 0 ≤ x / g.unit q := div_nonneg hx hu.le
  have hyt : x / g.unit q < g.top := (div_lt_iff₀ hu).2 hs.lt_top
  rcases (rne_le hy0 hyt.le).lt_or_eq with h | h
  · exact ⟨_, q, h, hs.least_le, hq, rfl⟩
  · -- The carry out of a full integer gives the shortest one, one power up.
    have hqm : q < g.most := by
      rcases hq.lt_or_eq with h' | rfl
      · exact h'
      · have hy : x / g.unit g.most < g.top - 1 / 2 := (div_lt_iff₀ hu).2 hlim
        have := rne_lt hy0 hy
        omega
    have hl := hs.least_le
    refine ⟨g.base ^ (g.precision - 1), q + 1, g.short_lt_top, by omega, by omega, ?_⟩
    rw [h]
    exact g.top_mul_unit q

/-- An even rounded integer of units is even at the power the format keeps it at. -/
theorem evenAt_rne (hx : 0 ≤ x) (hs : g.Spaced x q)
    (heven : rne (x / g.unit q) % 2 = 0) : g.EvenAt (rne (x / g.unit q) * g.unit q) := by
  have hu := g.unit_pos q
  have hy0 : 0 ≤ x / g.unit q := div_nonneg hx hu.le
  have hyt : x / g.unit q < g.top := (div_lt_iff₀ hu).2 hs.lt_top
  have hl := hs.least_le
  rcases (rne_le hy0 hyt.le).lt_or_eq with h | h
  · refine ⟨_, q, h, hl, hs.full.imp_right fun hf => le_rne ((le_div_iff₀ hu).2 hf), rfl, heven⟩
  · refine ⟨g.base ^ (g.precision - 1), q + 1, g.short_lt_top, by omega, Or.inr le_rfl, ?_,
      g.short_even⟩
    rw [h]
    exact g.top_mul_unit q

/-- Rounding to the nearest integer of units, at the spacing around `x`, gives the nearest magnitude
of the format. -/
theorem nearest_rne (hx : 0 ≤ x) (hs : g.Spaced x q) (hq : q ≤ g.most)
    (hlim : x < g.limit) : g.Nearest x (rne (x / g.unit q) * g.unit q) := by
  have hu := g.unit_pos q
  have hy0 : 0 ≤ x / g.unit q := div_nonneg hx hu.le
  have hbelow : ∀ w, w < (g.base ^ (g.precision - 1) : ℕ) * g.unit q →
      (g.base ^ (g.precision - 1) : ℕ) * g.unit q ≤ x →
      |x - rne (x / g.unit q) * g.unit q| < |x - w| := by
    intro w hw hs'
    have hnear : |x - rne (x / g.unit q) * g.unit q| ≤
        |x - (g.base ^ (g.precision - 1) : ℕ) * g.unit q| := by
      rw [abs_sub_mul_unit, abs_sub_mul_unit]
      exact mul_le_mul_of_nonneg_right (abs_sub_rne_le_abs_sub hy0 _) hu.le
    rw [abs_of_nonneg (by linarith : 0 ≤ x - (g.base ^ (g.precision - 1) : ℕ) * g.unit q)] at hnear
    rw [abs_of_nonneg (by linarith : 0 ≤ x - w)]
    linarith
  refine ⟨g.holds_rne hx hs hq hlim, fun w hw => ?_, fun w hw hne heq => ?_⟩
  · rcases g.holds_split hs hw with ⟨n, rfl⟩ | ⟨hlt, hs'⟩
    · rw [abs_sub_mul_unit, abs_sub_mul_unit]
      exact mul_le_mul_of_nonneg_right (abs_sub_rne_le_abs_sub hy0 n) hu.le
    · exact (hbelow w hlt hs').le
  · rcases g.holds_split hs hw with ⟨n, rfl⟩ | ⟨hlt, hs'⟩
    · rw [abs_sub_mul_unit, abs_sub_mul_unit] at heq
      have heq' := mul_right_cancel₀ hu.ne' heq
      have hn : n ≠ rne (x / g.unit q) := fun h => hne (by rw [h])
      exact g.evenAt_rne hx hs (rne_even_of_tie hy0 (abs_sub_eq_half_of_eq hy0 hn heq'))
    · exact absurd heq (hbelow w hlt hs').ne'

/-- A power above the most is a magnitude past the limit. -/
theorem limit_le_of_most_lt (hs : g.Spaced x q) (hq : g.most < q) : g.limit ≤ x := by
  have hl := g.least_le_most
  have hu := g.unit_pos g.most
  have hf := hs.full.resolve_left (by omega)
  calc g.limit ≤ g.top * g.unit g.most :=
        mul_le_mul_of_nonneg_right (by linarith) hu.le
    _ = (g.base ^ (g.precision - 1) : ℕ) * g.unit (g.most + 1) := g.top_mul_unit g.most
    _ ≤ (g.base ^ (g.precision - 1) : ℕ) * g.unit q :=
        mul_le_mul_of_nonneg_left (g.unit_le_unit (by omega)) (by positivity)
    _ ≤ x := hf

/-- At the most, `x` is past the limit exactly when it rounds to a full integer. -/
theorem limit_le_iff_rne (hx : 0 ≤ x) (hs : g.Spaced x g.most) : g.limit ≤ x ↔ rne (x / g.unit g.most) = g.top := by
  have hu := g.unit_pos g.most
  have hy0 : 0 ≤ x / g.unit g.most := div_nonneg hx hu.le
  have hyt : x / g.unit g.most < g.top := (div_lt_iff₀ hu).2 hs.lt_top
  constructor
  · intro h
    have hy : g.top - 1 / 2 ≤ x / g.unit g.most := (le_div_iff₀ hu).2 h
    have htop := g.top_pos
    have hcast : ((g.top - 1 : ℕ) : ℚ) = g.top - 1 := by
      rw [Nat.cast_sub (by omega)]
      simp
    rcases hy.eq_or_lt with heq | hlt
    · rw [rne_of_half (n := g.top - 1) (by rw [hcast]; linarith)]
      have := g.top_even
      omega
    · rw [rne_of_half_lt (n := g.top - 1) (by rw [hcast]; linarith) (by rw [hcast]; linarith)]
      omega
  · intro h
    by_contra hlt
    have hy : x / g.unit g.most < g.top - 1 / 2 := (div_lt_iff₀ hu).2 (not_le.1 hlt)
    have := rne_lt hy0 hy
    omega

/-- Scaling, rounding to an integer and scaling back is rounding on the grid: the answer is an
infinity exactly when the integer of units does not fit below the most. -/
theorem rounds_scaled (hx : 0 ≤ x) (hs : g.Spaced x q) (r : Option ℚ)
    (hinf : r = none ↔ g.most < q ∨ q = g.most ∧ rne (x / g.unit q) = g.top)
    (hfin : ∀ v, r = some v → v = rne (x / g.unit q) * g.unit q) : g.Rounds x r := by
  cases r with
  | none =>
    rcases hinf.1 rfl with h | ⟨rfl, h⟩
    · exact g.limit_le_of_most_lt hs h
    · exact (g.limit_le_iff_rne hx hs).2 h
  | some v =>
    have hno : ¬(g.most < q ∨ q = g.most ∧ rne (x / g.unit q) = g.top) := fun h => by
      have := hinf.2 h
      contradiction
    rw [not_or, not_and_or] at hno
    obtain ⟨hq, hc⟩ := hno
    have hlim : x < g.limit := by
      rcases (not_lt.1 hq).lt_or_eq with h | rfl
      · have hu := g.unit_pos g.most
        calc x < g.top * g.unit q := hs.lt_top
          _ = (g.base ^ (g.precision - 1) : ℕ) * g.unit (q + 1) := g.top_mul_unit q
          _ ≤ (g.base ^ (g.precision - 1) : ℕ) * g.unit g.most :=
              mul_le_mul_of_nonneg_left (g.unit_le_unit (by omega)) (by positivity)
          _ ≤ g.limit := by
              refine mul_le_mul_of_nonneg_right ?_ hu.le
              have h : g.base ^ (g.precision - 1) + 1 ≤ g.top := g.short_lt_top
              have : ((g.base ^ (g.precision - 1) : ℕ) : ℚ) + 1 ≤ g.top := by exact_mod_cast h
              linarith
      · have := mt (g.limit_le_iff_rne hx hs).1 (hc.resolve_left fun h => h rfl)
        exact not_le.1 this
    rw [hfin v rfl]
    exact ⟨hlim, g.nearest_rne hx hs (not_lt.1 hq) hlim⟩

/-- A magnitude of the format rounds to itself. -/
theorem rounds_self (hv : g.Holds v) : g.Rounds v (some v) := by
  refine ⟨?_, hv, fun w _ => by simp, fun w _ hne heq => ?_⟩
  · obtain ⟨m, q, hm, -, hq, rfl⟩ := hv
    have hm' : (m : ℚ) + 1 ≤ g.top := by exact_mod_cast hm
    calc (m : ℚ) * g.unit q ≤ m * g.unit g.most :=
          mul_le_mul_of_nonneg_left (g.unit_le_unit hq) (by positivity)
      _ < g.limit := mul_lt_mul_of_pos_right (by linarith) (g.unit_pos _)
  · rw [sub_self, abs_zero, abs_eq_zero] at heq
    exact absurd (by linarith) hne

/-- Zero is not what a magnitude above half of the smallest one rounds to. -/
theorem not_rounds_zero (hlo : g.unit g.least / 2 < x) : ¬ g.Rounds x (some 0) := by
  rintro ⟨-, -, hnear, -⟩
  have hu := g.unit_pos g.least
  have hheld : g.Holds (g.unit g.least) :=
    ⟨1, g.least, g.one_lt_top, le_rfl, g.least_le_most, by simp⟩
  have h := hnear _ hheld
  rw [sub_zero, abs_of_pos (by linarith)] at h
  rcases le_total x (g.unit g.least) with hle | hle
  · rw [abs_of_nonpos (by linarith)] at h
    linarith
  · rw [abs_of_nonneg (by linarith)] at h
    linarith

/-- Only one magnitude of the format is nearest with ties to even: the rounded integer of units. -/
theorem eq_of_nearest (hx : 0 ≤ x) (hs : g.Spaced x q) (hq : q ≤ g.most)
    (hlim : x < g.limit) (hv : g.Nearest x v) : v = rne (x / g.unit q) * g.unit q := by
  by_contra hne
  have hu := g.unit_pos q
  have hy0 : 0 ≤ x / g.unit q := div_nonneg hx hu.le
  obtain ⟨hheld, hnear, heven⟩ := hv
  obtain ⟨hheld', hnear', -⟩ := g.nearest_rne hx hs hq hlim
  have heq := le_antisymm (hnear _ hheld') (hnear' _ hheld)
  have hvEven := heven _ hheld' (Ne.symm hne) heq.symm
  rcases g.holds_split hs hheld with ⟨n, rfl⟩ | ⟨hlt, hs'⟩
  · -- The two integers of units are neighbours of a tie, so `n` is odd.
    rw [abs_sub_mul_unit, abs_sub_mul_unit] at heq
    have heq' := mul_right_cancel₀ hu.ne' heq
    have hn : n ≠ rne (x / g.unit q) := fun h => hne (by rw [h])
    have hhalf := abs_sub_eq_half_of_eq hy0 hn heq'
    have hrEven := rne_even_of_tie hy0 hhalf
    have hodd : n % 2 = 1 := by
      have h1 := abs_le.1 (heq'.trans hhalf).le
      have h2 := abs_le.1 hhalf.le
      have h3 : (n : ℚ) ≤ rne (x / g.unit q) + 1 := by linarith
      have h4 : (rne (x / g.unit q) : ℚ) ≤ n + 1 := by linarith
      have h5 : n ≤ rne (x / g.unit q) + 1 := by exact_mod_cast h3
      have h6 : rne (x / g.unit q) ≤ n + 1 := by exact_mod_cast h4
      omega
    -- An even magnitude kept at a power from `q` on is an even integer of units.
    obtain ⟨m, r, hm, hr, hfull, hmr, hm2⟩ := hvEven
    rcases le_or_gt q r with hqr | hqr
    · have : n = m * g.base ^ (r - q).toNat := by
        have h : (n : ℚ) * g.unit q = (m * g.base ^ (r - q).toNat : ℕ) * g.unit q := by
          rw [hmr, g.unit_of_le hqr]
          push_cast
          ring
        exact_mod_cast mul_right_cancel₀ hu.ne' h
      rw [this, Nat.mul_mod, hm2, zero_mul, Nat.zero_mod] at hodd
      omega
    · -- Kept at a power below, its integer would be too long.
      have hfx := hs.full.resolve_left (by omega)
      have hn1 : g.base ^ (g.precision - 1) ≤ n := by
        have h1 : ((g.base ^ (g.precision - 1) : ℕ) : ℚ) ≤ x / g.unit q := (le_div_iff₀ hu).2 hfx
        have h2 := abs_le.1 (heq'.trans hhalf).le
        have h3 : ((g.base ^ (g.precision - 1) : ℕ) : ℚ) < n + 1 := by linarith
        have h4 : g.base ^ (g.precision - 1) < n + 1 := by exact_mod_cast h3
        omega
      have hle : g.top ≤ m := by
        have h : ((n * g.base ^ (q - r).toNat : ℕ) : ℚ) * g.unit r = m * g.unit r := by
          rw [← hmr, g.unit_of_le hqr.le]
          push_cast
          ring
        have h' : n * g.base ^ (q - r).toNat = m := by
          exact_mod_cast mul_right_cancel₀ (g.unit_pos r).ne' h
        rw [← h', g.top_eq]
        refine Nat.mul_le_mul hn1 ?_
        obtain ⟨k, hk⟩ : ∃ k, (q - r).toNat = k + 1 := ⟨(q - r).toNat - 1, by omega⟩
        rw [hk, pow_succ]
        have hb := g.one_lt_base
        exact Nat.le_mul_of_pos_left _ (Nat.pow_pos (by omega))
      omega
  · -- A shorter magnitude is further away than the shortest full integer of units.
    have hheldS : g.Holds ((g.base ^ (g.precision - 1) : ℕ) * g.unit q) :=
      ⟨_, q, g.short_lt_top, hs.least_le, hq, rfl⟩
    have h := hnear _ hheldS
    rw [abs_of_nonneg (by linarith), abs_of_nonneg (by linarith)] at h
    linarith

/-- There is a spacing around every magnitude. -/
theorem exists_spaced (hx : 0 ≤ x) : ∃ q, g.Spaced x q := by
  have hu := g.unit_pos g.least
  rcases hx.eq_or_lt with rfl | hpos
  · have htop : (0 : ℚ) < g.top := by exact_mod_cast g.top_pos
    exact ⟨g.least, le_rfl, mul_pos htop hu, Or.inl rfl⟩
  · have hb : (1 : ℚ) < g.base := by exact_mod_cast g.one_lt_base
    obtain ⟨n, hlo, hhi⟩ := exists_mem_Ico_zpow hpos hb
    have hp := g.one_lt_precision
    -- The power that leaves as many digits as the precision has above it, if it is high enough.
    have hcast : ∀ (k : ℕ) (q : ℤ), ((g.base ^ k : ℕ) : ℚ) * g.unit q = (g.base : ℚ)^(k + q) :=
      fun k q => by
        rw [unit, zpow_add₀ g.base_pos.ne', zpow_natCast]
        push_cast
        rfl
    refine ⟨max g.least (n + 1 - g.precision), le_max_left _ _, ?_, ?_⟩
    · rw [top, hcast]
      exact lt_of_lt_of_le hhi (zpow_le_zpow_right₀ hb.le (by omega))
    · rcases le_or_gt (n + 1 - g.precision : ℤ) g.least with h | h
      · exact Or.inl (max_eq_left h)
      · refine Or.inr ?_
        rw [hcast]
        exact le_trans (zpow_le_zpow_right₀ hb.le (by omega)) hlo

/-- Rounding has one answer. -/
theorem rounds_unique (hx : 0 ≤ x) {r r' : Option ℚ} (h : g.Rounds x r) (h' : g.Rounds x r') : r = r' := by
  obtain ⟨q, hs⟩ := g.exists_spaced hx
  have hq : x < g.limit → q ≤ g.most := fun hlim => by
    by_contra hq
    exact absurd (g.limit_le_of_most_lt hs (not_le.1 hq)) (not_le.2 hlim)
  cases r with
  | none =>
    cases r' with
    | none => rfl
    | some v' => exact absurd h'.1 (not_lt.2 h)
  | some v =>
    cases r' with
    | none => exact absurd h.1 (not_lt.2 h')
    | some v' =>
      rw [g.eq_of_nearest hx hs (hq h.1) h.1 h.2, g.eq_of_nearest hx hs (hq h'.1) h'.1 h'.2]

/-- A magnitude rounds to zero exactly when it is at most half of the smallest one. -/
theorem rounds_zero_iff (hx : 0 ≤ x) : g.Rounds x (some 0) ↔ x ≤ g.unit g.least / 2 := by
  refine ⟨fun h => not_lt.1 fun hlo => g.not_rounds_zero hlo h, fun h => ?_⟩
  have hu := g.unit_pos g.least
  have htop : (1 : ℚ) < g.top := by exact_mod_cast g.one_lt_top
  have hs : g.Spaced x g.least := ⟨le_rfl, by nlinarith, Or.inl rfl⟩
  have hrne : rne (x / g.unit g.least) = 0 := by
    have hle : x / g.unit g.least ≤ 1 / 2 := by
      rw [div_le_iff₀ hu]
      linarith
    rcases hle.lt_or_eq with hlt | heq
    · exact rne_of_lt_half (by simpa using div_nonneg hx hu.le) (by simpa using hlt)
    · rw [rne_of_half (n := 0) (by rw [heq]; norm_num)]
  refine g.rounds_scaled hx hs (some 0) ?_ ?_
  · have h1 := g.one_lt_top
    have h2 := g.least_le_most
    rw [hrne]
    simp only [reduceCtorEq, false_iff]
    omega
  · intro v hv
    rw [hrne]
    simpa using hv.symm

/-- A shortest full integer of units at a power above the most is past the limit. -/
theorem limit_le_short (hq : g.most < q) : g.limit ≤ (g.base ^ (g.precision - 1) : ℕ) * g.unit q := by
  have hshort : ((g.base ^ (g.precision - 1) : ℕ) : ℚ) < g.top := by exact_mod_cast g.short_lt_top
  have hl := g.least_le_most
  exact g.limit_le_of_most_lt (q := q)
    ⟨by omega, mul_lt_mul_of_pos_right hshort (g.unit_pos q), Or.inr le_rfl⟩ hq

/-- Rounding to the integer of units around a magnitude first makes no difference. -/
theorem rounds_rne_iff (hx : 0 ≤ x) (hs : g.Spaced x q) (r : Option ℚ) :
    g.Rounds (rne (x / g.unit q) * g.unit q) r ↔ g.Rounds x r := by
  have hu := g.unit_pos q
  have hy0 : 0 ≤ x / g.unit q := div_nonneg hx hu.le
  have hfull : q = g.least ∨ g.base ^ (g.precision - 1) ≤ rne (x / g.unit q) :=
    hs.full.imp_right fun h => le_rne ((le_div_iff₀ hu).2 h)
  have hround : ∀ r', (r' = none ↔ g.most < q ∨ q = g.most ∧ rne (x / g.unit q) = g.top) →
      (∀ v, r' = some v → v = rne (x / g.unit q) * g.unit q) → g.Rounds x r' :=
    fun r' => g.rounds_scaled hx hs r'
  generalize hn : rne (x / g.unit q) = n at *
  have hnu : (0 : ℚ) ≤ n * g.unit q := mul_nonneg (Nat.cast_nonneg n) hu.le
  by_cases hinf : g.most < q ∨ q = g.most ∧ n = g.top
  · have hxn := hround none (by simp [hinf]) (by simp)
    have hyn : g.Rounds (n * g.unit q) none := by
      show g.limit ≤ _
      rcases hinf with h | ⟨rfl, h⟩
      · have hl := g.least_le_most
        have h' : ((g.base ^ (g.precision - 1) : ℕ) : ℚ) ≤ n := by
          exact_mod_cast hfull.resolve_left (by omega)
        exact (g.limit_le_short h).trans (mul_le_mul_of_nonneg_right h' hu.le)
      · rw [h]
        exact mul_le_mul_of_nonneg_right (by linarith) hu.le
    constructor
    · intro h
      rwa [g.rounds_unique hnu h hyn]
    · intro h
      rwa [g.rounds_unique hx h hxn]
  · have hxn := hround (some (n * g.unit q)) (by simp [hinf]) (by simp)
    have hyn : g.Rounds (n * g.unit q) (some (n * g.unit q)) := g.rounds_self hxn.2.1
    constructor
    · intro h
      rwa [g.rounds_unique hnu h hyn]
    · intro h
      rwa [g.rounds_unique hx h hxn]

/-- A magnitude that rounds to a positive one is within a factor of two of it. -/
theorem rounds_near (hx : 0 ≤ x) (hv0 : v ≠ 0) (h : g.Rounds x (some v)) : v ≤ 2 * x ∧ x ≤ 3 / 2 * v := by
  obtain ⟨q, hs⟩ := g.exists_spaced hx
  have hu := g.unit_pos q
  have hy0 : 0 ≤ x / g.unit q := div_nonneg hx hu.le
  have hq : q ≤ g.most := by
    by_contra hq
    exact absurd (g.limit_le_of_most_lt hs (not_le.1 hq)) (not_le.2 h.1)
  have hv := g.eq_of_nearest hx hs hq h.1 h.2
  have hr := abs_le.1 (abs_sub_rne_le hy0)
  have hr1 : (1 : ℚ) ≤ rne (x / g.unit q) := by
    have : rne (x / g.unit q) ≠ 0 := fun h0 => hv0 (by rw [hv, h0, Nat.cast_zero, zero_mul])
    exact_mod_cast Nat.one_le_iff_ne_zero.2 this
  have hxu : x = x / g.unit q * g.unit q := (div_mul_cancel₀ x hu.ne').symm
  generalize x / g.unit q = y at *
  rw [hv, hxu]
  constructor
  · nlinarith
  · nlinarith

end Grid

end Rucc.Rounding
