import Mathlib.Data.List.GetD
import Mathlib.Tactic

/-!
# Long division in a positional system

A number is a list of digits in some base, lowest first, and a window of it is the number that some
digits in a row write. `window_add` cuts a window in two, which is how a step of long division looks
at a dividend: what the digits below the window write stays as it is.

The second half is the estimate of a digit of the quotient. The top two digits of what is left over
the top digit of the divisor are never too small (`le_estimate`), a guess that fails the test on one
more digit is too big (`lt_of_over`, `lt_of_base_le`), and one that passes is at most one too big
(`le_of_not_over`). Nothing there needs the top digit of the divisor to be large.
-/

namespace Rucc.LongDivision

variable {B i : ℕ} {digits : List ℕ}

/-- Every entry is a digit of the base. -/
def Digits (B : ℕ) (digits : List ℕ) : Prop := ∀ d ∈ digits, d < B

theorem Digits.getD_lt (h : Digits B digits) (hB : 0 < B) (i : ℕ) : digits.getD i 0 < B := by
  rcases lt_or_ge i digits.length with hi | hi
  · rw [List.getD_eq_getElem _ _ hi]
    exact h _ (List.getElem_mem hi)
  · rw [List.getD_eq_default _ _ hi]
    exact hB

theorem Digits.set (h : Digits B digits) (i : ℕ) {d : ℕ} (hd : d < B) : Digits B (digits.set i d) := by
  intro x hx
  rcases List.mem_or_eq_of_mem_set hx with hx | rfl
  · exact h x hx
  · exact hd

theorem getD_set_self (hi : i < digits.length) (d : ℕ) : (digits.set i d).getD i 0 = d := by
  rw [List.getD_eq_getElem _ _ (by rw [List.length_set]; exact hi), List.getElem_set_self]

theorem getD_set_of_ne (digits : List ℕ) {k : ℕ} (hik : i ≠ k) (d : ℕ) :
    (digits.set i d).getD k 0 = digits.getD k 0 := by
  rw [List.getD_eq_getElem?_getD, List.getD_eq_getElem?_getD, List.getElem?_set_ne hik]

theorem getElem?_eq_getD (hi : i < digits.length) : digits[i]? = some (digits.getD i 0) := by
  rw [List.getD_eq_getElem _ _ hi, List.getElem?_eq_getElem hi]

/-! ## Windows -/

/-- The number that the `count` digits from place `first` on write. -/
def window (B : ℕ) (digits : List ℕ) (first count : ℕ) : ℕ :=
  ∑ i ∈ Finset.range count, digits.getD (first + i) 0 * B^i

@[simp]
theorem window_zero (B : ℕ) (digits : List ℕ) (first : ℕ) : window B digits first 0 = 0 := rfl

theorem window_succ (B : ℕ) (digits : List ℕ) (first count : ℕ) : window B digits first (count + 1) =
      window B digits first count + digits.getD (first + count) 0 * B^count :=
  Finset.sum_range_succ _ _

@[simp]
theorem window_one (B : ℕ) (digits : List ℕ) (first : ℕ) : window B digits first 1 = digits.getD first 0 := by
  simp [window]

/-- A window cut in two. -/
theorem window_add (B : ℕ) (digits : List ℕ) (first low high : ℕ) : window B digits first (low + high) =
      window B digits first low + B^low * window B digits (first + low) high := by
  unfold window
  rw [Finset.sum_range_add, Finset.mul_sum]
  congr 1
  refine Finset.sum_congr rfl fun i _ => ?_
  rw [pow_add, add_assoc]
  ring

/-- A window is about the digits in it. -/
theorem window_congr (B : ℕ) {digits' : List ℕ} {first count : ℕ}
    (h : ∀ i < count, digits.getD (first + i) 0 = digits'.getD (first + i) 0) :
    window B digits first count = window B digits' first count :=
  Finset.sum_congr rfl fun i hi => by rw [h i (Finset.mem_range.mp hi)]

/-- A window of `count` digits is below the base to that power. -/
theorem window_lt (h : Digits B digits) (hB : 0 < B) (first count : ℕ) : window B digits first count < B^count := by
  induction count with
  | zero => simp
  | succ count ih =>
    have hd : digits.getD (first + count) 0 + 1 ≤ B := h.getD_lt hB _
    calc window B digits first (count + 1)
        = window B digits first count + digits.getD (first + count) 0 * B^count :=
          window_succ _ _ _ _
      _ < B^count + digits.getD (first + count) 0 * B^count := Nat.add_lt_add_right ih _
      _ = (digits.getD (first + count) 0 + 1) * B^count := by ring
      _ ≤ B * B^count := Nat.mul_le_mul_right _ hd
      _ = B^(count + 1) := by rw [pow_succ, mul_comm]

/-- The digits above the first one. -/
theorem window_cons (B d : ℕ) (digits : List ℕ) (first count : ℕ) :
    window B (d :: digits) (first + 1) count = window B digits first count :=
  Finset.sum_congr rfl fun i _ => by rw [Nat.add_right_comm, List.getD_cons_succ]

/-- A number and its lowest digit. -/
theorem window_cons_zero (B d : ℕ) (digits : List ℕ) (count : ℕ) :
    window B (d :: digits) 0 (count + 1) = d + B * window B digits 0 count := by
  rw [add_comm count, window_add, window_one, List.getD_cons_zero, pow_one, window_cons]

/-- The top two digits of a window of at least two. -/
theorem window_two (B : ℕ) (digits : List ℕ) (first low : ℕ) : window B digits first (low + 2) =
      (digits.getD (first + low + 1) 0 * B + digits.getD (first + low) 0) * B^low +
        window B digits first low := by
  rw [window_succ, window_succ, pow_succ, ← add_assoc]
  ring

/-- The top three digits of a window of at least three. -/
theorem window_three (B : ℕ) (digits : List ℕ) (first low : ℕ) : window B digits first (low + 3) =
      ((digits.getD (first + low + 2) 0 * B + digits.getD (first + low + 1) 0) * B +
          digits.getD (first + low) 0) * B^low + window B digits first low := by
  rw [window_succ, window_two, pow_add, ← add_assoc]
  ring

/-! ## The estimate -/

section Estimate

variable {B P R V v₁ v₂ v' u₀ u₁ u₂ r' guess rest : ℕ}

variable {left : ℕ}

/-- What is left starts with no more than the divisor does. -/
theorem top_le (hV : V = (v₁ * B + v₂) * P + v') (hR : R = ((u₀ * B + u₁) * B + u₂) * P + r')
    (hv₂ : v₂ < B) (hv' : v' < P) (hlt : R < V * B) : u₀ ≤ v₁ := by
  by_contra! h
  have hB : 0 < B := by omega
  have hV' : V ≤ (v₁ + 1) * B * P := by
    calc V ≤ (v₁ * B + v₂) * P + P := by omega
      _ = (v₁ * B + (v₂ + 1)) * P := by ring
      _ ≤ (v₁ * B + B) * P := Nat.mul_le_mul_right _ (by omega)
      _ = (v₁ + 1) * B * P := by ring
  have hle : V * B ≤ R :=
    calc V * B ≤ (v₁ + 1) * B * P * B := Nat.mul_le_mul_right _ hV'
      _ ≤ u₀ * B * P * B := by gcongr; omega
      _ ≤ u₀ * B * P * B + ((u₁ * B + u₂) * P + r') := Nat.le_add_right _ _
      _ = R := by rw [hR]; ring
  omega

/-- The estimate is never too small. -/
theorem le_estimate (hV : V = (v₁ * B + v₂) * P + v')
    (hR : R = ((u₀ * B + u₁) * B + u₂) * P + r') (hu₂ : u₂ < B) (hr' : r' < P) (hv₁ : 0 < v₁) :
    R / V ≤ (u₀ * B + u₁) / v₁ := by
  have hP : 0 < B * P := Nat.mul_pos (by omega) (by omega)
  have hR' : R / (B * P) ≤ u₀ * B + u₁ := by
    rw [← Nat.lt_succ_iff, Nat.div_lt_iff_lt_mul hP]
    calc R < (((u₀ * B + u₁) * B + u₂) + 1) * P := by rw [hR, add_mul _ 1, one_mul]; omega
      _ ≤ (u₀ * B + u₁ + 1) * B * P := Nat.mul_le_mul_right _ (by rw [add_mul _ 1, one_mul]; omega)
      _ = (u₀ * B + u₁).succ * (B * P) := by rw [Nat.succ_eq_add_one, mul_assoc]
  calc R / V ≤ R / (B * P * v₁) := by
        refine Nat.div_le_div_left ?_ (Nat.mul_pos hP hv₁)
        calc B * P * v₁ = v₁ * B * P := by ring
          _ ≤ V := by rw [hV, add_mul]; omega
    _ = R / (B * P) / v₁ := (Nat.div_div_eq_div_mul _ _ _).symm
    _ ≤ (u₀ * B + u₁) / v₁ := Nat.div_le_div_right hR'

/-- No digit of the quotient reaches the base. -/
theorem lt_of_base_le (hlt : R < V * B) (h : B ≤ guess) : R / V < guess :=
  ((Nat.div_lt_iff_lt_mul (Nat.pos_of_ne_zero fun h0 => by simp [h0] at hlt)).mpr
    (by rwa [mul_comm])).trans_le h

/-- A guess that the third digit shows to be too big is. -/
theorem lt_of_over (hV : V = (v₁ * B + v₂) * P + v') (hR : R = ((u₀ * B + u₁) * B + u₂) * P + r')
    (hr' : r' < P) (hv₁ : 0 < v₁) (hB : 0 < B) (hguess : guess * v₁ + rest = u₀ * B + u₁)
    (h : rest * B + u₂ < guess * v₂) : R / V < guess := by
  have hVpos : 0 < V := by
    rw [hV]
    have : 0 < v₁ * B := Nat.mul_pos hv₁ hB
    have : 0 < (v₁ * B + v₂) * P := Nat.mul_pos (by omega) (by omega)
    omega
  rw [Nat.div_lt_iff_lt_mul hVpos]
  have hover : (u₀ * B + u₁) * B + u₂ + 1 ≤ guess * (v₁ * B + v₂) := by
    calc (u₀ * B + u₁) * B + u₂ + 1 = guess * v₁ * B + (rest * B + u₂ + 1) := by
          rw [← hguess]; ring
      _ ≤ guess * v₁ * B + guess * v₂ := by omega
      _ = guess * (v₁ * B + v₂) := by ring
  calc R < ((u₀ * B + u₁) * B + u₂ + 1) * P := by rw [hR, add_mul _ 1, one_mul]; omega
    _ ≤ guess * (v₁ * B + v₂) * P := Nat.mul_le_mul_right _ hover
    _ ≤ guess * V := by rw [hV, mul_assoc]; exact Nat.mul_le_mul_left _ (Nat.le_add_right _ _)

/-- A guess that the third digit does not show to be too big is at most one too big. -/
theorem le_of_not_over (hV : V = (v₁ * B + v₂) * P + v')
    (hR : R = ((u₀ * B + u₁) * B + u₂) * P + r') (hv' : v' < P) (hv₁ : 0 < v₁) (hlt : guess < B)
    (hguess : guess * v₁ + rest = u₀ * B + u₁) (h : guess * v₂ ≤ rest * B + u₂) :
    guess ≤ R / V + 1 := by
  have hBV : B * P ≤ V := by
    calc B * P ≤ v₁ * B * P := Nat.mul_le_mul_right _ (Nat.le_mul_of_pos_left _ hv₁)
      _ ≤ V := by rw [hV, add_mul]; omega
  have hVpos : 0 < V := lt_of_lt_of_le (Nat.mul_pos (by omega) (by omega)) hBV
  have hpass : guess * (v₁ * B + v₂) ≤ (u₀ * B + u₁) * B + u₂ := by
    calc guess * (v₁ * B + v₂) = guess * v₁ * B + guess * v₂ := by ring
      _ ≤ guess * v₁ * B + (rest * B + u₂) := Nat.add_le_add_left h _
      _ = (u₀ * B + u₁) * B + u₂ := by rw [← hguess]; ring
  have hmul : guess * V ≤ R + V :=
    calc guess * V = guess * (v₁ * B + v₂) * P + guess * v' := by rw [hV]; ring
      _ ≤ ((u₀ * B + u₁) * B + u₂) * P + B * P := by gcongr
      _ ≤ R + V := by rw [hR]; omega
  rw [← Nat.add_div_right _ hVpos, Nat.le_div_iff_mul_le hVpos]
  exact hmul

/-- A guess that can be taken off without a borrow out of the top is the digit. -/
theorem digit_of_fits (hV : 0 < V) (hle : R / V ≤ guess) (h : left + guess * V = R) :
    guess = R / V ∧ left = R % V := by
  have hguess : guess = R / V :=
    le_antisymm ((Nat.le_div_iff_mul_le hV).mpr (by omega)) hle
  have := Nat.div_add_mod R V
  rw [mul_comm, ← hguess] at this
  exact ⟨hguess, by omega⟩

/-- A guess that cannot be is one more than the digit, and what is left is the divisor short of the
remainder, around the end of the window. -/
theorem digit_of_borrow {M : ℕ} {borrow : ℤ} (hV : 0 < V) (hVM : V ≤ M) (hR : R < M)
    (hleft : left < M) (hhigh : guess ≤ R / V + 1)
    (h : (left : ℤ) + guess * V = R - borrow * M) (hborrow : borrow ≠ 0) :
    guess = R / V + 1 ∧ left + V = R % V + M := by
  have hdiv := Nat.div_add_mod R V
  have hmod := Nat.mod_lt R hV
  have hover : R < guess * V := by
    by_contra! hle
    have hle' : (guess : ℤ) * V ≤ R := by exact_mod_cast hle
    rcases lt_or_gt_of_ne hborrow with hneg | hpos
    · have : borrow * M ≤ -1 * M := Int.mul_le_mul_of_nonneg_right (by omega) (by omega)
      have : (0 : ℤ) ≤ guess * V := by positivity
      omega
    · have : 1 * (M : ℤ) ≤ borrow * M := Int.mul_le_mul_of_nonneg_right (by omega) (by omega)
      omega
  have hguess : guess = R / V + 1 :=
    le_antisymm hhigh ((Nat.div_lt_iff_lt_mul hV).mpr hover)
  refine ⟨hguess, ?_⟩
  have hmul : (guess : ℤ) * V = R - R % V + V := by
    rw [hguess]
    push_cast
    have : (V : ℤ) * (R / V) + R % V = R := by exact_mod_cast hdiv
    linarith
  have hmod' : ((R % V : ℕ) : ℤ) = R % V := by push_cast; rfl
  have hone : borrow = -1 := by
    by_contra hne
    rcases lt_or_gt_of_ne hborrow with hneg | hpos
    · have : borrow * M ≤ -2 * M := Int.mul_le_mul_of_nonneg_right (by omega) (by omega)
      omega
    · have : 1 * (M : ℤ) ≤ borrow * M := Int.mul_le_mul_of_nonneg_right (by omega) (by omega)
      omega
  rw [hone] at h
  omega

end Estimate

end Rucc.LongDivision
