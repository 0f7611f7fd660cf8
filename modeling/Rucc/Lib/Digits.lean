import Rucc.Lib.Rounding

/-!
# Runs of decimal digits

A run of digits, most significant first, is read as the integer it writes. Dropping the end of a run
rounds the rest to nearest with ties to even when the dropped digits say so: a first one above five,
or a five with something after it, or a five alone behind an odd digit. `roundsUp_spec` says that this
is `rne` of the run scaled down.
-/

namespace Rucc.Digits

open Rounding

variable {digits : List ℕ} {d : ℕ}

/-- The integer a run of digits writes. -/
def value (digits : List ℕ) : ℕ := digits.foldl (fun value d => value * 10 + d) 0

/-- Every entry of the run is a digit. -/
def Decimal (digits : List ℕ) : Prop := ∀ d ∈ digits, d < 10

@[simp] theorem value_nil : value [] = 0 := rfl

/-- A run read after an integer that was already read. -/
theorem foldl_eq (digits : List ℕ) (v : ℕ) :
    digits.foldl (fun value d => value * 10 + d) v = v * 10^digits.length + value digits := by
  unfold value
  induction digits generalizing v with
  | nil => simp
  | cons d digits ih =>
    rw [List.foldl_cons, List.foldl_cons, ih, ih (0 * 10 + d), List.length_cons, pow_succ]
    ring

/-- The first digit counts as many tens as digits follow it. -/
theorem value_cons (d : ℕ) (digits : List ℕ) : value (d :: digits) = d * 10^digits.length + value digits := by
  rw [value, List.foldl_cons, foldl_eq, zero_mul, zero_add]

/-- Two runs side by side. -/
theorem value_append (kept dropped : List ℕ) :
    value (kept ++ dropped) = value kept * 10^dropped.length + value dropped := by
  rw [value, List.foldl_append, foldl_eq]
  rfl

/-- Zeros in front count for nothing. -/
theorem value_dropWhile (digits : List ℕ) : value (digits.dropWhile (· = 0)) = value digits := by
  induction digits with
  | nil => rfl
  | cons d digits ih =>
    rw [List.dropWhile_cons]
    by_cases h : d = 0
    · simp only [h, decide_true, if_true]
      rw [ih, value_cons, zero_mul, zero_add]
    · simp [h]

theorem Decimal.append {a b : List ℕ} : Decimal (a ++ b) ↔ Decimal a ∧ Decimal b := by
  simp [Decimal, or_imp, forall_and]

theorem Decimal.dropWhile (h : Decimal digits) : Decimal (digits.dropWhile (· = 0)) := fun d hd =>
  h d ((List.dropWhile_sublist _).subset hd)

/-- A run of digits is below the next power of ten. -/
theorem value_lt (h : Decimal digits) : value digits < 10^digits.length := by
  induction digits with
  | nil => simp
  | cons d digits ih =>
    have hd : d < 10 := h d (by simp)
    have hih := ih fun x hx => h x (by simp [hx])
    rw [value_cons, List.length_cons, pow_succ]
    calc d * 10^digits.length + value digits < d * 10^digits.length + 10^digits.length := by omega
      _ = (d + 1) * 10^digits.length := by ring
      _ ≤ 10 * 10^digits.length := Nat.mul_le_mul_right _ hd
      _ = 10^digits.length * 10 := mul_comm _ _

/-- A run that starts with a digit other than zero has that many digits. -/
theorem le_value (digits : List ℕ) (hd : d ≠ 0) : 10^digits.length ≤ value (d :: digits) := by
  rw [value_cons]
  calc 10^digits.length = 1 * 10^digits.length := (one_mul _).symm
    _ ≤ d * 10^digits.length := Nat.mul_le_mul_right _ (Nat.one_le_iff_ne_zero.2 hd)
    _ ≤ _ := Nat.le_add_right _ _

/-- The first digit of a run without zeros in front is not zero. -/
theorem ne_zero_of_dropWhile {rest : List ℕ} (h : digits.dropWhile (· = 0) = d :: rest) : d ≠ 0 := by
  have := List.head?_dropWhile_not (· = 0) digits
  rw [h] at this
  simpa using this

/-- A run is zero exactly when all of its digits are. -/
theorem value_eq_zero : value digits = 0 ↔ ∀ d ∈ digits, d = 0 := by
  induction digits with
  | nil => simp
  | cons d digits ih =>
    rw [value_cons, Nat.add_eq_zero_iff, ih, Nat.mul_eq_zero]
    simp

/-- The parity of a run is that of its last digit. -/
theorem value_mod_two (digits : List ℕ) : value digits % 2 = (digits.getLast?.getD 0) % 2 := by
  rcases List.eq_nil_or_concat digits with rfl | ⟨init, d, rfl⟩
  · rfl
  · rw [List.concat_eq_append, value_append, List.getLast?_append_of_ne_nil _ (by simp)]
    simp [value]
    omega

/-- The digit below an integer, and whether anything is below that digit, decide the rounding to
nearest with ties to even. -/
theorem rne_digit {n r k : ℕ} (hd : d < 10) (hr : r < 10^k) :
    rne (((n * 10^(k + 1) + (d * 10^k + r) : ℕ) : ℚ) / 10^(k + 1)) =
      n + (decide (5 < d) || (decide (d = 5) && (decide (r ≠ 0) || decide (n % 2 = 1)))).toNat := by
  have hD : (0 : ℚ) < 10^k := by positivity
  have h2D : (0 : ℚ) < 10^(k + 1) := by positivity
  have hpow : (10 : ℚ)^(k + 1) = 10 * 10^k := pow_succ' _ _
  have hR : (r : ℚ) < 10^k := by exact_mod_cast hr
  have hR0 : (0 : ℚ) ≤ r := Nat.cast_nonneg _
  have hx : ((n * 10^(k + 1) + (d * 10^k + r) : ℕ) : ℚ) = n * 10^(k + 1) + (d * 10^k + r) := by
    push_cast
    ring
  rw [hx]
  have hlo : (n : ℚ) ≤ (n * 10^(k + 1) + (d * 10^k + r)) / 10^(k + 1) := by
    rw [le_div_iff₀ h2D]
    have : (0 : ℚ) ≤ d * 10^k := by positivity
    linarith
  have hhi : (n * 10^(k + 1) + (d * 10^k + r)) / 10^(k + 1) < (n : ℚ) + 1 := by
    rw [div_lt_iff₀ h2D, hpow]
    have : ((d : ℕ) : ℚ) ≤ 9 := by exact_mod_cast Nat.le_of_lt_succ hd
    nlinarith
  rcases lt_trichotomy d 5 with hlt | rfl | hgt
  · -- Below half.
    have h1 : ¬ 5 < d := by omega
    have h2 : d ≠ 5 := by omega
    simp only [h1, h2, decide_false, Bool.false_and, Bool.or_self, Bool.toNat_false, add_zero]
    refine rne_of_lt_half hlo ?_
    rw [div_lt_iff₀ h2D, hpow]
    have : ((d : ℕ) : ℚ) ≤ 4 := by exact_mod_cast Nat.le_of_lt_succ hlt
    nlinarith
  · rcases Nat.eq_zero_or_pos r with rfl | hpos
    · -- Half way.
      rw [rne_of_half (n := n)]
      · rcases Nat.mod_two_eq_zero_or_one n with h0 | h1
        · simp [h0]
        · simp [h1]
      · rw [div_eq_iff h2D.ne', hpow]
        push_cast
        ring
    · -- Above half, by what is below the five.
      have hr' : (0 : ℚ) < r := by exact_mod_cast hpos
      rw [rne_of_half_lt (n := n) ?_ hhi]
      · simp [hpos.ne']
      · rw [lt_div_iff₀ h2D, hpow]
        push_cast
        nlinarith
  · rw [rne_of_half_lt (n := n) ?_ hhi]
    · simp [hgt]
    · rw [lt_div_iff₀ h2D, hpow]
      have : (6 : ℚ) ≤ (d : ℕ) := by exact_mod_cast hgt
      nlinarith

/-- Whether dropping `dropped` off the end of `kept` rounds the kept digits up, to nearest with ties
to even. -/
def roundsUp (kept dropped : List ℕ) : Bool :=
  match dropped with
  | [] => false
  | first :: rest =>
    if 5 < first then true
    else if first = 5 then rest.any (· ≠ 0) || kept.getLast?.any (· % 2 = 1)
    else false

/-- The dropped digits decide the rounding to nearest with ties to even. -/
theorem roundsUp_spec (kept : List ℕ) {dropped : List ℕ} (h : Decimal dropped) :
    rne ((value (kept ++ dropped) : ℚ) / 10^dropped.length) =
      value kept + (roundsUp kept dropped).toNat := by
  cases dropped with
  | nil =>
    rw [List.append_nil, List.length_nil, pow_zero, div_one, rne_natCast]
    rfl
  | cons first rest =>
    have hfirst : first < 10 := h first (by simp)
    have hrest := value_lt fun x hx => h x (List.mem_cons_of_mem first hx)
    have hodd : kept.getLast?.any (· % 2 = 1) = decide (value kept % 2 = 1) := by
      rw [value_mod_two]
      cases kept.getLast? <;> simp
    have hany : rest.any (· ≠ 0) = decide (value rest ≠ 0) := by
      rw [eq_comm, Bool.eq_iff_iff]
      simp [value_eq_zero]
    have hup : roundsUp kept (first :: rest) = (decide (5 < first) || (decide (first = 5) &&
        (decide (value rest ≠ 0) || decide (value kept % 2 = 1)))) := by
      rw [← hodd, ← hany]
      unfold roundsUp
      dsimp only
      split_ifs with h1 h2
      · simp [h1]
      · simp [h2]
      · simp [h1, h2]
    rw [hup, value_append, value_cons, List.length_cons]
    exact rne_digit hfirst hrest

end Rucc.Digits
