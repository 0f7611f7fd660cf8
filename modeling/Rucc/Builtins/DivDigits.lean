import Rucc.Builtins.Div

/-!
# The digits of a value

What the digit operations of `Rucc.Builtins.Div` do to the number that the digits write: `split`
and `join` are the two directions of one reading, `shiftUp` multiplies by a power of two,
`shiftDown` divides by it, and `divideDigit` divides by a single digit.
-/

namespace Rucc.Builtins.Div

open LongDivision U128

variable {digits : List ℕ} {digit v by_ : ℕ}

/-- The value of a whole list of digits. -/
def value (digits : List ℕ) : ℕ := window BASE digits 0 digits.length

theorem value_cons (digit : ℕ) (digits : List ℕ) : value (digit :: digits) = digit + BASE * value digits := by
  rw [value, List.length_cons, window_cons_zero]
  rfl

@[simp] theorem value_nil : value [] = 0 := rfl

theorem value_lt (h : Digits BASE digits) : value digits < BASE^digits.length :=
  window_lt h (by decide) _ _

theorem Digits.of_cons {B : ℕ} (h : Digits B (digit :: digits)) : digit < B ∧ Digits B digits :=
  ⟨h _ (by simp), fun d hd => h d (by simp [hd])⟩

theorem Digits.cons {B digit : ℕ} {digits : List ℕ} (hd : digit < B) (h : Digits B digits) :
    Digits B (digit :: digits) := by
  intro d hmem
  rcases List.mem_cons.mp hmem with rfl | hmem
  · exact hd
  · exact h d hmem

/-- Two halves of a word side by side. -/
theorem word_eq {high low : ℕ} (hh : high < BASE) (hl : low < BASE) :
    (high <<< 32) % 2^64 ||| low = high * BASE + low := by
  unfold BASE at hh hl ⊢
  rw [Nat.mod_eq_of_lt (by rw [Nat.shiftLeft_eq]; omega), ← Nat.shiftLeft_add_eq_or_of_lt hl,
    Nat.shiftLeft_eq]

/-! ## Splitting and joining -/

@[simp] theorem split_length (v : ℕ) : (split v).length = 4 := by simp [split, DIGITS]

theorem split_digits (v : ℕ) : Digits BASE (split v) := by
  intro d hd
  obtain ⟨i, -, rfl⟩ := List.mem_map.mp hd
  exact Nat.mod_lt _ (by decide)

theorem split_getD (v : ℕ) {i : ℕ} (hi : i < 4) : (split v).getD i 0 = v / BASE^i % BASE := by
  rw [List.getD_eq_getElem _ _ (by simpa using hi)]
  simp only [split, List.getElem_map, List.getElem_range]
  rw [Nat.shiftRight_eq_div_pow, pow_mul]
  rfl

/-- The low digits of a value are the value cut to them. -/
theorem window_split (v : ℕ) {count : ℕ} (h : count ≤ 4) : window BASE (split v) 0 count = v % BASE^count := by
  induction count with
  | zero => simp [Nat.mod_one]
  | succ count ih =>
    rw [window_succ, ih (by omega), zero_add, split_getD v h, Nat.mod_pow_succ, mul_comm]

theorem value_split (hv : v < 2^128) : value (split v) = v := by
  rw [value, split_length, window_split v le_rfl]
  exact Nat.mod_eq_of_lt hv

theorem join_append : join (digits ++ [digit]) = join digits ||| U128.shiftLeft digit (32 * digits.length) := by
  simp [join, List.zipIdx_append]

/-- Up to four digits are the value they write. -/
theorem join_eq (h : Digits BASE digits) (hlen : digits.length ≤ 4) : join digits = value digits := by
  induction digits using List.reverseRecOn with
  | nil => rfl
  | append_singleton digits digit ih =>
    rw [List.length_append, List.length_singleton] at hlen
    have hdigits : Digits BASE digits := fun d hd => h d (by simp [hd])
    have hdigit : digit < BASE := h digit (by simp)
    have hlow := value_lt hdigits
    have hpow : BASE^digits.length = 2^(32 * digits.length) := by rw [BASE, ← pow_mul]
    have hfits : digit <<< (32 * digits.length) < 2^128 := by
      rw [Nat.shiftLeft_eq]
      calc digit * 2^(32 * digits.length) < 2^32 * 2^(32 * digits.length) :=
            Nat.mul_lt_mul_of_pos_right hdigit (by positivity)
        _ = 2^(32 + 32 * digits.length) := (pow_add _ _ _).symm
        _ ≤ 2^128 := Nat.pow_le_pow_right (by norm_num) (by omega)
    rw [join_append, ih hdigits (by omega), U128.shiftLeft, Nat.mod_eq_of_lt hfits, Nat.or_comm,
      ← Nat.shiftLeft_add_eq_or_of_lt (by rw [← hpow]; exact hlow), Nat.shiftLeft_eq, ← hpow]
    have hsame : window BASE (digits ++ [digit]) 0 digits.length = value digits :=
      window_congr _ fun i hi => by
        rw [zero_add, List.getD_append _ _ _ _ hi]
    have hall : value (digits ++ [digit]) = value digits + digit * BASE^digits.length := by
      rw [value, List.length_append, List.length_singleton, window_succ, hsame, zero_add,
        List.getD_append_right _ _ _ _ le_rfl, Nat.sub_self, List.getD_cons_zero]
    rw [hall, add_comm]

/-! ## The digits that count -/

theorem usedFrom_spec {digits : List ℕ} {n : ℕ} (hn : n ≤ digits.length) :
    ∃ m ≤ n, usedFrom digits n = some m ∧ (∀ i, m ≤ i → i < n → digits.getD i 0 = 0) ∧
      (m ≠ 0 → digits.getD (m - 1) 0 ≠ 0) := by
  induction n with
  | zero => exact ⟨0, le_rfl, rfl, by omega, by simp⟩
  | succ n ih =>
    rw [usedFrom, getElem?_eq_getD (by omega)]
    by_cases h0 : digits.getD n 0 = 0
    · obtain ⟨m, hm, heq, hzero, hhigh⟩ := ih (by omega)
      refine ⟨m, by omega, ?_, ?_, hhigh⟩
      · simpa only [Option.bind_eq_bind, Option.bind_some, if_pos h0] using heq
      · intro i hi hin
        rcases Nat.lt_succ_iff_lt_or_eq.mp hin with hin | rfl
        · exact hzero i hi hin
        · exact h0
    · refine ⟨n + 1, le_rfl, ?_, by omega, ?_⟩
      · simp only [Option.bind_eq_bind, Option.bind_some, if_neg h0]
      · intro _
        exact h0

/-- The digits that count write the whole value, and the top one of them is not zero. -/
theorem used_split (hv : v < 2^128) : ∃ m ≤ 4, used (split v) = some m ∧ v = window BASE (split v) 0 m ∧
      (m ≠ 0 → (split v).getD (m - 1) 0 ≠ 0) := by
  obtain ⟨m, hm, heq, hzero, hhigh⟩ := @usedFrom_spec (split v) 4 (by simp)
  refine ⟨m, hm, heq, ?_, hhigh⟩
  have hrest : window BASE (split v) (0 + m) (4 - m) = 0 :=
    Finset.sum_eq_zero fun i hi => by
      rw [Finset.mem_range] at hi
      rw [hzero _ (by omega) (by omega), zero_mul]
  have hall := value_split hv
  rw [value, split_length, show 4 = m + (4 - m) by omega, window_add, hrest, mul_zero,
    add_zero] at hall
  exact hall.symm

/-! ## Shifting -/

/-- One digit moved up, with what the digit below gave up. -/
theorem shiftUp_digit {carry : ℕ} (hby : by_ < 32) (hcarry : carry < 2^by_) :
    ((digit <<< by_) % BASE ||| carry) = digit * 2^by_ % BASE + carry := by
  have hsplit : BASE = 2^by_ * 2^(32 - by_) := by rw [← pow_add, BASE]; congr 1; omega
  have hmod : (digit <<< by_) % BASE = (digit % 2^(32 - by_)) <<< by_ := by
    rw [Nat.shiftLeft_eq, Nat.shiftLeft_eq, hsplit, mul_comm digit, Nat.mul_mod_mul_left, mul_comm]
  rw [hmod, ← Nat.shiftLeft_add_eq_or_of_lt hcarry, ← hmod, Nat.shiftLeft_eq]

/-- The bits that a digit gives up. -/
theorem shiftUp_carry (hby : by_ < 32) (hdigit : digit < BASE) :
    (if by_ = 0 then 0 else digit >>> (32 - by_)) = digit * 2^by_ / BASE := by
  split_ifs with h0
  · rw [h0, pow_zero, mul_one, Nat.div_eq_of_lt hdigit]
  · have hsplit : BASE = 2^(32 - by_) * 2^by_ := by rw [← pow_add, BASE]; congr 1; omega
    rw [Nat.shiftRight_eq_div_pow, hsplit, Nat.mul_div_mul_right _ _ (by positivity)]

theorem shiftUpFrom_spec {by_ : ℕ} (hby : by_ < 32) {digits : List ℕ} (h : Digits BASE digits)
    {carry : ℕ} (hcarry : carry < 2^by_) :
    (shiftUpFrom by_ digits carry).length = digits.length + 1 ∧
      Digits BASE (shiftUpFrom by_ digits carry) ∧
      value (shiftUpFrom by_ digits carry) = value digits * 2^by_ + carry := by
  have hpow : 2^by_ ≤ BASE := Nat.pow_le_pow_right (by norm_num) (by omega)
  induction digits generalizing carry with
  | nil =>
    refine ⟨rfl, ?_, ?_⟩
    · exact Digits.cons (by omega) (by simp [Digits])
    · rw [shiftUpFrom, value_cons, value_nil]
      omega
  | cons digit digits ih =>
    obtain ⟨hdigit, hdigits⟩ := Digits.of_cons h
    rw [shiftUpFrom, shiftUp_digit hby hcarry, shiftUp_carry hby hdigit]
    have hnext : digit * 2^by_ / BASE < 2^by_ := by
      rw [Nat.div_lt_iff_lt_mul (by decide), mul_comm]
      exact Nat.mul_lt_mul_of_pos_left hdigit (by positivity)
    obtain ⟨hlen, hd, hv⟩ := ih hdigits hnext
    refine ⟨by rw [List.length_cons, hlen, List.length_cons], Digits.cons ?_ hd, ?_⟩
    · -- A multiple of `2^by_` below the base leaves room for what comes from below.
      have hsplit : BASE = 2^by_ * 2^(32 - by_) := by rw [← pow_add, BASE]; congr 1; omega
      have hmod : digit * 2^by_ % BASE = 2^by_ * (digit % 2^(32 - by_)) := by
        rw [hsplit, mul_comm digit, Nat.mul_mod_mul_left]
      have hle : digit % 2^(32 - by_) + 1 ≤ 2^(32 - by_) := Nat.mod_lt _ (by positivity)
      calc digit * 2^by_ % BASE + carry < 2^by_ * (digit % 2^(32 - by_)) + 2^by_ := by
            rw [hmod]; omega
        _ = 2^by_ * (digit % 2^(32 - by_) + 1) := by ring
        _ ≤ 2^by_ * 2^(32 - by_) := Nat.mul_le_mul_left _ hle
        _ = BASE := hsplit.symm
    · rw [value_cons, hv, value_cons]
      have := Nat.mod_add_div (digit * 2^by_) BASE
      calc digit * 2^by_ % BASE + carry + BASE * (value digits * 2^by_ + digit * 2^by_ / BASE)
          = digit * 2^by_ % BASE + BASE * (digit * 2^by_ / BASE) + BASE * value digits * 2^by_ +
              carry := by ring
        _ = (digit + BASE * value digits) * 2^by_ + carry := by rw [this]; ring

/-- Shifted up by fewer bits than a digit has, nothing is lost. -/
theorem shiftUp_spec (hby : by_ < 32) (h : Digits BASE digits) :
    ∃ out, shiftUp digits by_ = some out ∧ out.length = digits.length + 1 ∧ Digits BASE out ∧
      value out = value digits * 2^by_ := by
  obtain ⟨hlen, hd, hv⟩ := @shiftUpFrom_spec by_ hby digits h 0 (by positivity)
  exact ⟨_, if_pos hby, hlen, hd, hv⟩

/-- One digit moved down, with what the digit above gives it. -/
theorem shiftDown_digit {next : ℕ} (hby : by_ < 32) (hdigit : digit < BASE) :
    (digit >>> by_ ||| if by_ = 0 then 0 else (next <<< (32 - by_)) % BASE) =
      digit / 2^by_ + next % 2^by_ * 2^(32 - by_) := by
  split_ifs with h0
  · rw [h0, pow_zero, Nat.mod_one, zero_mul, Nat.or_zero, Nat.shiftRight_zero, Nat.div_one,
      add_zero]
  · have hsplit : BASE = 2^(32 - by_) * 2^by_ := by rw [← pow_add, BASE]; congr 1; omega
    have hmod : (next <<< (32 - by_)) % BASE = (next % 2^by_) <<< (32 - by_) := by
      rw [Nat.shiftLeft_eq, Nat.shiftLeft_eq, hsplit, mul_comm next, Nat.mul_mod_mul_left, mul_comm]
    have hlow : digit >>> by_ < 2^(32 - by_) := by
      rw [Nat.shiftRight_eq_div_pow, Nat.div_lt_iff_lt_mul (by positivity), ← hsplit]
      exact hdigit
    rw [hmod, Nat.or_comm, ← Nat.shiftLeft_add_eq_or_of_lt hlow, Nat.shiftLeft_eq,
      Nat.shiftRight_eq_div_pow, add_comm]

/-- The digits of `shiftDown`, before they are joined. -/
def shiftedDown (by_ : ℕ) (digits : List ℕ) : List ℕ :=
  List.zipWith
    (fun digit next => digit >>> by_ ||| if by_ = 0 then 0 else (next <<< (32 - by_)) % BASE)
    digits digits.tail

/-- What is shifted down is the value divided, all but the top digit's share of it. -/
theorem shiftedDown_spec (hby : by_ < 32) (h : Digits BASE (digit :: digits)) :
    (shiftedDown by_ (digit :: digits)).length = digits.length ∧
      Digits BASE (shiftedDown by_ (digit :: digits)) ∧
      value (digit :: digits) / 2^by_ = value (shiftedDown by_ (digit :: digits)) +
        BASE^digits.length * ((digit :: digits).getD digits.length 0 / 2^by_) := by
  induction digits generalizing digit with
  | nil => simp [shiftedDown, value_cons, Digits]
  | cons next digits ih =>
    obtain ⟨hdigit, hdigits⟩ := Digits.of_cons h
    obtain ⟨hlen, hd, hv⟩ := ih hdigits
    have hcons : shiftedDown by_ (digit :: next :: digits) =
        (digit / 2^by_ + next % 2^by_ * 2^(32 - by_)) :: shiftedDown by_ (next :: digits) := by
      rw [← shiftDown_digit hby hdigit]
      rfl
    have hsplit : BASE = 2^by_ * 2^(32 - by_) := by rw [← pow_add, BASE]; congr 1; omega
    refine ⟨by rw [hcons, List.length_cons, hlen, List.length_cons], ?_, ?_⟩
    · rw [hcons]
      refine Digits.cons ?_ hd
      have hlow : digit / 2^by_ < 2^(32 - by_) := by
        rw [Nat.div_lt_iff_lt_mul (by positivity), mul_comm, ← hsplit]
        exact hdigit
      have hhigh : next % 2^by_ + 1 ≤ 2^by_ := Nat.mod_lt _ (by positivity)
      calc digit / 2^by_ + next % 2^by_ * 2^(32 - by_)
          < (next % 2^by_ + 1) * 2^(32 - by_) := by rw [add_mul, one_mul]; omega
        _ ≤ 2^by_ * 2^(32 - by_) := Nat.mul_le_mul_right _ hhigh
        _ = BASE := hsplit.symm
    · -- What the digits above write is a multiple of the power and what the next digit gives.
      have hmod : value (next :: digits) % 2^by_ = next % 2^by_ := by
        rw [value_cons, hsplit, mul_assoc, Nat.add_mul_mod_self_left]
      have hdiv : (digit + BASE * value (next :: digits)) / 2^by_ =
          digit / 2^by_ + 2^(32 - by_) * value (next :: digits) := by
        rw [hsplit, mul_assoc, Nat.add_mul_div_left _ _ (by positivity)]
      rw [value_cons digit, hdiv, hcons, value_cons (_ + _), List.length_cons, List.getD_cons_succ,
        pow_succ]
      calc digit / 2^by_ + 2^(32 - by_) * value (next :: digits)
          = digit / 2^by_ + 2^(32 - by_) * (value (next :: digits) % 2^by_ +
              2^by_ * (value (next :: digits) / 2^by_)) := by rw [Nat.mod_add_div]
        _ = digit / 2^by_ + next % 2^by_ * 2^(32 - by_) +
              BASE * (value (next :: digits) / 2^by_) := by rw [hmod, hsplit]; ring
        _ = _ := by rw [hv]; ring

/-- Shifted down, a multiple of the power that leaves room is divided. -/
theorem shiftDown_spec (hby : by_ < 32) (h : Digits BASE digits)
    (hlen : digits.length = 5) {rest : ℕ} (hv : value digits = rest * 2^by_) (hrest : rest < 2^128) :
    shiftDown digits by_ = some rest := by
  obtain ⟨digit, digits, rfl⟩ := List.exists_cons_of_length_eq_add_one hlen
  obtain ⟨hl, hd, hdiv⟩ := shiftedDown_spec hby h
  have hlen' : digits.length = 4 := by simpa using hlen
  have hdiv' : value (digit :: digits) / 2^by_ = rest := by
    rw [hv, Nat.mul_div_cancel _ (by positivity)]
  have htop : (digit :: digits).getD digits.length 0 / 2^by_ = 0 := by
    by_contra h0
    have : BASE^digits.length * 1 ≤
        BASE^digits.length * ((digit :: digits).getD digits.length 0 / 2^by_) :=
      Nat.mul_le_mul_left _ (Nat.one_le_iff_ne_zero.mpr h0)
    rw [hlen', BASE] at this hdiv
    omega
  rw [shiftDown, if_pos hby]
  change some (join (shiftedDown by_ (digit :: digits))) = _
  rw [join_eq hd (by omega), ← hdiv', hdiv, htop, mul_zero, add_zero]

/-! ## A divisor of one digit -/

/-- Long division by a digit. -/
theorem divideDigit_spec (hpos : 0 < by_) (hby : by_ < BASE) (h : Digits BASE digits) :
    ∃ quotient rest, divideDigit by_ digits = some (quotient, rest) ∧
      quotient.length = digits.length ∧ Digits BASE quotient ∧ rest < by_ ∧
      value digits = value quotient * by_ + rest := by
  induction digits with
  | nil => exact ⟨[], 0, rfl, rfl, by simp [Digits], hpos, by simp⟩
  | cons digit digits ih =>
    obtain ⟨hdigit, hdigits⟩ := Digits.of_cons h
    obtain ⟨quotient, rest, heq, hlen, hd, hrest, hv⟩ := ih hdigits
    have hhere := word_eq (hrest.trans hby) hdigit
    have hlt : (rest * BASE + digit) / by_ < BASE := by
      rw [Nat.div_lt_iff_lt_mul hpos]
      calc rest * BASE + digit < rest * BASE + BASE := Nat.add_lt_add_left hdigit _
        _ = BASE * (rest + 1) := by ring
        _ ≤ BASE * by_ := Nat.mul_le_mul_left _ hrest
    refine ⟨(rest * BASE + digit) / by_ :: quotient, (rest * BASE + digit) % by_, ?_,
      by rw [List.length_cons, hlen, List.length_cons], Digits.cons hlt hd, Nat.mod_lt _ hpos, ?_⟩
    · rw [divideDigit, heq]
      simp only [Option.bind_eq_bind, Option.bind_some, hhere, if_neg hpos.ne',
        Nat.mod_eq_of_lt hlt]
    · rw [value_cons, value_cons, hv]
      have := Nat.div_add_mod (rest * BASE + digit) by_
      calc digit + BASE * (value quotient * by_ + rest)
          = BASE * value quotient * by_ + (rest * BASE + digit) := by ring
        _ = BASE * value quotient * by_ +
              (by_ * ((rest * BASE + digit) / by_) + (rest * BASE + digit) % by_) := by rw [this]
        _ = _ := by ring

end Rucc.Builtins.Div
