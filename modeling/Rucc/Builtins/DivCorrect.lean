import Rucc.Builtins.DivDigits

/-!
# The long division is exact

A step of `divide` takes the digit of the quotient at place `j` off what is left. The estimate is
brought to at most one too big (`correct_spec`), the subtraction is exact up to a borrow out of the
top (`takeOffs_spec`), and the borrow is there exactly when the estimate was one too big, in which
case adding the divisor back repairs both (`putBacks_spec`). So a step leaves the remainder of the
window in the window (`step_spec`), and all of them together leave the remainder of the dividend
(`steps_spec`).
-/

namespace Rucc.Builtins.Div

open LongDivision Checked

variable {second third guess rest carry j count n k top bottom : ℕ} {borrow diff : ℤ} {u v left digits : List ℕ}

/-! ## The estimate -/

/-- The test of the correction, where its operands are digits. -/
theorem tooBig_eq (hsecond : second < BASE) (hthird : third < BASE) (hrest : rest < BASE) :
    tooBig second third guess rest =
      some (decide (BASE ≤ guess ∨ rest * BASE + third < guess * second)) := by
  unfold tooBig
  split_ifs with h
  · simp [h]
  · have hfits : guess * second < 2^64 := by
      calc guess * second < BASE * BASE := Nat.mul_lt_mul'' (by omega) hsecond
        _ = 2^64 := by decide
    simp only [checkedWord_of_lt hfits, Option.bind_eq_bind, Option.bind_some,
      word_eq hrest hthird, h, false_or]

/-- The correction comes back with a digit that is the quotient's or one more. -/
theorem correct_spec {V R P first v' u₀ u₁ r' : ℕ} (hV : V = (first * BASE + second) * P + v')
    (hR : R = ((u₀ * BASE + u₁) * BASE + third) * P + r')
    (hfirst : first < BASE) (hpos : 0 < first) (hsecond : second < BASE) (hv' : v' < P)
    (hu₁ : u₁ < BASE) (hthird : third < BASE) (hr' : r' < P) (hlt : R < V * BASE)
    (hguess : guess * first + rest = u₀ * BASE + u₁) (hle : R / V ≤ guess) (hrest : rest < BASE) :
    ∃ digit, correct first second third guess rest = some digit ∧ digit < BASE ∧
      R / V ≤ digit ∧ digit ≤ R / V + 1 := by
  have hbase : 0 < BASE := by decide
  have habove : ∀ {guess rest : ℕ}, guess * first + rest = u₀ * BASE + u₁ →
      BASE ≤ guess ∨ rest * BASE + third < guess * second → R / V < guess := by
    rintro guess rest hguess (h | h)
    · exact lt_of_base_le hlt h
    · exact lt_of_over hV hR hr' hpos hbase hguess h
  induction guess generalizing rest with
  | zero =>
    rw [correct, tooBig_eq hsecond hthird hrest]
    have h : ¬(BASE ≤ 0 ∨ rest * BASE + third < 0 * second) := by omega
    refine ⟨0, ?_, hbase, hle, Nat.zero_le _⟩
    simp only [h, decide_false, Option.bind_eq_bind, Option.bind_some, Bool.false_eq_true, if_false]
  | succ guess ih =>
    rw [correct, tooBig_eq hsecond hthird hrest]
    by_cases h : BASE ≤ guess + 1 ∨ rest * BASE + third < (guess + 1) * second
    · have hle' : R / V ≤ guess := Nat.lt_succ_iff.mp (habove hguess h)
      have hguess' : guess * first + (rest + first) = u₀ * BASE + u₁ := by rw [← hguess]; ring
      have hfits : rest + first < 2^64 := by unfold BASE at hrest hfirst; omega
      by_cases hbreak : BASE ≤ rest + first
      · -- The next test would pass, as what it compares with has three digits.
        have hu₀ := top_le hV hR hsecond hv' hlt
        have hdigit : guess < BASE := by
          by_contra! hge
          have : BASE * first ≤ guess * first := Nat.mul_le_mul_right _ hge
          have : u₀ * BASE ≤ first * BASE := Nat.mul_le_mul_right _ hu₀
          have : first * BASE = BASE * first := mul_comm _ _
          omega
        refine ⟨guess, ?_, hdigit, hle', ?_⟩
        · simp [h, checkedWord_of_lt hfits, hbreak]
        · refine le_of_not_over hV hR hv' hpos hdigit hguess' ?_
          calc guess * second ≤ BASE * BASE := Nat.mul_le_mul hdigit.le hsecond.le
            _ ≤ (rest + first) * BASE := Nat.mul_le_mul_right _ hbreak
            _ ≤ (rest + first) * BASE + third := Nat.le_add_right _ _
      · obtain ⟨digit, heq, hdigit, hlow, hhigh⟩ := ih hguess' hle' (by omega)
        refine ⟨digit, ?_, hdigit, hlow, hhigh⟩
        simpa [h, checkedWord_of_lt hfits, hbreak] using heq
    · rw [not_or, not_le, not_lt] at h
      refine ⟨guess + 1, ?_, h.1, hle, le_of_not_over hV hR hv' hpos h.1 hguess h.2⟩
      simp [h.1.not_ge, h.2.not_gt]

/-! ## Taking the product off -/

/-- What `count` turns of the subtraction have done to what was left. -/
structure TakenOff (guess : ℕ) (u v : List ℕ) (j count : ℕ) (state : List ℕ × ℕ × ℤ) : Prop where
  /-- The digits are as many as they were. -/
  length : state.1.length = u.length
  /-- They are digits. -/
  digits : Digits BASE state.1
  /-- The digits outside are the ones that were there. -/
  outside : ∀ i, i < j ∨ j + count ≤ i → state.1.getD i 0 = u.getD i 0
  /-- The carry is a digit. -/
  carry : state.2.1 < BASE
  /-- The borrow is zero or minus one. -/
  borrow : state.2.2 = 0 ∨ state.2.2 = -1
  /-- Together they are the exact difference. -/
  value : (window BASE state.1 j count : ℤ) + guess * window BASE v 0 count =
    window BASE u j count + (state.2.1 - state.2.2) * BASE^count

/-- One digit of the subtraction: nothing overflows, and the new digit, carry and borrow account for the
old digit and the product. -/
theorem takeOff_digit {digit here product : ℕ}
    (hguess : guess < BASE) (hdigit : digit < BASE) (hhere : here < BASE) (hcarry : carry < BASE)
    (hborrow : borrow = 0 ∨ borrow = -1) (hproduct : product = guess * digit + carry)
    (hdiff : diff = (here : ℤ) - (product % BASE : ℕ) + borrow) :
    product < 2^64 ∧ Fits 64 diff ∧ (diff % 2^32).toNat < BASE ∧ product / BASE < BASE ∧
      (diff / 2^32 = 0 ∨ diff / 2^32 = -1) ∧
      ((diff % 2^32).toNat : ℤ) + guess * digit + (carry - borrow) =
        here + ((product / BASE : ℕ) - diff / 2^32) * BASE := by
  have hlt : product < BASE * BASE := by
    calc product < guess * digit + BASE := by rw [hproduct]; exact Nat.add_lt_add_left hcarry _
      _ ≤ guess * BASE + BASE := Nat.add_le_add_right (Nat.mul_le_mul_left _ hdigit.le) _
      _ = (guess + 1) * BASE := by ring
      _ ≤ BASE * BASE := Nat.mul_le_mul_right _ hguess
  have hlow : product % BASE < BASE := Nat.mod_lt _ (by decide)
  have hsplit := Nat.div_add_mod product BASE
  have hhigh : product / BASE < BASE := Nat.div_lt_of_lt_mul hlt
  have hprod : (guess : ℤ) * digit + carry = product := by rw [hproduct]; push_cast; rfl
  generalize product / BASE = high at *
  generalize product % BASE = low at *
  unfold BASE at *
  unfold Fits
  have hrange : diff < 2^32 ∧ -2^32 ≤ diff := by
    rcases hborrow with h | h <;> constructor <;> omega
  refine ⟨by omega, by omega, by omega, hhigh, by omega, ?_⟩
  have hnew : ((diff % 2^32).toNat : ℤ) = diff - diff / 2^32 * 2^32 := by omega
  have hsplit' : (product : ℤ) = 2^32 * high + low := by exact_mod_cast hsplit.symm
  rw [hnew]
  push_cast
  linarith

/-- One turn of the subtraction. -/
theorem takeOff_spec {state : List ℕ × ℕ × ℤ}
    (h : TakenOff guess u v j count state) (hguess : guess < BASE) (hv : Digits BASE v)
    (hcount : count < v.length) (hj : count + j < u.length) :
    ∃ next, takeOff guess v j state count = some next ∧
      TakenOff guess u v j (count + 1) next := by
  obtain ⟨left, carry, borrow⟩ := state
  obtain ⟨hlen, hdigits, houtside, hcarry, hborrow, hvalue⟩ := h
  dsimp only at hlen hdigits houtside hcarry hborrow hvalue
  have hbase : 0 < BASE := by decide
  have hd : v.getD count 0 < BASE := hv.getD_lt hbase _
  have hl : left.getD (count + j) 0 < BASE := hdigits.getD_lt hbase _
  have hsame : left.getD (count + j) 0 = u.getD (j + count) 0 := by
    rw [add_comm]; exact houtside _ (Or.inr le_rfl)
  obtain ⟨product, hproduct⟩ : ∃ product, product = guess * v.getD count 0 + carry := ⟨_, rfl⟩
  obtain ⟨diff, hdiff⟩ : ∃ diff : ℤ,
      diff = (left.getD (count + j) 0 : ℤ) - (product % BASE : ℕ) + borrow := ⟨_, rfl⟩
  obtain ⟨hword, hfits, hnew, hhigh, hnext, hdigit⟩ :=
    takeOff_digit hguess hd hl hcarry hborrow hproduct hdiff
  obtain ⟨new, hnew_eq⟩ : ∃ new, new = (diff % 2^32).toNat := ⟨_, rfl⟩
  rw [← hnew_eq] at hnew hdigit
  have hstep : takeOff guess v j (left, carry, borrow) count =
      some (left.set (count + j) new, product / BASE, diff / 2^32) := by
    unfold takeOff
    dsimp only
    rw [getElem?_eq_getD hcount, getElem?_eq_getD (by omega)]
    simp only [Option.bind_eq_bind, Option.bind_some]
    rw [← hproduct, checkedWord_of_lt hword, Option.bind_some, ← hdiff, checked_of_fits hfits,
      Option.bind_some, Nat.shiftRight_eq_div_pow, Int.shiftRight_eq_div_pow, ← hnew_eq]
    rfl
  refine ⟨_, hstep, ⟨by rw [List.length_set, hlen], hdigits.set _ hnew, ?_, hhigh, hnext, ?_⟩⟩
  · intro i hi
    rw [getD_set_of_ne _ (by omega)]
    exact houtside i (by omega)
  · have hinside : window BASE (left.set (count + j) new) j count = window BASE left j count :=
      window_congr _ fun i hi => getD_set_of_ne _ (by omega) _
    have hat : (left.set (count + j) new).getD (j + count) 0 = new := by
      rw [add_comm j]
      exact getD_set_self (by omega) _
    dsimp only
    rw [window_succ, window_succ, window_succ, hinside, hat, zero_add, ← hsame, pow_succ]
    simp only [Nat.cast_add, Nat.cast_mul, Nat.cast_pow]
    generalize v.getD count 0 = digit at *
    generalize left.getD (count + j) 0 = here at *
    calc (window BASE left j count : ℤ) + new * BASE^count +
          guess * (window BASE v 0 count + digit * BASE^count)
        = (window BASE left j count + guess * window BASE v 0 count) +
            (new + guess * digit) * BASE^count := by ring
      _ = window BASE u j count + (new + guess * digit + (carry - borrow)) * BASE^count := by
          rw [hvalue]; ring
      _ = window BASE u j count + here * BASE^count +
            (((product / BASE : ℕ) : ℤ) - diff / 2^32) * (BASE^count * BASE) := by rw [hdigit]; ring

/-- The whole subtraction. -/
theorem takeOffs_spec {guess : ℕ} {u v : List ℕ} {j : ℕ} (hguess : guess < BASE)
    (hu : Digits BASE u) (hv : Digits BASE v) {n : ℕ} (hn : n ≤ v.length)
    (hj : n + j ≤ u.length) :
    ∃ state, (List.range n).foldlM (takeOff guess v j) (u, 0, 0) = some state ∧
      TakenOff guess u v j n state := by
  induction n with
  | zero =>
    exact ⟨_, rfl, rfl, hu, fun _ _ => rfl, (by decide : 0 < BASE), Or.inl rfl, by simp⟩
  | succ n ih =>
    obtain ⟨state, heq, h⟩ := ih (by omega) (by omega)
    obtain ⟨next, hstep, hnext⟩ := takeOff_spec h hguess hv (by omega) (by omega)
    refine ⟨next, ?_, hnext⟩
    rw [List.range_succ, List.foldlM_append, heq]
    simpa using hstep

/-! ## Putting the divisor back -/

/-- What `count` turns of the addition have done to what was left. -/
structure PutBack (u v : List ℕ) (j count : ℕ) (state : List ℕ × ℕ) : Prop where
  /-- The digits are as many as they were. -/
  length : state.1.length = u.length
  /-- They are digits. -/
  digits : Digits BASE state.1
  /-- The digits outside are the ones that were there. -/
  outside : ∀ i, i < j ∨ j + count ≤ i → state.1.getD i 0 = u.getD i 0
  /-- The carry is a bit. -/
  carry : state.2 ≤ 1
  /-- Together they are the exact sum. -/
  value : window BASE state.1 j count + state.2 * BASE^count =
    window BASE u j count + window BASE v 0 count

/-- One turn of the addition. -/
theorem putBack_spec {state : List ℕ × ℕ}
    (h : PutBack u v j count state) (hv : Digits BASE v) (hcount : count < v.length)
    (hj : count + j < u.length) :
    ∃ next, putBack v j state count = some next ∧ PutBack u v j (count + 1) next := by
  obtain ⟨left, carry⟩ := state
  obtain ⟨hlen, hdigits, houtside, hcarry, hvalue⟩ := h
  dsimp only at hlen hdigits houtside hcarry hvalue
  have hbase : 0 < BASE := by decide
  have hd : v.getD count 0 < BASE := hv.getD_lt hbase _
  have hl : left.getD (count + j) 0 < BASE := hdigits.getD_lt hbase _
  have hsame : left.getD (count + j) 0 = u.getD (j + count) 0 := by
    rw [add_comm]; exact houtside _ (Or.inr le_rfl)
  set digit := v.getD count 0
  set here := left.getD (count + j) 0
  have hstep : putBack v j (left, carry) count =
      some (left.set (count + j) ((here + digit + carry) % BASE),
        (here + digit + carry) / BASE) := by
    unfold putBack
    dsimp only
    rw [getElem?_eq_getD (by omega), getElem?_eq_getD hcount]
    simp only [Option.bind_eq_bind, Option.bind_some]
    rw [checkedWord_of_lt (by unfold BASE at hd hl; omega), Option.bind_some,
      Nat.shiftRight_eq_div_pow]
    rfl
  refine ⟨_, hstep, ⟨by rw [List.length_set, hlen], hdigits.set _ (Nat.mod_lt _ hbase), ?_, ?_, ?_⟩⟩
  · intro i hi
    rw [getD_set_of_ne _ (by omega)]
    exact houtside i (by omega)
  · dsimp only
    rw [← Nat.lt_succ_iff, Nat.div_lt_iff_lt_mul hbase]
    omega
  · dsimp only
    have hinside : window BASE (left.set (count + j) ((here + digit + carry) % BASE)) j count =
        window BASE left j count :=
      window_congr _ fun i hi => getD_set_of_ne _ (by omega) _
    have hat : (left.set (count + j) ((here + digit + carry) % BASE)).getD (j + count) 0 =
        (here + digit + carry) % BASE := by
      rw [add_comm j]
      exact getD_set_self (by omega) _
    have hsplit := Nat.mod_add_div (here + digit + carry) BASE
    rw [window_succ, window_succ, window_succ, hinside, hat, zero_add, ← hsame, pow_succ]
    calc window BASE left j count + (here + digit + carry) % BASE * BASE^count +
          (here + digit + carry) / BASE * (BASE^count * BASE)
        = window BASE left j count + ((here + digit + carry) % BASE +
            BASE * ((here + digit + carry) / BASE)) * BASE^count := by ring
      _ = (window BASE left j count + carry * BASE^count) + (here + digit) * BASE^count := by
          rw [hsplit]; ring
      _ = _ := by rw [hvalue]; ring

/-- The whole addition. -/
theorem putBacks_spec {u v : List ℕ} {j : ℕ} (hu : Digits BASE u) (hv : Digits BASE v) {n : ℕ}
    (hn : n ≤ v.length) (hj : n + j ≤ u.length) :
    ∃ state, (List.range n).foldlM (putBack v j) (u, 0) = some state ∧ PutBack u v j n state := by
  induction n with
  | zero => exact ⟨_, rfl, rfl, hu, fun _ _ => rfl, Nat.zero_le _, by simp⟩
  | succ n ih =>
    obtain ⟨state, heq, h⟩ := ih (by omega) (by omega)
    obtain ⟨next, hstep, hnext⟩ := putBack_spec h hv (by omega) (by omega)
    refine ⟨next, ?_, hnext⟩
    rw [List.range_succ, List.foldlM_append, heq]
    simpa using hstep

/-! ## A digit of the quotient -/

/-- What the digits write, with a window of them looked at on its own. -/
theorem whole_eq {w : List ℕ} (hcount : j + n ≤ count) (h : ∀ i, i < j ∨ j + n ≤ i → w.getD i 0 = u.getD i 0) :
    window BASE w 0 count = window BASE u 0 j +
      BASE^j * (window BASE w j n + BASE^n * window BASE u (j + n) (count - (j + n))) := by
  have hlow : window BASE w 0 j = window BASE u 0 j :=
    window_congr _ fun i hi => h _ (by omega)
  have hhigh : window BASE w (j + n) (count - (j + n)) = window BASE u (j + n) (count - (j + n)) :=
    window_congr _ fun i hi => h _ (by omega)
  obtain ⟨rest, rfl⟩ := Nat.exists_eq_add_of_le hcount
  rw [Nat.add_sub_cancel_left] at hhigh ⊢
  rw [add_assoc, window_add, window_add, hlow, zero_add, hhigh]

/-- The top digit after the subtraction, with the borrow out of it. -/
theorem takenOff_top (h : TakenOff guess u v j n (left, carry, borrow)) (hu : Digits BASE u) (hj : j + n < u.length)
    (hdiff : diff = (left.getD (j + n) 0 : ℤ) - carry + borrow) :
    Fits 64 diff ∧ (diff % 2^32).toNat < BASE ∧
      (window BASE (left.set (j + n) (diff % 2^32).toNat) j (n + 1) : ℤ) +
          guess * window BASE v 0 n =
        window BASE u j (n + 1) - diff / 2^32 * BASE^(n + 1) := by
  obtain ⟨hlen, hdigits, houtside, hcarry, hborrow, hvalue⟩ := h
  dsimp only at hlen hdigits houtside hcarry hborrow hvalue
  have hbase : 0 < BASE := by decide
  have hsame : left.getD (j + n) 0 = u.getD (j + n) 0 := houtside _ (Or.inr le_rfl)
  have hl : u.getD (j + n) 0 < BASE := hu.getD_lt hbase _
  obtain ⟨new, hnew⟩ : ∃ new, new = (diff % 2^32).toNat := ⟨_, rfl⟩
  have hnew_eq : (new : ℤ) = diff - diff / 2^32 * BASE := by
    rw [hnew]
    unfold BASE
    push_cast
    omega
  have hinside : window BASE (left.set (j + n) new) j n = window BASE left j n :=
    window_congr _ fun i hi => getD_set_of_ne _ (by omega) _
  rw [← hnew]
  refine ⟨?_, ?_, ?_⟩
  · unfold Fits
    unfold BASE at hcarry hl
    rw [hdiff, hsame]
    rcases hborrow with h | h <;> constructor <;> omega
  · unfold BASE
    omega
  · rw [window_succ, window_succ, hinside, getD_set_self (by omega), pow_succ]
    simp only [Nat.cast_add, Nat.cast_mul, Nat.cast_pow]
    rw [hnew_eq, ← hsame]
    calc (window BASE left j n : ℤ) + (diff - diff / 2^32 * BASE) * BASE^n +
          guess * window BASE v 0 n
        = (window BASE left j n + guess * window BASE v 0 n) +
            (diff - diff / 2^32 * BASE) * BASE^n := by ring
      _ = window BASE u j n + ((diff - diff / 2^32 * BASE) + (carry - borrow)) * BASE^n := by
          rw [hvalue]; ring
      _ = window BASE u j n + (left.getD (j + n) 0 - diff / 2^32 * BASE) * BASE^n := by
          rw [hdiff]; ring
      _ = window BASE u j n + left.getD (j + n) 0 * BASE^n -
            diff / 2^32 * (BASE^n * BASE) := by ring

/-- The top digit after the addition, with the carry out of it. -/
theorem putBack_top (h : PutBack u v j n (left, carry)) (hj : j + n < u.length) :
    ∃ out, window BASE (left.set (j + n) ((left.getD (j + n) 0 + carry) % BASE)) j (n + 1) +
      out * BASE^(n + 1) = window BASE u j (n + 1) + window BASE v 0 n := by
  obtain ⟨hlen, hdigits, houtside, hcarry, hvalue⟩ := h
  dsimp only at hlen hdigits houtside hcarry hvalue
  have hsame : left.getD (j + n) 0 = u.getD (j + n) 0 := houtside _ (Or.inr le_rfl)
  rw [hsame]
  obtain ⟨new, hnew⟩ : ∃ new, new = (u.getD (j + n) 0 + carry) % BASE := ⟨_, rfl⟩
  have hinside : window BASE (left.set (j + n) new) j n = window BASE left j n :=
    window_congr _ fun i hi => getD_set_of_ne _ (by omega) _
  have hsplit := Nat.mod_add_div (u.getD (j + n) 0 + carry) BASE
  refine ⟨(u.getD (j + n) 0 + carry) / BASE, ?_⟩
  rw [← hnew] at hsplit ⊢
  rw [window_succ, window_succ, hinside, getD_set_self (by omega), pow_succ]
  generalize (u.getD (j + n) 0 + carry) / BASE = out at *
  calc window BASE left j n + new * BASE^n + out * (BASE^n * BASE)
      = window BASE left j n + (new + BASE * out) * BASE^n := by ring
    _ = (window BASE left j n + carry * BASE^n) + u.getD (j + n) 0 * BASE^n := by
        rw [hsplit]; ring
    _ = window BASE u j n + u.getD (j + n) 0 * BASE^n + window BASE v 0 n := by rw [hvalue]; ring

/-- A guess that is at most one too big is settled: the remainder of the window is left in it. -/
theorem settle_spec {guess n : ℕ} {u v : List ℕ} {j : ℕ} (hu : Digits BASE u)
    (hlen : u.length = 5) (hv : Digits BASE v) (hvlen : v.length = 5) (hj : j + n < 5)
    (hguess : guess < BASE) (hpos : 0 < window BASE v 0 n)
    (hle : window BASE u j (n + 1) / window BASE v 0 n ≤ guess)
    (hhigh : guess ≤ window BASE u j (n + 1) / window BASE v 0 n + 1) :
    ∃ left, settle v n j guess u = some (left, window BASE u j (n + 1) / window BASE v 0 n) ∧
      left.length = 5 ∧ Digits BASE left ∧
      (∀ i, i < j ∨ j + (n + 1) ≤ i → left.getD i 0 = u.getD i 0) ∧
      window BASE left j (n + 1) = window BASE u j (n + 1) % window BASE v 0 n := by
  have hbase : 0 < BASE := by decide
  obtain ⟨⟨left, carry, borrow⟩, hfold, htaken⟩ :=
    @takeOffs_spec guess u v j hguess hu hv n (by omega) (by omega)
  obtain ⟨diff, hdiff⟩ : ∃ diff : ℤ,
      diff = (left.getD (j + n) 0 : ℤ) - carry + borrow := ⟨_, rfl⟩
  obtain ⟨hfits, hnew, hvalue⟩ := takenOff_top htaken hu (by omega) hdiff
  have hleft : left.length = 5 := htaken.length.trans hlen
  have hdigits : Digits BASE (left.set (j + n) (diff % 2^32).toNat) := htaken.digits.set _ hnew
  have htlen : (left.set (j + n) (diff % 2^32).toNat).length = 5 := by rw [List.length_set, hleft]
  have houtside : ∀ i, i < j ∨ j + (n + 1) ≤ i →
      (left.set (j + n) (diff % 2^32).toNat).getD i 0 = u.getD i 0 := by
    intro i hi
    rw [getD_set_of_ne _ (by omega)]
    exact htaken.outside i (by omega)
  have hsettle : settle v n j guess u =
      if diff / 2^32 ≠ 0 then do
        let guess ← checkedSub guess 1
        let r ← (List.range n).foldlM (putBack v j) (left.set (j + n) (diff % 2^32).toNat, 0)
        let left ← r.1[j + n]?
        some (r.1.set (j + n) ((left + r.2) % BASE), guess)
      else some (left.set (j + n) (diff % 2^32).toNat, guess) := by
    unfold settle
    rw [hfold]
    simp only [Option.bind_eq_bind, Option.bind_some]
    rw [getElem?_eq_getD (by omega), Option.bind_some, ← hdiff, checked_of_fits hfits,
      Option.bind_some, Int.shiftRight_eq_div_pow]
    rfl
  rw [hsettle]
  generalize left.set (j + n) (diff % 2^32).toNat = taken at *
  generalize diff / 2^32 = out at *
  by_cases hout : out = 0
  · -- No borrow comes out of the top.
    have heq : window BASE taken j (n + 1) + guess * window BASE v 0 n =
        window BASE u j (n + 1) := by
      rw [hout, zero_mul, sub_zero] at hvalue
      exact_mod_cast hvalue
    obtain ⟨hdigit, hrest⟩ := digit_of_fits hpos hle heq
    refine ⟨taken, ?_, htlen, hdigits, houtside, hrest⟩
    rw [if_neg (by simp [hout]), ← hdigit]
  · -- One does, and the carry out of the addition cancels it.
    have hVM : window BASE v 0 n ≤ BASE^(n + 1) :=
      (window_lt hv hbase 0 n).le.trans (Nat.pow_le_pow_right hbase (Nat.le_succ n))
    obtain ⟨hdigit, hrest⟩ := digit_of_borrow hpos hVM (window_lt hu hbase j (n + 1))
      (window_lt hdigits hbase j (n + 1)) hhigh (by exact_mod_cast hvalue) hout
    obtain ⟨⟨back, carry'⟩, hback, hput⟩ :=
      @putBacks_spec taken v j hdigits hv n (by omega) (by omega)
    obtain ⟨out', htop⟩ := putBack_top hput (by omega)
    have hblen : back.length = 5 := hput.length.trans htlen
    have hbdigits : Digits BASE (back.set (j + n) ((back.getD (j + n) 0 + carry') % BASE)) :=
      hput.digits.set _ (Nat.mod_lt _ hbase)
    refine ⟨back.set (j + n) ((back.getD (j + n) 0 + carry') % BASE), ?_,
      by rw [List.length_set, hblen], hbdigits, ?_, ?_⟩
    · rw [if_pos hout, checkedSub_of_le (hdigit ▸ Nat.le_add_left 1 _), hback]
      simp only [Option.bind_eq_bind, Option.bind_some]
      rw [getElem?_eq_getD (by omega), Option.bind_some, hdigit, Nat.add_sub_cancel]
    · intro i hi
      rw [getD_set_of_ne _ (by omega), hput.outside i (by omega)]
      exact houtside i hi
    · have hlt := window_lt hbdigits hbase j (n + 1)
      have hmod : window BASE u j (n + 1) % window BASE v 0 n < BASE^(n + 1) :=
        (Nat.mod_lt _ hpos).trans_le hVM
      rw [hrest] at htop
      generalize window BASE (back.set (j + n) ((back.getD (j + n) 0 + carry') % BASE)) j
        (n + 1) = result at htop hlt ⊢
      generalize BASE^(n + 1) = power at htop hlt hmod
      -- Both are below the power, so the carry out is one.
      have hone : out' = 1 := by
        rcases Nat.lt_trichotomy out' 1 with h | h | h
        · rw [show out' = 0 by omega, zero_mul] at htop
          omega
        · exact h
        · have : 2 * power ≤ out' * power := Nat.mul_le_mul_right _ h
          omega
      rw [hone] at htop
      omega

/-- Below the divisor moved up by a digit more than the window, what is left ends in the window. -/
theorem window_top (hv : Digits BASE v) (hcount : j + (n + 1) ≤ count)
    (hlt : window BASE u 0 count < window BASE v 0 n * BASE^(j + 1)) :
    window BASE u (j + (n + 1)) (count - (j + (n + 1))) = 0 ∧
      window BASE u j (n + 1) < window BASE v 0 n * BASE := by
  have hbase : 0 < BASE := by decide
  rw [whole_eq hcount fun _ _ => rfl] at hlt
  have hscaled : window BASE u j (n + 1) +
      BASE^(n + 1) * window BASE u (j + (n + 1)) (count - (j + (n + 1))) <
        window BASE v 0 n * BASE := by
    refine Nat.lt_of_mul_lt_mul_left (a := BASE^j) ?_
    calc BASE^j * (window BASE u j (n + 1) +
          BASE^(n + 1) * window BASE u (j + (n + 1)) (count - (j + (n + 1))))
        ≤ _ := Nat.le_add_left _ (window BASE u 0 j)
      _ < window BASE v 0 n * BASE^(j + 1) := hlt
      _ = BASE^j * (window BASE v 0 n * BASE) := by rw [pow_succ]; ring
  refine ⟨?_, (Nat.le_add_right _ _).trans_lt hscaled⟩
  by_contra h0
  have hV : window BASE v 0 n * BASE ≤ BASE^(n + 1) := by
    rw [pow_succ]
    exact Nat.mul_le_mul_right _ (window_lt hv hbase 0 n).le
  have : BASE^(n + 1) * 1 ≤
      BASE^(n + 1) * window BASE u (j + (n + 1)) (count - (j + (n + 1))) :=
    Nat.mul_le_mul_left _ (Nat.one_le_iff_ne_zero.mpr h0)
  exact absurd hscaled (not_lt.mpr (by
    calc window BASE v 0 n * BASE ≤ BASE^(n + 1) * 1 := by rw [mul_one]; exact hV
      _ ≤ _ := this
      _ ≤ _ := Nat.le_add_left _ _))

/-- One step of the loop: the digit of the quotient comes off what is left. -/
theorem step_spec {u v quotient : List ℕ} {j k : ℕ} (hu : Digits BASE u) (hlen : u.length = 5)
    (hv : Digits BASE v) (hvlen : v.length = 5) (hj : j + (k + 2) < 5)
    (hfirst : 0 < v.getD (k + 1) 0)
    (hlt : window BASE u 0 5 < window BASE v 0 (k + 2) * BASE^(j + 1)) :
    ∃ left digit, step v (k + 2) (u, quotient) j = some (left, quotient.set j digit) ∧
      digit < BASE ∧ left.length = 5 ∧ Digits BASE left ∧
      window BASE u 0 5 = window BASE left 0 5 + digit * window BASE v 0 (k + 2) * BASE^j ∧
      window BASE left 0 5 < window BASE v 0 (k + 2) * BASE^j := by
  have hbase : 0 < BASE := by decide
  obtain ⟨hzero, hR⟩ := window_top hv (by omega : j + (k + 2 + 1) ≤ 5) hlt
  have hVeq := window_two BASE v 0 k
  have hReq := window_three BASE u j k
  rw [zero_add] at hVeq
  have hpos : 0 < window BASE v 0 (k + 2) := by
    by_contra h0
    rw [Nat.eq_zero_of_not_pos h0, zero_mul] at hR
    omega
  -- The estimate, corrected.
  obtain ⟨guess, hcorrect, hguess, hle, hhigh⟩ :=
    correct_spec hVeq hReq (hv.getD_lt hbase _) hfirst (hv.getD_lt hbase _) (window_lt hv hbase 0 k)
      (hu.getD_lt hbase _) (hu.getD_lt hbase _) (window_lt hu hbase j k) hR
      (by rw [mul_comm]; exact Nat.div_add_mod _ _)
      (le_estimate hVeq hReq (hu.getD_lt hbase _) (window_lt hu hbase j k) hfirst)
      ((Nat.mod_lt _ hfirst).trans (hv.getD_lt hbase _))
  obtain ⟨left, hsettle, hllen, hldigits, hout, hleft⟩ :=
    settle_spec hu hlen hv hvlen hj hguess hpos hle hhigh
  have hdigit : window BASE u j (k + 2 + 1) / window BASE v 0 (k + 2) < BASE := hle.trans_lt hguess
  have hdiv := Nat.div_add_mod (window BASE u j (k + 2 + 1)) (window BASE v 0 (k + 2))
  have hmod := Nat.mod_lt (window BASE u j (k + 2 + 1)) hpos
  have hwhole := whole_eq (by omega : j + (k + 2 + 1) ≤ 5) hout
  have hwhole' := whole_eq (u := u) (w := u) (by omega : j + (k + 2 + 1) ≤ 5) fun _ _ => rfl
  rw [hzero, mul_zero, add_zero] at hwhole hwhole'
  rw [hleft] at hwhole
  refine ⟨left, window BASE u j (k + 2 + 1) / window BASE v 0 (k + 2), ?_, hdigit, hllen, hldigits,
    ?_, ?_⟩
  · unfold step
    dsimp only
    rw [getElem?_eq_getD (by omega), getElem?_eq_getD (by omega), getElem?_eq_getD (by omega),
      getElem?_eq_getD (by omega), getElem?_eq_getD (by omega)]
    simp only [Option.bind_eq_bind, Option.bind_some, Nat.add_sub_cancel,
      show j + (k + 2) - 1 = j + k + 1 by omega, show k + 2 - 1 = k + 1 by omega,
      show j + (k + 2) - 2 = j + k by omega]
    rw [if_neg hfirst.ne', word_eq (hu.getD_lt hbase _) (hu.getD_lt hbase _),
      show j + (k + 2) = j + k + 2 by omega, hcorrect, Option.bind_some, hsettle, Option.bind_some]
    dsimp only
    rw [Nat.mod_eq_of_lt hdigit]
  · rw [hwhole, hwhole']
    calc window BASE u 0 j + BASE^j * window BASE u j (k + 2 + 1)
        = window BASE u 0 j + BASE^j * (window BASE v 0 (k + 2) *
            (window BASE u j (k + 2 + 1) / window BASE v 0 (k + 2)) +
              window BASE u j (k + 2 + 1) % window BASE v 0 (k + 2)) := by rw [hdiv]
      _ = _ := by ring
  · have hlow := window_lt hu hbase 0 j
    rw [hwhole]
    calc window BASE u 0 j +
          BASE^j * (window BASE u j (k + 2 + 1) % window BASE v 0 (k + 2))
        < BASE^j + BASE^j * (window BASE u j (k + 2 + 1) % window BASE v 0 (k + 2)) :=
          Nat.add_lt_add_right hlow _
      _ = BASE^j * (window BASE u j (k + 2 + 1) % window BASE v 0 (k + 2) + 1) := by ring
      _ ≤ BASE^j * window BASE v 0 (k + 2) := Nat.mul_le_mul_left _ hmod
      _ = window BASE v 0 (k + 2) * BASE^j := mul_comm _ _

/-- What the steps from place `count - 1` down leave, with the digits of the quotient they find. -/
theorem steps_spec (hv : Digits BASE v) (hvlen : v.length = 5)
    (hfirst : 0 < v.getD (k + 1) 0) (hcount : count + (k + 2) ≤ 5) {quotient : List ℕ}
    (hu : Digits BASE u) (hlen : u.length = 5) (hq : Digits BASE quotient)
    (hqlen : quotient.length = 4) (hqzero : ∀ i < count, quotient.getD i 0 = 0)
    (hlt : window BASE u 0 5 < window BASE v 0 (k + 2) * BASE^count) :
    ∃ left quotient',
      (List.range count).reverse.foldlM (step v (k + 2)) (u, quotient) = some (left, quotient') ∧
      Digits BASE left ∧ left.length = 5 ∧ Digits BASE quotient' ∧ quotient'.length = 4 ∧
      window BASE u 0 5 + value quotient * window BASE v 0 (k + 2) =
        window BASE left 0 5 + value quotient' * window BASE v 0 (k + 2) ∧
      window BASE left 0 5 < window BASE v 0 (k + 2) := by
  induction count generalizing u quotient with
  | zero => exact ⟨u, quotient, rfl, hu, hlen, hq, hqlen, rfl, by simpa using hlt⟩
  | succ count ih =>
    obtain ⟨left, digit, hstep, hdigit, hllen, hldigits, hsum, hllt⟩ :=
      @step_spec u v quotient count k hu hlen hv hvlen (by omega) hfirst hlt
    have hset : value (quotient.set count digit) = value quotient + digit * BASE^count := by
      have hzero := hqzero count (Nat.lt_succ_self count)
      have hout : ∀ i, i < count ∨ count + 1 ≤ i →
          (quotient.set count digit).getD i 0 = quotient.getD i 0 := fun i hi =>
        getD_set_of_ne _ (by omega) _
      rw [value, value, List.length_set, hqlen,
        whole_eq (by omega : count + 1 ≤ 4) hout,
        whole_eq (u := quotient) (w := quotient) (by omega : count + 1 ≤ 4) fun _ _ => rfl,
        window_one, window_one, getD_set_self (by omega), hzero]
      ring
    obtain ⟨left', quotient', hfold, hd, hl, hqd, hql, hsum', hlt'⟩ :=
      ih (by omega) hldigits hllen (hq.set count hdigit) (by rw [List.length_set, hqlen])
        (fun i hi => by rw [getD_set_of_ne _ (by omega)]; exact hqzero i (by omega)) hllt
    refine ⟨left', quotient', ?_, hd, hl, hqd, hql, ?_, hlt'⟩
    · rw [List.range_succ, List.reverse_append, List.foldlM_append]
      simpa [hstep] using hfold
    · rw [← hsum', hset, hsum]
      ring

/-! ## The division -/

/-- A number with a top digit is at least the base to the digits below it. -/
theorem le_window (h : digits.getD n 0 ≠ 0) : BASE^n ≤ window BASE digits 0 (n + 1) := by
  rw [window_succ, zero_add]
  exact (Nat.le_mul_of_pos_left _ (Nat.pos_of_ne_zero h)).trans (Nat.le_add_left _ _)

/-- The shift that brings the top digit of the divisor up to its high bit: it is below the width and keeps
the divisor in its digits. -/
theorem leadingZeros_spec (hd : Digits BASE digits) (h : digits.getD n 0 ≠ 0) :
    leadingZeros (digits.getD n 0) < 32 ∧
      window BASE digits 0 (n + 1) * 2^leadingZeros (digits.getD n 0) < BASE^(n + 1) := by
  have hbase : 0 < BASE := by decide
  have hhigh : digits.getD n 0 < BASE := hd.getD_lt hbase _
  have hlow := window_lt hd hbase 0 n
  rw [window_succ, zero_add]
  generalize digits.getD n 0 = high at *
  have hsize : 0 < high.size := Nat.size_pos.mpr (Nat.pos_of_ne_zero h)
  have hsize' : high.size ≤ 32 := Nat.size_le.mpr hhigh
  have hlt : high + 1 ≤ 2^high.size := Nat.lt_size_self high
  unfold leadingZeros
  refine ⟨by omega, ?_⟩
  calc (window BASE digits 0 n + high * BASE^n) * 2^(32 - high.size)
      < (BASE^n + high * BASE^n) * 2^(32 - high.size) :=
        Nat.mul_lt_mul_of_pos_right (Nat.add_lt_add_right hlow _) (by positivity)
    _ = (high + 1) * 2^(32 - high.size) * BASE^n := by ring
    _ ≤ 2^high.size * 2^(32 - high.size) * BASE^n :=
        Nat.mul_le_mul_right _ (Nat.mul_le_mul_right _ hlt)
    _ = BASE * BASE^n := by rw [← pow_add, Nat.add_sub_of_le hsize', BASE]
    _ = BASE^(n + 1) := by rw [pow_succ, mul_comm]

/-- The loop of `divide` over a divisor of at least two digits. -/
theorem divide_long {m : ℕ} (htop : top < 2^128) (hbottom : bottom < 2^128)
    (hm : m ≤ 4) (hkm : k + 2 ≤ m) (hma : top = window BASE (split top) 0 m)
    (hnb : bottom = window BASE (split bottom) 0 (k + 2))
    (hhigh : (split bottom).getD (k + 1) 0 ≠ 0) :
    ∃ u v left quotient,
      shiftUp (split top) (leadingZeros ((split bottom).getD (k + 1) 0)) = some u ∧
      shiftUp (split bottom) (leadingZeros ((split bottom).getD (k + 1) 0)) = some v ∧
      (List.range (m - (k + 2) + 1)).reverse.foldlM (step v (k + 2))
        (u, List.replicate DIGITS 0) = some (left, quotient) ∧
      shiftDown left (leadingZeros ((split bottom).getD (k + 1) 0)) = some (top % bottom) ∧
      join quotient = top / bottom := by
  have hbase : 0 < BASE := by decide
  obtain ⟨hby, hfits⟩ := leadingZeros_spec (split_digits bottom) hhigh
  rw [← hnb] at hfits
  have hble : BASE^(k + 1) ≤ bottom := by rw [hnb]; exact le_window hhigh
  have hbpos : 0 < bottom := (Nat.pow_pos hbase).trans_le hble
  generalize leadingZeros ((split bottom).getD (k + 1) 0) = by_ at *
  have hpow : 0 < 2^by_ := by positivity
  obtain ⟨u, hu, hulen, hud, huv⟩ := shiftUp_spec hby (split_digits top)
  obtain ⟨v, hv, hvlen, hvd, hvv⟩ := shiftUp_spec hby (split_digits bottom)
  rw [split_length] at hulen hvlen
  norm_num only at hulen hvlen
  rw [value_split htop] at huv
  rw [value_split hbottom] at hvv
  unfold value at huv hvv
  rw [hulen] at huv
  -- The divisor keeps its length, and its top digit is still not zero.
  have hV : window BASE v 0 (k + 2) = bottom * 2^by_ := by
    have hsplit := window_add BASE v 0 (k + 2) (5 - (k + 2))
    rw [Nat.add_sub_of_le (by omega : k + 2 ≤ 5), ← hvlen, hvv] at hsplit
    have hzero : window BASE v (0 + (k + 2)) (v.length - (k + 2)) = 0 := by
      by_contra h0
      have : BASE^(k + 2) * 1 ≤ BASE^(k + 2) * window BASE v (0 + (k + 2)) (v.length - (k + 2)) :=
        Nat.mul_le_mul_left _ (Nat.one_le_iff_ne_zero.mpr h0)
      rw [show k + 1 + 1 = k + 2 from rfl] at hfits
      omega
    rw [hzero, mul_zero, add_zero] at hsplit
    exact hsplit.symm
  have hfirst : 0 < v.getD (k + 1) 0 := by
    rw [window_succ, zero_add] at hV
    have hlow := window_lt hvd hbase 0 (k + 1)
    have : bottom * 1 ≤ bottom * 2^by_ := Nat.mul_le_mul_left _ hpow
    by_contra h0
    rw [Nat.eq_zero_of_not_pos h0, zero_mul, add_zero] at hV
    omega
  have hlt : window BASE u 0 5 < window BASE v 0 (k + 2) * BASE^(m - (k + 2) + 1) := by
    rw [huv, hV]
    have htoplt : top < BASE^m := by
      rw [hma]
      exact window_lt (split_digits top) hbase 0 m
    calc top * 2^by_ < BASE^m * 2^by_ := Nat.mul_lt_mul_of_pos_right htoplt hpow
      _ = BASE^(k + 1) * 2^by_ * BASE^(m - (k + 2) + 1) := by
          rw [mul_right_comm, ← pow_add]
          congr 2
          omega
      _ ≤ bottom * 2^by_ * BASE^(m - (k + 2) + 1) :=
          Nat.mul_le_mul_right _ (Nat.mul_le_mul_right _ hble)
  obtain ⟨left, quotient, hfold, hld, hllen, hqd, hqlen, hsum, hleft⟩ :=
    steps_spec hvd hvlen hfirst (by omega : m - (k + 2) + 1 + (k + 2) ≤ 5) hud hulen
      (by simp [Digits, BASE, DIGITS] : Digits BASE (List.replicate DIGITS 0))
      (by simp [DIGITS]) (fun i _ => by simp) hlt
  have hzero : value (List.replicate DIGITS 0) = 0 := by decide
  rw [hzero, zero_mul, add_zero, huv, hV] at hsum
  rw [hV] at hleft
  -- What is left is a multiple of the power, as the dividend and the divisor are.
  have hmul : top * 2^by_ % (bottom * 2^by_) = window BASE left 0 5 := by
    rw [hsum, Nat.add_mul_mod_self_right, Nat.mod_eq_of_lt hleft]
  have hquot : top * 2^by_ / (bottom * 2^by_) = value quotient := by
    rw [hsum, Nat.add_mul_div_right _ _ (Nat.mul_pos hbpos hpow), Nat.div_eq_of_lt hleft, zero_add]
  rw [Nat.mul_mod_mul_right] at hmul
  rw [Nat.mul_div_mul_right _ _ hpow] at hquot
  refine ⟨u, v, left, quotient, hu, hv, hfold, ?_, ?_⟩
  · exact shiftDown_spec hby hld hllen (by rw [value, hllen]; exact hmul.symm)
      ((Nat.mod_lt _ hbpos).trans hbottom)
  · rw [join_eq hqd (by omega), hquot]

/-- The quotient and the remainder are the exact ones. -/
theorem divide_spec (htop : top < 2^128) (hbottom : bottom < 2^128)
    (hpos : 0 < bottom) : divide top bottom = some (top / bottom, top % bottom) := by
  have hbase : 0 < BASE := by decide
  obtain ⟨m, hm, hmeq, hma, hmhigh⟩ := used_split htop
  obtain ⟨n, hn, hneq, hnb, hnhigh⟩ := used_split hbottom
  have hdo : divide top bottom =
      (if n = 0 then some (0, 0)
      else if n = 1 then do
        let by_ ← (split bottom)[0]?
        (divideDigit by_ (split top)).bind fun r => some (join r.1, r.2)
      else if m < n then some (0, top)
      else do
        let high ← (split bottom)[n - 1]?
        let u ← shiftUp (split top) (leadingZeros high)
        let v ← shiftUp (split bottom) (leadingZeros high)
        let r ← (List.range (m - n + 1)).reverse.foldlM (step v n) (u, List.replicate DIGITS 0)
        let rest ← shiftDown r.1 (leadingZeros high)
        some (join r.2, rest)) := by
    unfold divide
    dsimp only
    rw [hmeq, hneq]
    rfl
  rw [hdo]
  match n, hn, hnb, hnhigh with
  | 0, _, hnb, _ => exact absurd hnb hpos.ne'
  | 1, _, hnb, _ =>
    rw [window_one] at hnb
    have hdigit : bottom < BASE := by
      rw [hnb]
      exact (split_digits bottom).getD_lt hbase 0
    obtain ⟨quotient, rest, heq, hlen, hd, hrest, hv⟩ :=
      divideDigit_spec hpos hdigit (split_digits top)
    rw [value_split htop] at hv
    rw [if_neg (by decide), if_pos rfl, getElem?_eq_getD (by simp), ← hnb]
    simp only [Option.bind_eq_bind, Option.bind_some, heq]
    rw [join_eq hd (by rw [hlen, split_length]), hv, Nat.mul_comm,
      Nat.mul_add_div hpos, Nat.div_eq_of_lt hrest, add_zero, Nat.mul_add_mod,
      Nat.mod_eq_of_lt hrest]
  | k + 2, hn, hnb, hnhigh =>
    have hhigh := hnhigh (by omega)
    rw [show k + 2 - 1 = k + 1 by omega] at hhigh ⊢
    rw [if_neg (by omega), if_neg (by omega)]
    split_ifs with hmn
    · have hlt : top < bottom := by
        calc top < BASE^m := by rw [hma]; exact window_lt (split_digits top) hbase 0 m
          _ ≤ BASE^(k + 1) := Nat.pow_le_pow_right hbase (by omega)
          _ ≤ bottom := by rw [hnb]; exact le_window hhigh
      rw [Nat.div_eq_of_lt hlt, Nat.mod_eq_of_lt hlt]
    · obtain ⟨u, v, left, quotient, hu, hv, hfold, hdown, hjoin⟩ :=
        divide_long htop hbottom hm (not_lt.mp hmn) hma hnb hhigh
      rw [getElem?_eq_getD (by rw [split_length]; omega)]
      simp only [Option.bind_eq_bind, Option.bind_some, hu, hv, hfold, hdown, hjoin]

/-! ## Signed values -/

theorem magnitude_eq {z : ℤ} (hlow : -2^127 ≤ z) (hhigh : z < 2^127) : magnitude z = z.natAbs := by
  unfold magnitude U128.wrappingSub U128.fromI128
  split_ifs with h <;> omega

/-- Truncating division is the division of the magnitudes, with the two signs multiplied. -/
theorem tdiv_eq (top bottom : ℤ) : top.tdiv bottom = if decide (top < 0) = decide (bottom < 0)
      then ((top.natAbs / bottom.natAbs : ℕ) : ℤ) else -((top.natAbs / bottom.natAbs : ℕ) : ℤ) := by
  have hneg : ∀ {z : ℤ}, z < 0 → z = -(z.natAbs : ℤ) := fun h => by omega
  have hnonneg : ∀ {z : ℤ}, 0 ≤ z → z = (z.natAbs : ℤ) := fun h => by omega
  rcases lt_or_ge top 0 with ht | ht <;> rcases lt_or_ge bottom 0 with hb | hb
  · rw [if_pos (by rw [decide_eq_decide]; omega)]
    conv_lhs => rw [hneg ht, hneg hb, Int.neg_tdiv_neg, ← Int.ofNat_tdiv]
  · rw [if_neg (by rw [decide_eq_decide]; omega)]
    conv_lhs => rw [hneg ht, hnonneg hb, Int.neg_tdiv, ← Int.ofNat_tdiv]
  · rw [if_neg (by rw [decide_eq_decide]; omega)]
    conv_lhs => rw [hnonneg ht, hneg hb, Int.tdiv_neg, ← Int.ofNat_tdiv]
  · rw [if_pos (by rw [decide_eq_decide]; omega)]
    conv_lhs => rw [hnonneg ht, hnonneg hb, ← Int.ofNat_tdiv]

/-- The remainder is the one of the magnitudes, with the sign of the dividend. -/
theorem tmod_eq (top bottom : ℤ) : top.tmod bottom = if top < 0 then -((top.natAbs % bottom.natAbs : ℕ) : ℤ)
      else ((top.natAbs % bottom.natAbs : ℕ) : ℤ) := by
  have habs : top.tmod bottom = top.tmod bottom.natAbs := by
    rcases Int.natAbs_eq bottom with h | h
    · rw [← h]
    · conv_lhs => rw [h, Int.tmod_neg]
  rw [habs]
  split_ifs with ht
  · have hneg : top = -(top.natAbs : ℤ) := by omega
    conv_lhs => rw [hneg, Int.neg_tmod, ← Int.ofNat_tmod]
  · have hnonneg : top = (top.natAbs : ℤ) := by omega
    conv_lhs => rw [hnonneg, ← Int.ofNat_tmod]

/-- The signed division truncates towards zero. -/
theorem divideSigned_spec {top bottom : ℤ} (ht : -2^127 ≤ top) (ht' : top < 2^127)
    (hb : -2^127 ≤ bottom) (hb' : bottom < 2^127) (hbottom : bottom ≠ 0)
    (hends : ¬(top = -2^127 ∧ bottom = -1)) :
    divideSigned top bottom = some (top.tdiv bottom, top.tmod bottom) := by
  have hpos : 0 < bottom.natAbs := Int.natAbs_pos.mpr hbottom
  have hquot : top.natAbs / bottom.natAbs ≤ top.natAbs := Nat.div_le_self _ _
  have hrest : top.natAbs % bottom.natAbs ≤ 2^127 - 1 := by
    have := Nat.mod_lt top.natAbs hpos
    omega
  rw [divideSigned, magnitude_eq ht ht', magnitude_eq hb hb',
    divide_spec (by omega) (by omega) hpos, tdiv_eq, tmod_eq]
  simp only [Option.bind_eq_bind, Option.bind_some]
  rw [U128.toI128_neg (by omega), U128.toI128_neg (by omega),
    U128.toI128_of_lt (a := _ % _) (by omega)]
  -- The quotient reaches `2^127` only where the signs differ.
  split_ifs with hsign
  all_goals try rfl
  all_goals
    rw [U128.toI128_of_lt]
    by_contra! hge
    have hmul : bottom.natAbs * 2^127 ≤ top.natAbs :=
      (Nat.mul_le_mul_left _ hge).trans (Nat.mul_div_le _ _)
    have hone : bottom.natAbs = 1 := by omega
    refine hends ⟨by omega, ?_⟩
    simp only [decide_eq_decide] at hsign
    omega

/-- Multiword division is exact: for every two words with a nonzero divisor the quotient and the rest come
back, every machine operation on the way in its width and every index in its array; and the signed
one truncates as C does wherever the quotient fits. -/
theorem divide_exact :
    (∀ top bottom : ℕ, top < 2^128 → bottom < 2^128 → bottom ≠ 0 →
      ∃ quotient rest, divide top bottom = some (quotient, rest) ∧
        top = quotient * bottom + rest ∧ rest < bottom) ∧
    (∀ top bottom : ℤ, -2^127 ≤ top → top < 2^127 → -2^127 ≤ bottom → bottom < 2^127 →
      bottom ≠ 0 → ¬(top = -2^127 ∧ bottom = -1) →
      divideSigned top bottom = some (top.tdiv bottom, top.tmod bottom)) := by
  constructor
  · intro top bottom htop hbottom h0
    have hpos := Nat.pos_of_ne_zero h0
    refine ⟨_, _, divide_spec htop hbottom hpos, ?_, Nat.mod_lt _ hpos⟩
    rw [mul_comm]
    exact (Nat.div_add_mod _ _).symm
  · intro top bottom ht ht' hb hb' hbottom hends
    exact divideSigned_spec ht ht' hb hb' hbottom hends

/-- The pair that the correction misses: one less than the divisor. -/
theorem divide_exact_addBack :
    (∃ quotient rest, divide (2^127 + 2^33 - 1) (2^127 + 2^33) = some (quotient, rest) ∧
      2^127 + 2^33 - 1 = quotient * (2^127 + 2^33) + rest ∧ rest < 2^127 + 2^33) ∧
    divideSigned (-7) 2 = some (Int.tdiv (-7) 2, Int.tmod (-7) 2) :=
  ⟨divide_exact.1 _ _ (by norm_num) (by norm_num) (by norm_num),
    divide_exact.2 _ _ (by norm_num) (by norm_num) (by norm_num) (by norm_num) (by norm_num)
      (by norm_num)⟩

end Rucc.Builtins.Div
