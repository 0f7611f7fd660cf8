import Mathlib.Data.List.DropRight
import Mathlib.Data.Nat.Digits.Lemmas
import Rucc.Lib.Checked
import Rucc.Lib.Digits

/-!
# Exact decimal numbers

The number of `decimal.rs`: a run of digits and a position for the point, multiplied and divided by
powers of two until it is in reach of a significand. Digits past `MAX_DIGITS` are dropped and
remembered.

Dropping digits only ever takes from the value. So a number shifted is at most the exact one
(`shift_spec`), and the integer read out of it at most its value (`roundToU128_le`), which is all that
the encoding of the answer depends on.

The words the digits are carried in are `u64` in the source, and no carry here comes near the end of
one. The point is an `i32`: an addition that would leave that range is `none`, as in
`Rucc/Base/Float.lean`.
-/

namespace Rucc.Base

open Checked

/-- The most digits kept. -/
def MAX_DIGITS : ℕ := 5120

/-- The largest shift a single pass can do. -/
def MAX_SHIFT : ℕ := 60

/-- A count cut to the `i32` its low bits are. -/
def asI32 (n : ℕ) : ℤ := (BitVec.ofNat 32 n).toInt

theorem asI32_of_lt {n : ℕ} (h : n < 2^31) : asI32 n = n := by
  have hmod : (BitVec.ofNat 32 n).toNat = n := by
    rw [BitVec.toNat_ofNat, Nat.mod_eq_of_lt (by omega)]
  rw [asI32, BitVec.toInt_eq_toNat_of_lt (by omega), hmod]

/-- Where a value sits between the two integers around it. -/
inductive Fraction where
  | zero
  | belowHalf
  | half
  | aboveHalf
  deriving DecidableEq, Repr

/-- A decimal number, as digits and a decimal point position: the value is `0.digits * 10^point`. -/
structure Decimal where
  digits : List ℕ
  point : ℤ
  truncated : Bool
  deriving DecidableEq, Repr

namespace Decimal

variable {digits rest scratch : List ℕ} {d s : Decimal} {k remainder r n fuel : ℕ}

/-- The value of the digits kept. -/
def value (d : Decimal) : ℚ := Digits.value d.digits * 10^(d.point - d.digits.length)

/-- A number as `trim` leaves it: digits, and no more of them than are kept. -/
structure Trimmed (d : Decimal) : Prop where
  decimal : Digits.Decimal d.digits
  short : d.digits.length ≤ MAX_DIGITS

/-- Drops trailing zeros and excess digits. -/
def trimEnd (digits : List ℕ) : List ℕ :=
  let digits := digits.rdropWhile (· = 0)
  if MAX_DIGITS < digits.length then (digits.take MAX_DIGITS).rdropWhile (· = 0) else digits

/-- Drops leading zeros, which move the point, and trailing zeros and excess digits, which do not,
and notes when a dropped digit meant something. -/
def trim (d : Decimal) : Option Decimal := do
  let leading := (d.digits.takeWhile (· = 0)).length
  let point ← checked 32 (d.point - asI32 leading)
  let digits := d.digits.drop leading
  let kept := trimEnd digits
  let truncated := d.truncated || ((digits.rdropWhile (· = 0)).drop MAX_DIGITS).any (· ≠ 0)
  return ⟨kept, if kept = [] ∧ !truncated then 0 else point, truncated⟩

/-- Builds a decimal from digit values and a point position. -/
def new (digits : List ℕ) (point : ℤ) : Option Decimal := trim ⟨digits, point, false⟩

/-- Whether the value is zero, which is the one value with no digits. -/
def isZero (d : Decimal) : Bool := d.digits.isEmpty

/-- The leading digit, which is never zero unless the value is. -/
def firstDigit (d : Decimal) : ℕ := d.digits.headD 0

/-- One digit multiplied by `2^k`, with the carry of the digits below it. -/
def timesStep (k digit : ℕ) (state : List ℕ × ℕ) : List ℕ × ℕ :=
  let value := (digit <<< k) + state.2
  (value % 10 :: state.1, value / 10)

/-- Multiplies by `2^k`. -/
def shiftLeft (d : Decimal) (k : ℕ) : Option Decimal := do
  let state := d.digits.foldr (timesStep k) ([], 0)
  let scratch := (Nat.digits 10 state.2).reverse ++ state.1
  let point ← checked 32 (d.point + asI32 (scratch.length - d.digits.length))
  trim ⟨scratch, point, d.truncated⟩

/-- Tens of a remainder that is short of a divisor, and how many places were read for them. Each one
more than doubles the remainder, so `k` of them reach `2^k`. -/
def padRemainder (k : ℕ) : ℕ → ℕ → ℕ → ℕ × ℕ
  | 0, remainder, read => (remainder, read)
  | fuel + 1, remainder, read =>
    if remainder >>> k = 0 then padRemainder k fuel (remainder * 10) (read + 1)
    else (remainder, read)

/-- Takes digits until there is something to divide: the remainder, how many places were read, and
the digits left. Nothing is left to divide in a number that has no digit but zeros. -/
def readDigits (k : ℕ) : List ℕ → ℕ → ℕ → Option (ℕ × ℕ × List ℕ)
  | digits, remainder, read =>
    if remainder >>> k = 0 then
      match digits with
      | [] =>
        if remainder = 0 then none
        else
          let padded := padRemainder k k remainder read
          some (padded.1, padded.2, [])
      | digit :: digits => readDigits k digits (remainder * 10 + digit) (read + 1)
    else some (remainder, read, digits)

/-- One digit of the quotient, and the next digit of the number brought down. -/
def divideStep (k : ℕ) (state : List ℕ × ℕ) (digit : ℕ) : List ℕ × ℕ :=
  (state.1 ++ [state.2 >>> k], (state.2 &&& ((1 <<< k) - 1)) * 10 + digit)

/-- The digits of the quotient after those of the number have all been brought down. Each turn takes
one more factor of two out of the remainder, so it is gone after `k + 1` of them. -/
def divideRest (k : ℕ) : ℕ → List ℕ → ℕ → Bool → List ℕ × Bool
  | 0, scratch, _, truncated => (scratch, truncated)
  | fuel + 1, scratch, remainder, truncated =>
    if 0 < remainder then
      let digit := remainder >>> k
      let remainder := (remainder &&& ((1 <<< k) - 1)) * 10
      if scratch.length < MAX_DIGITS then divideRest k fuel (scratch ++ [digit]) remainder truncated
      else divideRest k fuel scratch remainder (truncated || 0 < digit)
    else (scratch, truncated)

/-- Divides by `2^k`, long division in base ten with the remainder carried digit to digit. -/
def shiftRight (d : Decimal) (k : ℕ) : Option Decimal :=
  match readDigits k d.digits 0 0 with
  | none => some ⟨[], 0, d.truncated⟩
  | some (remainder, read, rest) => do
    let point ← checked 32 (d.point - (asI32 read - 1))
    let state := rest.foldl (divideStep k) ([], remainder)
    let quotient := divideRest k (k + 1) state.1 state.2 d.truncated
    trim ⟨quotient.1, point, quotient.2⟩

/-- Passes of one of the two shifts, each small enough for a word, until `k` places are done. -/
def passes (pass : Decimal → ℕ → Option Decimal) : ℕ → ℕ → Decimal → Option Decimal
  | 0, _, d => some d
  | fuel + 1, k, d =>
    if 0 < k ∧ !d.isZero then do
      let moved ← pass d (min k MAX_SHIFT)
      passes pass fuel (k - min k MAX_SHIFT) moved
    else some d

/-- Multiplies by `2^k`, or divides when `k` is negative. -/
def shift (d : Decimal) (k : ℤ) : Option Decimal :=
  if 0 ≤ k then passes shiftLeft k.toNat k.toNat d else passes shiftRight (-k).toNat (-k).toNat d

/-- The largest word. -/
def saturate (n : ℕ) : ℕ := min n (2^128 - 1)

/-- The integer part, and where the rest of the value sits between it and the next integer. -/
def roundToU128 (d : Decimal) : ℕ × Fraction :=
  let taken := (max 0 (min d.point (asI32 d.digits.length))).toNat
  let integer := (d.digits.take taken).foldl (fun n digit => saturate (saturate (n * 10) + digit)) 0
  let integer := (fun n => saturate (n * 10))^[(d.point - taken).toNat] integer
  let rest := d.digits.drop taken
  match rest with
  | [] => (integer, if d.truncated then .belowHalf else .zero)
  | leading :: more =>
    if d.point < 0 then (integer, .belowHalf)
    else
      let more := more.any (· ≠ 0) || d.truncated
      (integer,
        if 6 ≤ leading then .aboveHalf
        else if leading = 5 then if more then .aboveHalf else .half
        else if leading = 0 ∧ !more then .zero
        else .belowHalf)

/-! ## What a shift does to the value -/

theorem value_nonneg (d : Decimal) : 0 ≤ d.value := by
  unfold value
  positivity

/-- The places of a run, taken off a point behind more of them. -/
theorem ten_pow_mul (r a : ℕ) (p : ℤ) : (10 : ℚ)^r * 10^(p - ((a + r : ℕ) : ℤ)) = 10^(p - a) := by
  rw [← zpow_natCast, ← zpow_add₀ (by norm_num)]
  congr 1
  push_cast
  omega

/-- Digits dropped off the end only take from the value. -/
theorem value_le_of_prefix {kept : List ℕ} (h : kept <+: digits) (point : ℤ) (t t' : Bool) :
    value ⟨kept, point, t⟩ ≤ value ⟨digits, point, t'⟩ := by
  obtain ⟨dropped, rfl⟩ := h
  have hpos : (0 : ℚ) ≤ Digits.value dropped * 10^(point - ((kept ++ dropped).length : ℤ)) := by
    positivity
  calc value ⟨kept, point, t⟩
      = Digits.value kept * (10^dropped.length *
          10^(point - ((kept.length + dropped.length : ℕ) : ℤ))) := by rw [ten_pow_mul]; rfl
    _ ≤ (Digits.value kept * 10^dropped.length + Digits.value dropped : ℕ) *
          10^(point - ((kept ++ dropped).length : ℤ)) := by
        rw [List.length_append] at hpos ⊢
        push_cast at hpos ⊢
        linarith
    _ = value ⟨kept ++ dropped, point, t'⟩ := by rw [← Digits.value_append]; rfl

/-- Zeros in front move the point. -/
theorem value_drop_leading (digits : List ℕ) (point : ℤ) (t t' : Bool) :
    value ⟨digits.drop (digits.takeWhile (· = 0)).length,
      point - (digits.takeWhile (· = 0)).length, t⟩ = value ⟨digits, point, t'⟩ := by
  have hsplit : digits.takeWhile (· = 0) ++ digits.dropWhile (· = 0) = digits :=
    List.takeWhile_append_dropWhile
  have hdrop : digits.drop (digits.takeWhile (· = 0)).length = digits.dropWhile (· = 0) := by
    nth_rewrite 2 [← hsplit]
    exact List.drop_left
  have hlen : (digits.takeWhile (· = 0)).length + (digits.dropWhile (· = 0)).length =
      digits.length := by
    rw [← List.length_append, hsplit]
  rw [hdrop]
  unfold value
  dsimp only
  rw [Digits.value_dropWhile]
  congr 2
  omega

/-- What is kept is the front of a run, and no longer than the most digits kept. -/
theorem trimEnd_spec (run : List ℕ) : trimEnd run <+: run ∧ (trimEnd run).length ≤ MAX_DIGITS := by
  unfold trimEnd
  dsimp only
  split_ifs with hlong
  · have hpre := List.rdropWhile_prefix (p := fun x => decide (x = 0))
      (l := (run.rdropWhile (· = 0)).take MAX_DIGITS)
    refine ⟨hpre.trans ((List.take_prefix _ _).trans (List.rdropWhile_prefix ..)), ?_⟩
    exact hpre.length_le.trans (List.length_take_le _ _)
  · exact ⟨List.rdropWhile_prefix .., not_lt.1 hlong⟩

/-- Trimming leaves digits and no more of them than are kept, and at most the value of a run whose
length an `i32` counts. -/
theorem trim_spec {t : Decimal} (hd : Digits.Decimal d.digits) (h : d.trim = some t) :
    t.Trimmed ∧ (d.digits.length < 2^31 → t.value ≤ d.value) := by
  obtain ⟨point, hpoint, h⟩ := Option.bind_eq_some_iff.mp h
  obtain rfl := Option.some.inj h
  obtain ⟨hpre, hshort⟩ := trimEnd_spec (d.digits.drop (d.digits.takeWhile (· = 0)).length)
  refine ⟨⟨fun x hx => hd x (List.mem_of_mem_drop (hpre.subset hx)), hshort⟩, fun hlen => ?_⟩
  have hlead : (d.digits.takeWhile (· = 0)).length < 2^31 :=
    lt_of_le_of_lt (List.takeWhile_prefix _).length_le hlen
  rw [asI32_of_lt hlead, checked_eq_some] at hpoint
  have hle := value_le_of_prefix hpre point d.truncated d.truncated
  rw [← hpoint.2, value_drop_leading _ _ _ d.truncated, hpoint.2] at hle
  refine le_trans ?_ hle
  generalize trimEnd (d.digits.drop (d.digits.takeWhile (· = 0)).length) = kept
  split_ifs with hnil
  · obtain ⟨rfl, -⟩ := hnil
    simp [value]
  · exact le_rfl

/-- One more digit at the end. -/
theorem value_concat (digits : List ℕ) (digit : ℕ) :
    Digits.value (digits ++ [digit]) = Digits.value digits * 10 + digit := by
  rw [Digits.value_append, Digits.value_cons]
  simp

/-- The value of digits written from the low end. -/
theorem value_reverse (digits : List ℕ) : Digits.value digits.reverse = Nat.ofDigits 10 digits := by
  induction digits with
  | nil => rfl
  | cons digit digits ih =>
    rw [List.reverse_cons, value_concat, ih, Nat.ofDigits_cons]
    ring

/-- Multiplying the digits of a run leaves as many digits, and the carry in front of them makes up
the product. -/
theorem foldr_timesStep (k : ℕ) (digits : List ℕ) : let state := digits.foldr (timesStep k) ([], 0)
    Digits.Decimal state.1 ∧ state.1.length = digits.length ∧
      state.2 * 10^digits.length + Digits.value state.1 = Digits.value digits * 2^k := by
  induction digits with
  | nil => simp [Digits.Decimal]
  | cons digit digits ih =>
    rw [List.foldr_cons]
    generalize digits.foldr (timesStep k) ([], 0) = state at ih ⊢
    obtain ⟨hdec, hlen, hval⟩ := ih
    unfold timesStep
    dsimp only
    generalize hv : (digit <<< k) + state.2 = v
    refine ⟨?_, by simp [hlen], ?_⟩
    · rintro x (_ | ⟨_, hx⟩)
      · exact Nat.mod_lt _ (by norm_num)
      · exact hdec x hx
    · rw [Digits.value_cons, Digits.value_cons, hlen, List.length_cons, pow_succ, add_mul, ← hval]
      have hmod := Nat.div_add_mod v 10
      calc v / 10 * (10^digits.length * 10) + (v % 10 * 10^digits.length + Digits.value state.1)
          = (10 * (v / 10) + v % 10) * 10^digits.length + Digits.value state.1 := by ring
        _ = (digit * 2^k + state.2) * 10^digits.length + Digits.value state.1 := by
            rw [hmod, ← hv, Nat.shiftLeft_eq]
        _ = digit * 10^digits.length * 2^k +
              (state.2 * 10^digits.length + Digits.value state.1) := by ring

/-- Multiplying by a power of two that one pass can do. -/
theorem shiftLeft_spec (hd : d.Trimmed) (hk : k ≤ MAX_SHIFT)
    (h : d.shiftLeft k = some s) : s.Trimmed ∧ s.value ≤ d.value * 2^k := by
  obtain ⟨hdec, hlen, hval⟩ := foldr_timesStep k d.digits
  obtain ⟨point, hpoint, htrim⟩ := Option.bind_eq_some_iff.mp h
  generalize d.digits.foldr (timesStep k) ([], 0) = state at hdec hlen hval hpoint htrim
  obtain ⟨low, carry⟩ := state
  dsimp only at hdec hlen hval hpoint htrim
  -- The carry is below the power of two, so it has few digits.
  have hcarry : carry < 10^MAX_SHIFT := by
    have hlt : carry * 10^d.digits.length < 2^k * 10^d.digits.length := by
      calc carry * 10^d.digits.length ≤ Digits.value d.digits * 2^k := by omega
        _ < 10^d.digits.length * 2^k :=
            Nat.mul_lt_mul_of_pos_right (Digits.value_lt hd.decimal) (Nat.two_pow_pos k)
        _ = 2^k * 10^d.digits.length := mul_comm _ _
    calc carry < 2^k := lt_of_mul_lt_mul_right hlt (Nat.zero_le _)
      _ ≤ 2^MAX_SHIFT := Nat.pow_le_pow_right (by norm_num) hk
      _ ≤ 10^MAX_SHIFT := Nat.pow_le_pow_left (by norm_num) _
  have hfew : (Nat.digits 10 carry).length ≤ MAX_SHIFT :=
    (Nat.digits_length_le_iff (by norm_num) _).2 hcarry
  have hshort := hd.short
  have hcount : ((Nat.digits 10 carry).reverse ++ low).length =
      d.digits.length + (Nat.digits 10 carry).length := by
    rw [List.length_append, List.length_reverse, hlen, add_comm]
  unfold MAX_SHIFT at hfew
  unfold MAX_DIGITS at hshort
  rw [hcount, Nat.add_sub_cancel_left, asI32_of_lt (by omega), checked_eq_some] at hpoint
  have hdigits : Digits.Decimal ((Nat.digits 10 carry).reverse ++ low) := by
    refine Digits.Decimal.append.2 ⟨fun x hx => ?_, hdec⟩
    exact Nat.digits_lt_base (by norm_num) (List.mem_reverse.1 hx)
  obtain ⟨ht, hle⟩ := trim_spec hdigits htrim
  refine ⟨ht, (hle (by rw [hcount]; omega)).trans (le_of_eq ?_)⟩
  have hproduct : Digits.value ((Nat.digits 10 carry).reverse ++ low) =
      Digits.value d.digits * 2^k := by
    rw [Digits.value_append, value_reverse, Nat.ofDigits_digits, hlen, hval]
  unfold value
  dsimp only
  rw [hproduct, hcount, ← hpoint.2]
  have hplaces : d.point + ((Nat.digits 10 carry).length : ℤ) -
      ((d.digits.length + (Nat.digits 10 carry).length : ℕ) : ℤ) = d.point - d.digits.length := by
    push_cast
    omega
  rw [hplaces]
  push_cast
  ring

/-- Padding multiplies the remainder by ten for each place it reads. -/
theorem padRemainder_spec (k fuel : ℕ) (read : ℕ) (hr : remainder < 10 * 2^k) :
    ∃ j, (padRemainder k fuel remainder read).1 = remainder * 10^j ∧
      (padRemainder k fuel remainder read).2 = read + j ∧ j ≤ fuel ∧
      (padRemainder k fuel remainder read).1 < 10 * 2^k := by
  induction fuel generalizing remainder read with
  | zero => exact ⟨0, by simp [padRemainder], rfl, le_rfl, hr⟩
  | succ fuel ih =>
    unfold padRemainder
    split_ifs with h
    · have hlt : remainder < 2^k := by
        rw [Nat.shiftRight_eq_div_pow] at h
        exact (Nat.div_eq_zero_iff_lt (Nat.two_pow_pos k)).1 h
      have hnext : remainder * 10 < 10 * 2^k := by omega
      obtain ⟨j, hval, hread, hj, hbound⟩ := ih (read + 1) hnext
      exact ⟨j + 1, by rw [hval]; ring, by omega, by omega, hbound⟩
    · exact ⟨0, by simp, rfl, Nat.zero_le _, hr⟩

/-- What was read of the digits, with the rest of them behind it, is the number with as many places
as were padded. -/
theorem readDigits_spec {read : ℕ} (hd : Digits.Decimal digits) (hr : remainder < 10 * 2^k)
    (h : readDigits k digits remainder read = some (r, n, rest)) :
    ∃ j, r * 10^rest.length + Digits.value rest =
        (remainder * 10^digits.length + Digits.value digits) * 10^j ∧
      n + rest.length = read + digits.length + j ∧ j ≤ k ∧ r < 10 * 2^k ∧ rest <:+ digits := by
  induction digits generalizing remainder read with
  | nil =>
    unfold readDigits at h
    split_ifs at h with hsmall hzero
    · obtain ⟨j, hval, hread, hj, hbound⟩ := padRemainder_spec k k read hr
      simp only [Option.some.injEq, Prod.mk.injEq] at h
      obtain ⟨rfl, rfl, rfl⟩ := h
      exact ⟨j, by simp [hval], by simp [hread], hj, hbound, List.suffix_rfl⟩
    · simp only [Option.some.injEq, Prod.mk.injEq] at h
      obtain ⟨rfl, rfl, rfl⟩ := h
      exact ⟨0, by simp, rfl, Nat.zero_le _, hr, List.suffix_rfl⟩
  | cons digit digits ih =>
    unfold readDigits at h
    by_cases hsmall : remainder >>> k = 0
    · rw [if_pos hsmall] at h
      have hlt : remainder < 2^k := by
        rw [Nat.shiftRight_eq_div_pow] at hsmall
        exact (Nat.div_eq_zero_iff_lt (Nat.two_pow_pos k)).1 hsmall
      have hdigit : digit < 10 := hd digit List.mem_cons_self
      obtain ⟨j, hval, hread, hj, hbound, hsuffix⟩ :=
        ih (fun x hx => hd x (List.mem_cons_of_mem _ hx)) (by omega) h
      refine ⟨j, ?_, ?_, hj, hbound, hsuffix.trans (List.suffix_cons _ _)⟩
      · rw [hval, Digits.value_cons, List.length_cons, pow_succ]
        ring
      · rw [hread, List.length_cons]
        omega
    · rw [if_neg hsmall] at h
      simp only [Option.some.injEq, Prod.mk.injEq] at h
      obtain ⟨rfl, rfl, rfl⟩ := h
      exact ⟨0, by simp, rfl, Nat.zero_le _, hr, List.suffix_rfl⟩

/-- One digit of the quotient is a digit, and what is carried on is no longer than before. -/
theorem divide_digit (hr : r < 10 * 2^k) : r >>> k < 10 ∧
    r &&& ((1 <<< k) - 1) < 2^k ∧ (r >>> k) * 2^k + (r &&& ((1 <<< k) - 1)) = r := by
  have hmask : r &&& ((1 <<< k) - 1) = r % 2^k := by
    rw [Nat.shiftLeft_eq, one_mul, Nat.and_two_pow_sub_one_eq_mod]
  rw [hmask, Nat.shiftRight_eq_div_pow]
  refine ⟨Nat.div_lt_of_lt_mul (by omega), Nat.mod_lt _ (Nat.two_pow_pos k), ?_⟩
  rw [mul_comm]
  exact Nat.div_add_mod r (2^k)

/-- The quotient so far and the remainder make up the digits brought down. -/
theorem foldl_divideStep (k : ℕ) (hrest : Digits.Decimal rest) (hs : Digits.Decimal scratch) (hr : r < 10 * 2^k) :
    let state := rest.foldl (divideStep k) (scratch, r)
    Digits.Decimal state.1 ∧ state.1.length = scratch.length + rest.length ∧ state.2 < 10 * 2^k ∧
      Digits.value state.1 * (10 * 2^k) + state.2 =
        (Digits.value scratch * (10 * 2^k) + r) * 10^rest.length + Digits.value rest := by
  induction rest generalizing scratch r with
  | nil => exact ⟨hs, rfl, hr, by simp⟩
  | cons digit rest ih =>
    obtain ⟨hdigit, hlow, hsplit⟩ := divide_digit hr
    have hnext : digit < 10 := hrest digit List.mem_cons_self
    have hs' : Digits.Decimal (scratch ++ [r >>> k]) :=
      Digits.Decimal.append.2 ⟨hs, by simpa [Digits.Decimal] using hdigit⟩
    obtain ⟨hdec, hlen, hbound, hval⟩ := ih (fun x hx => hrest x (List.mem_cons_of_mem _ hx)) hs'
      (r := (r &&& ((1 <<< k) - 1)) * 10 + digit) (by omega)
    rw [List.foldl_cons, divideStep]
    refine ⟨hdec, ?_, hbound, ?_⟩
    · rw [hlen, List.length_append, List.length_singleton, List.length_cons]
      omega
    · have hlength : (digit :: rest).length = rest.length + 1 := rfl
      rw [hval, value_concat, Digits.value_cons, hlength, pow_succ]
      generalize r >>> k = q at *
      generalize r &&& ((1 <<< k) - 1) = low at *
      rw [← hsplit]
      ring

/-- Nothing is added to digits that are as many as are kept. -/
theorem divideRest_full (k fuel r : ℕ) (truncated : Bool)
    (hfull : MAX_DIGITS ≤ scratch.length) : (divideRest k fuel scratch r truncated).1 = scratch := by
  induction fuel generalizing r truncated with
  | zero => rfl
  | succ fuel ih =>
    unfold divideRest
    by_cases hr : 0 < r
    · simp only [if_pos hr, if_neg hfull.not_gt]
      exact ih _ _
    · rw [if_neg hr]

/-- The quotient is at most what there was to divide. -/
theorem divideRest_spec (k fuel : ℕ) (truncated : Bool) (hs : Digits.Decimal scratch) (hr : r < 10 * 2^k) :
    let quotient := (divideRest k fuel scratch r truncated).1
    Digits.Decimal quotient ∧ quotient.length ≤ max scratch.length MAX_DIGITS ∧
      ∃ j, quotient.length = scratch.length + j ∧
        Digits.value quotient * (10 * 2^k) ≤ (Digits.value scratch * (10 * 2^k) + r) * 10^j := by
  have hstop : Digits.Decimal scratch ∧ scratch.length ≤ max scratch.length MAX_DIGITS ∧
      ∃ j, scratch.length = scratch.length + j ∧
        Digits.value scratch * (10 * 2^k) ≤ (Digits.value scratch * (10 * 2^k) + r) * 10^j :=
    ⟨hs, le_max_left _ _, 0, rfl, by rw [pow_zero, mul_one]; exact Nat.le_add_right _ _⟩
  induction fuel generalizing scratch r truncated with
  | zero => exact hstop
  | succ fuel ih =>
    by_cases hfull : MAX_DIGITS ≤ scratch.length
    · rw [divideRest_full k (fuel + 1) r truncated hfull]
      exact hstop
    unfold divideRest
    by_cases hpos : 0 < r
    · obtain ⟨hdigit, hlow, hsplit⟩ := divide_digit hr
      have hs' : Digits.Decimal (scratch ++ [r >>> k]) :=
        Digits.Decimal.append.2 ⟨hs, by simpa [Digits.Decimal] using hdigit⟩
      simp only [if_pos hpos, if_pos (not_le.1 hfull)]
      generalize hr' : (r &&& ((1 <<< k) - 1)) * 10 = r'
      have hstop' : Digits.Decimal (scratch ++ [r >>> k]) ∧
          (scratch ++ [r >>> k]).length ≤ max (scratch ++ [r >>> k]).length MAX_DIGITS ∧
          ∃ j, (scratch ++ [r >>> k]).length = (scratch ++ [r >>> k]).length + j ∧
            Digits.value (scratch ++ [r >>> k]) * (10 * 2^k) ≤
              (Digits.value (scratch ++ [r >>> k]) * (10 * 2^k) + r') * 10^j :=
        ⟨hs', le_max_left _ _, 0, rfl, by rw [pow_zero, mul_one]; exact Nat.le_add_right _ _⟩
      obtain ⟨hdec, hlen, j, hj, hval⟩ := ih truncated hs' (r := r') (by omega) hstop'
      have hlength : (scratch ++ [r >>> k]).length = scratch.length + 1 := by simp
      refine ⟨hdec, by omega, j + 1, by omega, hval.trans (le_of_eq ?_)⟩
      rw [value_concat, ← hr']
      generalize r >>> k = q at *
      generalize r &&& ((1 <<< k) - 1) = low at *
      rw [← hsplit]
      ring
    · rw [if_neg hpos]
      exact hstop

/-- A quotient that is within the number padded to `n` places more, read one place to the left of
them. -/
theorem value_le_of_quotient {number : List ℕ} {p q : ℤ} {t t' : Bool}
    (hle : Digits.value digits * (10 * 2^k) ≤ Digits.value number * 10^n)
    (hplaces : p - digits.length = q - number.length + 1 - n) :
    value ⟨digits, p, t⟩ * 2^k ≤ value ⟨number, q, t'⟩ := by
  have hrat : (Digits.value digits : ℚ) * (10 * 2^k) ≤ Digits.value number * 10^n := by
    exact_mod_cast hle
  have hpos : (0 : ℚ) < 10^(q - (number.length : ℤ)) := by positivity
  have hten : (10 : ℚ)^(p - (digits.length : ℤ)) = 10^(q - (number.length : ℤ)) * 10 / 10^n := by
    rw [hplaces, zpow_sub₀ (by norm_num), zpow_add_one₀ (by norm_num), zpow_natCast]
  calc value ⟨digits, p, t⟩ * 2^k
      = Digits.value digits * (10^(q - (number.length : ℤ)) * 10 / 10^n) * 2^k := by
        rw [← hten]
        rfl
    _ = Digits.value digits * (10 * 2^k) * 10^(q - (number.length : ℤ)) / 10^n := by ring
    _ ≤ Digits.value number * 10^n * 10^(q - (number.length : ℤ)) / 10^n := by gcongr
    _ = Digits.value number * 10^(q - (number.length : ℤ)) := by field_simp
    _ = value ⟨number, q, t'⟩ := rfl

/-- Dividing by a power of two that one pass can do. -/
theorem shiftRight_spec (hd : d.Trimmed) (hk : k ≤ MAX_SHIFT)
    (h : d.shiftRight k = some s) : s.Trimmed ∧ s.value * 2^k ≤ d.value := by
  have hshort := hd.short
  unfold MAX_SHIFT at hk
  unfold MAX_DIGITS at hshort
  unfold shiftRight at h
  cases hread : readDigits k d.digits 0 0 with
  | none =>
    rw [hread] at h
    obtain rfl := Option.some.inj h
    refine ⟨⟨by simp [Digits.Decimal], Nat.zero_le _⟩, ?_⟩
    simp only [value, Digits.value_nil, Nat.cast_zero, zero_mul]
    positivity
  | some found =>
    obtain ⟨r, n, rest⟩ := found
    rw [hread] at h
    obtain ⟨point, hpoint, htrim⟩ := Option.bind_eq_some_iff.mp h
    obtain ⟨j, hsplit, hplaces, hj, hr, hsuffix⟩ :=
      readDigits_spec hd.decimal (by positivity) hread
    have hrest := hsuffix.length_le
    have hnone : Digits.Decimal [] := by simp [Digits.Decimal]
    obtain ⟨hdec, hlen, hbound, hval⟩ :=
      foldl_divideStep k (fun x hx => hd.decimal x (hsuffix.subset hx)) hnone hr
    generalize rest.foldl (divideStep k) ([], r) = state at hdec hlen hbound hval htrim
    dsimp only at htrim
    obtain ⟨hdec', hlen', i, hi, hle⟩ := divideRest_spec k (k + 1) d.truncated hdec hbound
    generalize divideRest k (k + 1) state.1 state.2 d.truncated = quotient at hdec' hlen' hi hle htrim
    rw [List.length_nil, Nat.zero_add] at hlen
    unfold MAX_DIGITS at hlen'
    rw [asI32_of_lt (by omega), checked_eq_some] at hpoint
    have hlong : quotient.1.length < 2^31 := by omega
    obtain ⟨ht, hvalue⟩ := trim_spec hdec' htrim
    refine ⟨ht, (mul_le_mul_of_nonneg_right (hvalue hlong) (by positivity)).trans ?_⟩
    -- In integers: the quotient, ten times over, is within the number padded to as many places.
    have hnat : Digits.value quotient.1 * (10 * 2^k) ≤ Digits.value d.digits * 10^(i + j) := by
      refine hle.trans (le_of_eq ?_)
      rw [hval, Digits.value_nil, zero_mul, zero_add, hsplit, zero_mul, zero_add, pow_add]
      ring
    have hexp : point - quotient.1.length = d.point - d.digits.length + 1 - (i + j : ℕ) := by
      have := hpoint.2
      push_cast
      omega
    exact value_le_of_quotient hnat hexp

/-- A number multiplied by a power of two in passes. -/
theorem passes_shiftLeft (hd : d.Trimmed)
    (h : passes shiftLeft fuel k d = some s) : s.Trimmed ∧ s.value ≤ d.value * 2^k := by
  have hone : d.value ≤ d.value * 2^k :=
    le_mul_of_one_le_right (value_nonneg d) (one_le_pow₀ (by norm_num))
  induction fuel generalizing d k with
  | zero =>
    obtain rfl := Option.some.inj h
    exact ⟨hd, hone⟩
  | succ fuel ih =>
    unfold passes at h
    split_ifs at h with hmore
    · obtain ⟨moved, hmoved, h⟩ := Option.bind_eq_some_iff.mp h
      obtain ⟨hm, hmle⟩ := shiftLeft_spec hd (min_le_right _ _) hmoved
      obtain ⟨hs, hsle⟩ := ih hm h (le_mul_of_one_le_right (value_nonneg _) (one_le_pow₀ (by norm_num)))
      refine ⟨hs, ?_⟩
      calc s.value ≤ moved.value * 2^(k - min k MAX_SHIFT) := hsle
        _ ≤ d.value * 2^min k MAX_SHIFT * 2^(k - min k MAX_SHIFT) :=
            mul_le_mul_of_nonneg_right hmle (by positivity)
        _ = d.value * 2^k := by
            rw [mul_assoc, ← pow_add, Nat.add_sub_of_le (min_le_left _ _)]
    · obtain rfl := Option.some.inj h
      exact ⟨hd, hone⟩

/-- A number divided by a power of two in passes. -/
theorem passes_shiftRight (hd : d.Trimmed) (hfuel : k ≤ fuel)
    (h : passes shiftRight fuel k d = some s) : s.Trimmed ∧ s.value * 2^k ≤ d.value := by
  induction fuel generalizing d k with
  | zero =>
    obtain rfl := Option.some.inj h
    obtain rfl := Nat.le_zero.1 hfuel
    exact ⟨hd, by simp⟩
  | succ fuel ih =>
    unfold passes at h
    split_ifs at h with hmore
    · obtain ⟨moved, hmoved, h⟩ := Option.bind_eq_some_iff.mp h
      obtain ⟨hm, hmle⟩ := shiftRight_spec hd (min_le_right _ _) hmoved
      have hpass : 0 < min k MAX_SHIFT := lt_min hmore.1 (by decide)
      obtain ⟨hs, hsle⟩ := ih hm (by omega) h
      refine ⟨hs, ?_⟩
      calc s.value * 2^k = s.value * 2^(k - min k MAX_SHIFT) * 2^min k MAX_SHIFT := by
            rw [mul_assoc, ← pow_add, Nat.sub_add_cancel (min_le_left _ _)]
        _ ≤ moved.value * 2^min k MAX_SHIFT := mul_le_mul_of_nonneg_right hsle (by positivity)
        _ ≤ d.value := hmle
    · obtain rfl := Option.some.inj h
      refine ⟨hd, le_of_eq ?_⟩
      -- The passes stop before they are done only on a zero.
      rcases Nat.eq_zero_or_pos k with rfl | hk
      · simp
      · have hzero : d.digits = [] := by
          by_contra hne
          exact hmore ⟨hk, by simpa [isZero] using hne⟩
        simp [value, hzero]

/-- A number shifted is at most the exact one. -/
theorem shift_spec {d s : Decimal} {k : ℤ} (hd : d.Trimmed) (h : d.shift k = some s) :
    s.Trimmed ∧ s.value ≤ d.value * 2^k := by
  unfold shift at h
  split_ifs at h with hk
  · obtain ⟨n, rfl⟩ := Int.eq_ofNat_of_zero_le hk
    obtain ⟨hs, hle⟩ := passes_shiftLeft hd h
    refine ⟨hs, ?_⟩
    simpa using hle
  · obtain ⟨n, rfl⟩ : ∃ n : ℕ, k = -n := ⟨(-k).toNat, by omega⟩
    have hn : (-(-(n : ℤ))).toNat = n := by omega
    rw [hn] at h
    obtain ⟨hs, hle⟩ := passes_shiftRight hd le_rfl h
    refine ⟨hs, ?_⟩
    rw [zpow_neg, zpow_natCast, ← div_eq_mul_inv, le_div_iff₀ (by positivity)]
    exact hle

/-! ## Reading the integer -/

theorem saturate_le (n : ℕ) : saturate n ≤ n := min_le_left _ _

/-- Digits read with saturation are at most what they write. -/
theorem foldl_saturate_le (digits : List ℕ) {m : ℕ} (h : n ≤ m) :
    digits.foldl (fun n digit => saturate (saturate (n * 10) + digit)) n ≤
      digits.foldl (fun n digit => n * 10 + digit) m := by
  induction digits generalizing n m with
  | nil => exact h
  | cons digit digits ih =>
    refine ih ((saturate_le _).trans (Nat.add_le_add_right ?_ _))
    exact (saturate_le _).trans (Nat.mul_le_mul_right _ h)

/-- Zeros read with saturation are at most as many tens. -/
theorem iterate_saturate_le (c n : ℕ) : (fun n => saturate (n * 10))^[c] n ≤ n * 10^c := by
  induction c generalizing n with
  | zero => simp
  | succ c ih =>
    rw [Function.iterate_succ_apply, pow_succ', ← mul_assoc]
    exact (ih _).trans (Nat.mul_le_mul_right _ (saturate_le _))

/-- The integer read is the same whatever is behind it. -/
theorem roundToU128_fst (d : Decimal) : d.roundToU128.1 =
    let taken := (max 0 (min d.point (asI32 d.digits.length))).toNat
    (fun n => saturate (n * 10))^[(d.point - taken).toNat]
      ((d.digits.take taken).foldl (fun n digit => saturate (saturate (n * 10) + digit)) 0) := by
  unfold roundToU128
  dsimp only
  split
  · rfl
  · split_ifs <;> rfl

/-- The integer read out of a number is at most its value. -/
theorem roundToU128_le (hd : d.Trimmed) : (d.roundToU128.1 : ℚ) ≤ d.value := by
  have hshort := hd.short
  unfold MAX_DIGITS at hshort
  rw [roundToU128_fst, asI32_of_lt (by omega)]
  dsimp only
  generalize htaken : (max 0 (min d.point d.digits.length)).toNat = taken
  have hread : (fun n => saturate (n * 10))^[(d.point - taken).toNat]
      ((d.digits.take taken).foldl (fun n digit => saturate (saturate (n * 10) + digit)) 0) ≤
      Digits.value (d.digits.take taken) * 10^(d.point - taken).toNat :=
    (iterate_saturate_le _ _).trans (Nat.mul_le_mul_right _ (foldl_saturate_le _ le_rfl))
  refine (Nat.cast_le.2 hread).trans ?_
  rcases lt_or_ge d.point 0 with hneg | hpos
  · have h0 : taken = 0 := by omega
    rw [h0, List.take_zero, Digits.value_nil, zero_mul, Nat.cast_zero]
    exact value_nonneg d
  · have hlen : (d.digits.take taken).length = taken := by
      rw [List.length_take]
      omega
    have hle := value_le_of_prefix (List.take_prefix taken d.digits) d.point d.truncated d.truncated
    have hexp : (10 : ℚ)^(d.point - (taken : ℤ)) = 10^(d.point - taken).toNat := by
      rw [← zpow_natCast]
      congr 1
      omega
    calc ((Digits.value (d.digits.take taken) * 10^(d.point - taken).toNat : ℕ) : ℚ)
        = value ⟨d.digits.take taken, d.point, d.truncated⟩ := by
          unfold value
          dsimp only
          rw [hlen, hexp]
          push_cast
          rfl
      _ ≤ d.value := hle

/-- A number whose point is behind a first digit below two is below two. -/
theorem value_lt_two (hd : d.Trimmed) (hpoint : d.point = 1) (hfirst : d.firstDigit < 2) : d.value < 2 := by
  obtain ⟨digits, point, truncated⟩ := d
  dsimp only at hpoint
  subst hpoint
  cases digits with
  | nil => simp [value]
  | cons first rest =>
    have hfirst' : first < 2 := hfirst
    have hrest := Digits.value_lt fun x hx => hd.decimal x (List.mem_cons_of_mem _ hx)
    have hlt : Digits.value (first :: rest) < 2 * 10^rest.length := by
      rw [Digits.value_cons]
      have := Nat.mul_le_mul_right (10^rest.length) (Nat.le_of_lt_succ hfirst')
      omega
    have hexp : (1 : ℤ) - ((first :: rest).length : ℕ) = -(rest.length : ℕ) := by
      rw [List.length_cons]
      push_cast
      omega
    unfold value
    dsimp only
    rw [hexp, zpow_neg, zpow_natCast, ← div_eq_mul_inv, div_lt_iff₀ (by positivity)]
    exact_mod_cast hlt

end Decimal

end Rucc.Base
