import Mathlib.Data.ZMod.Basic
import Rucc.Lib.Reciprocal
import Rucc.Codegen.DivideRuns

/-!
# A rewritten division is the division

Every program that `programAt` writes gives the quotient or the remainder that C says, on every dividend in
the range. The magic number is a `Reciprocal` of the divisor that is right over the range, and each shape of
program comes to the product with it over its scale; a power of two is a shift of the dividend with its bias,
and an exact division the product with the inverse of an odd number.
-/

namespace Rucc.Codegen

open Checked Words Program

variable {d bits precision m shift : ℕ}

/-! ## Magic numbers -/

/-- The two bounds, once the loop has stopped at a shift. -/
theorem halved_spec (hd : 0 < d) (hp : precision ≤ bits) (up : ℕ)
    (hlt : 2^(bits + up) / d < (2^(bits + up) + 2^(bits + up - precision)) / d) :
    ∃ shift, halved (2^(bits + up) / d) ((2^(bits + up) + 2^(bits + up - precision)) / d) up =
        ((2^(bits + shift) + 2^(bits + shift - precision)) / d, shift) ∧
      2^(bits + shift) / d < (2^(bits + shift) + 2^(bits + shift - precision)) / d ∧
      (shift = 0 ∨ 2^(bits + shift - 1 - precision) < d) := by
  induction up with
  | zero => exact ⟨0, rfl, hlt, Or.inl rfl⟩
  | succ up ih =>
    have hlow : 2^(bits + (up + 1)) / d / 2 = 2^(bits + up) / d := by
      rw [Nat.div_div_eq_div_mul, ← add_assoc, pow_succ, Nat.mul_div_mul_right _ _ (by norm_num)]
    have hhigh : (2^(bits + (up + 1)) + 2^(bits + (up + 1) - precision)) / d / 2 =
        (2^(bits + up) + 2^(bits + up - precision)) / d := by
      have hsub : bits + (up + 1) - precision = bits + up - precision + 1 := by omega
      rw [Nat.div_div_eq_div_mul, hsub, ← add_assoc, pow_succ, pow_succ, ← add_mul,
        Nat.mul_div_mul_right _ _ (by norm_num)]
    unfold halved
    rw [hlow, hhigh]
    split_ifs with hloop
    · exact ih hloop
    · refine ⟨up + 1, rfl, hlt, Or.inr ?_⟩
      by_contra! hle
      -- A divisor's worth of slack keeps the bounds apart.
      refine hloop ?_
      have hslack : d ≤ 2^(bits + up - precision) := hle
      calc 2^(bits + up) / d < (2^(bits + up) + d) / d := by
            rw [Nat.add_div_right _ hd]
            exact Nat.lt_succ_self _
        _ ≤ (2^(bits + up) + 2^(bits + up - precision)) / d :=
            Nat.div_le_div_right (Nat.add_le_add_left hslack _)

/-- A magic number is a reciprocal, and the number and the shift are small. -/
theorem multiplier_spec (h : multiplier d bits precision = some (m, shift)) (hp : precision ≤ bits)
    (hd : d ≤ 2^precision) (hd2 : 2 ≤ d) :
    Reciprocal m d (bits + shift) precision ∧ m < 2 * 2^bits ∧
      (precision < bits → m < 2^bits) := by
  have hpos : 0 < d := by omega
  unfold multiplier at h
  rw [checkedSub_of_le (by omega : 1 ≤ d), Option.bind_eq_bind, Option.bind_some] at h
  dsimp only at h
  split_ifs at h with hwide
  have hup : 128 - leadingZeros 128 (d - 1) = (d - 1).size := by
    unfold leadingZeros at hwide ⊢
    omega
  have hsize : d ≤ 2^(d - 1).size := by
    have := Nat.lt_size_self (d - 1)
    omega
  rw [hup] at h hwide
  generalize (d - 1).size = up at *
  have hshl : ∀ count < 128, shl 128 1 count = some (2^count) := fun count hc => by
    rw [shl_eq hc (by rw [one_mul]; exact Nat.pow_lt_pow_right (by norm_num) hc), one_mul]
  rw [hshl _ (by omega), checkedSub_of_le (by omega)] at h
  simp only [Option.bind_some] at h
  rw [hshl _ (by omega), Option.bind_some, Option.bind_eq_some_iff] at h
  obtain ⟨sum, hsum, h⟩ := h
  unfold Words.add at hsum
  split_ifs at hsum with hfits
  obtain rfl := Option.some.inj hsum
  have hstart : 2^(bits + up) / d < (2^(bits + up) + 2^(bits + up - precision)) / d := by
    have hslack : d ≤ 2^(bits + up - precision) :=
      hsize.trans (Nat.pow_le_pow_right (by norm_num) (by omega))
    calc 2^(bits + up) / d < (2^(bits + up) + d) / d := by
          rw [Nat.add_div_right _ hpos]
          exact Nat.lt_succ_self _
      _ ≤ (2^(bits + up) + 2^(bits + up - precision)) / d :=
          Nat.div_le_div_right (Nat.add_le_add_left hslack _)
  obtain ⟨s, heq, hlt, hstop⟩ := halved_spec hpos hp up hstart
  rw [heq, Option.some.injEq, Prod.mk.injEq] at h
  obtain ⟨hm, rfl⟩ := h
  rw [hm] at hlt
  have hrec : Reciprocal m d (bits + s) precision := by
    refine ⟨(Nat.div_lt_iff_lt_mul hpos).mp hlt, ?_⟩
    have hle : m * d ≤ 2^(bits + s) + 2^(bits + s - precision) := by
      rw [← hm]
      exact Nat.div_mul_le_self _ _
    calc 2^precision * (m * d) ≤ 2^precision * (2^(bits + s) + 2^(bits + s - precision)) :=
          Nat.mul_le_mul_left _ hle
      _ = 2^(bits + s) * (2^precision + 1) := by
          rw [mul_add, ← pow_add 2 precision (bits + s - precision),
            Nat.add_sub_cancel' (by omega : precision ≤ bits + s)]
          ring
  refine ⟨hrec, hrec.lt_of_pow_le hd ?_, fun hlt => ?_⟩
  · rcases hstop with rfl | hstop
    · omega
    · have : 2^s ≤ 2 * 2^(bits + s - 1 - precision) := by
        rw [← pow_succ']
        exact Nat.pow_le_pow_right (by norm_num) (by omega)
      omega
  · rw [← one_mul (2^bits)]
    refine hrec.lt_of_pow_le hd ?_
    rcases hstop with rfl | hstop
    · omega
    · have : 2^s ≤ 2^(bits + s - 1 - precision) := Nat.pow_le_pow_right (by norm_num) (by omega)
      omega

/-- A shift is short of the divisor where the number fits in the width. -/
theorem pow_shift_lt (h : Reciprocal m d (bits + shift) precision) (hm : m ≤ 2^bits) : 2^shift < d := by
  have habove := h.above
  rw [pow_add] at habove
  have hle : m * d ≤ 2^bits * d := Nat.mul_le_mul_right d hm
  exact Nat.lt_of_mul_lt_mul_left (habove.trans_le hle)

/-! ## Unsigned dividends -/

section

variable {p : Program} {r : Program × ℕ} {widest : ℕ} {dividend : ℤ} {bits d n : ℕ}

variable {magic shift value precision width : ℕ} {divisor : ℤ} {remainder : Bool} {q : Program}

/-- The high half of a product with a magic number that fits, shifted down, is the quotient. -/
theorem highProduct_built (hrec : Reciprocal magic d (p.register + shift) precision)
    (hx : p.Gives widest dividend value p.width n) (hn : n < 2^precision)
    (hp : precision ≤ p.register) (hmagic : magic < 2^p.register) (hwidth : p.width = p.register)
    (hw : p.width ≤ widest) (hd : d ≤ 2^p.register) :
    Built p (highProduct p value magic shift) widest dividend p.width (n / d : ℕ) := by
  have hfits : n < 2^p.width := hn.trans_le (Nat.pow_le_pow_right (by norm_num) (by omega))
  have hshort : shift < p.register :=
    (Nat.pow_lt_pow_iff_right (by norm_num)).mp ((pow_shift_lt hrec hmagic.le).trans_le hd)
  unfold highProduct
  dsimp only
  rw [← hwidth] at hmagic hrec hshort ⊢
  have hhigh : Built p (p.by_ .uMulHigh value (signedAt magic p.width) p.width) widest dividend p.width
      (n * magic / 2^p.width : ℕ) := by
    refine by_built hx hw ?_
    rw [word_signedAt]
    exact run_uMulHigh hfits hmagic hwidth
  have hlt : n * magic / 2^p.width < 2^p.width :=
    Nat.div_lt_of_lt_mul (Nat.mul_lt_mul'' hfits hmagic)
  have hquot : n * magic / 2^p.width / 2^shift = n / d := by
    rw [Nat.div_div_eq_div_mul, ← pow_add]
    exact hrec.div_eq hn
  refine shifted_built hhigh rfl hw (fun _ => ?_) fun h0 => ?_
  · rw [run_lShr hlt hshort, hquot]
  · rw [← hquot, h0, pow_zero, Nat.div_one]

/-- The product with a magic number one bit too long, without overflow. -/
theorem addedBack_built (h : addedBack p magic shift = some r)
    (hrec : Reciprocal magic d (p.register + shift) precision)
    (hx : p.Gives widest dividend DIVIDEND p.width n) (hn : n < 2^precision)
    (hp : precision ≤ p.register) (hlow : 2^p.register ≤ magic) (hmagic : magic < 2 * 2^p.register)
    (hwidth : p.width = p.register) (hw : p.width ≤ widest) (hd : d ≤ 2^(p.register - 1))
    (hd2 : 2 ≤ d) :
    Built p r widest dividend p.width (n / d : ℕ) := by
  have hfits : n < 2^p.width := hn.trans_le (Nat.pow_le_pow_right (by norm_num) (by omega))
  have habove := hrec.above
  have hquot := hrec.div_eq hn
  unfold addedBack at h
  dsimp only at h
  rw [← hwidth] at h hlow hmagic hd habove hquot
  have hpos : 1 < p.width := by
    by_contra! hle
    have : 2^(p.width - 1) ≤ 2^0 := Nat.pow_le_pow_right (by norm_num) (by omega)
    omega
  have hshort : shift < p.width := by
    have hlt : 2^(p.width + shift) < 2^(p.width + p.width) := by
      calc 2^(p.width + shift) < magic * d := habove
        _ ≤ 2 * 2^p.width * 2^(p.width - 1) := Nat.mul_le_mul hmagic.le hd
        _ = 2^(p.width + p.width) := by
          rw [mul_right_comm, ← pow_succ', Nat.sub_add_cancel (by omega), pow_add]
    have := (Nat.pow_lt_pow_iff_right (by norm_num)).mp hlt
    omega
  obtain ⟨low, rfl⟩ := Nat.exists_eq_add_of_le hlow
  rw [Nat.add_sub_cancel_left] at h
  have hlow' : low < 2^p.width := by omega
  -- The high half with the dividend is the high half of the whole product.
  have hwhole : n + n * low / 2^p.width = n * (2^p.width + low) / 2^p.width := by
    rw [mul_add, Nat.mul_comm n (2^p.width), Nat.mul_add_div (by positivity)]
  have hle : n * low / 2^p.width ≤ n := Nat.div_le_of_le_mul (by
    rw [mul_comm]
    exact Nat.mul_le_mul_right n hlow'.le)
  have hhigh : Built p (p.by_ .uMulHigh DIVIDEND (signedAt low p.width) p.width) widest dividend
      p.width (n * low / 2^p.width : ℕ) := by
    refine by_built hx hw ?_
    rw [word_signedAt]
    exact run_uMulHigh hfits hlow' hwidth
  rw [pow_add, ← Nat.div_div_eq_div_mul, ← hwhole] at hquot
  generalize n * low / 2^p.width = top at *
  generalize p.by_ .uMulHigh DIVIDEND (signedAt low p.width) p.width = high at *
  have hdifference : Built high.1 (high.1.op .sub DIVIDEND high.2 p.width) widest dividend p.width
      (n - top : ℕ) := by
    rw [Nat.cast_sub hle]
    exact op_built (hhigh.keeps hx) hhigh.gives hw run_sub
  generalize high.1.op .sub DIVIDEND high.2 p.width = difference at *
  have hhalf : Built difference.1 (difference.1.by_ .lShr difference.2 1 p.width) widest dividend
      p.width ((n - top) / 2^1 : ℕ) :=
    by_built hdifference.gives hw (@run_lShr _ _ _ 1 (by omega) hpos)
  have htop := hhalf.keeps (hdifference.keeps hhigh.gives)
  generalize difference.1.by_ .lShr difference.2 1 p.width = half at *
  have hsum : Built half.1 (half.1.op .add half.2 high.2 p.width) widest dividend p.width
      ((n + top) / 2 : ℕ) := by
    have hadd : ((((n - top) / 2^1 : ℕ) : ℤ) + (top : ℕ)) = ((n + top) / 2 : ℕ) := by omega
    rw [← hadd]
    exact op_built hhalf.gives htop hw run_add
  have hbuilt := ((hhigh.trans hdifference).trans hhalf).trans hsum
  generalize half.1.op .add half.2 high.2 p.width = sum at *
  obtain ⟨count, hcount, rfl⟩ := Option.map_eq_some_iff.mp h
  unfold checkedSub at hcount
  split_ifs at hcount with hone
  obtain rfl := Option.some.inj hcount
  have hlast : (n + top) / 2 / 2^(shift - 1) = n / d := by
    rw [Nat.div_div_eq_div_mul, ← pow_succ', Nat.sub_add_cancel hone, hquot]
  refine shifted_built hbuilt rfl hw (fun _ => ?_) fun h0 => ?_
  · rw [run_lShr (by omega) (by omega), hlast]
  · rw [← hlast, h0, pow_zero, Nat.div_one]

theorem unsignedHigh_built (h : unsignedHigh p d bits = some r)
    (hx : p.Gives widest dividend DIVIDEND p.width n) (hn : n < 2^bits) (hd : 2 ≤ d)
    (hdb : d < 2^bits) (hpow : ¬d.isPowerOfTwo) (hw : p.width ≤ widest) (h64 : p.register ≤ 64) :
    Built p r widest dividend p.width (n / d : ℕ) := by
  unfold unsignedHigh at h
  dsimp only at h
  by_cases hshape : p.width ≠ p.register ∨ p.register < bits ∨ 2^(p.register - 1) < d
  · rw [if_pos hshape] at h
    cases h
  rw [if_neg hshape, Option.bind_eq_bind, Option.bind_eq_some_iff] at h
  push Not at hshape
  obtain ⟨hwidth, hbits, hdn⟩ := hshape
  have hdr : d ≤ 2^p.register :=
    hdn.trans (Nat.pow_le_pow_right (by norm_num) (Nat.sub_le _ _))
  obtain ⟨⟨magic, shift⟩, hmul, h⟩ := h
  obtain ⟨hrec, hmagic2, -⟩ := multiplier_spec hmul hbits hdb.le hd
  dsimp only at h
  by_cases hmagic : magic < 2^p.register
  · rw [if_pos hmagic] at h
    obtain rfl := Option.some.inj h
    exact highProduct_built hrec hx hn hbits hmagic hwidth hw hdr
  rw [if_neg hmagic, Option.bind_eq_bind, Option.bind_eq_some_iff] at h
  obtain ⟨found, hfound, h⟩ := h
  cases found with
  | none => exact addedBack_built h hrec hx hn hbits (not_lt.mp hmagic) hmagic2 hwidth hw hdn hd
  | some found =>
    -- The power of two comes out of the dividend first.
    obtain ⟨magic', shift'⟩ := found
    obtain rfl := Option.some.inj h
    unfold reduced at hfound
    dsimp only at hfound
    have hd128 : d < 2^128 := hdr.trans_lt (Nat.pow_lt_pow_right (by norm_num) (by omega))
    obtain ⟨rest, hrest⟩ := U128.trailingZeros_spec (by omega : d ≠ 0) hd128
    have hrest0 : rest ≠ 0 := fun h0 => hpow ⟨U128.trailingZeros d, by
      rw [h0, mul_zero, zero_add, mul_one] at hrest
      exact hrest⟩
    generalize U128.trailingZeros d = power at *
    have hfits : n < 2^p.width := hn.trans_le (Nat.pow_le_pow_right (by norm_num) (by omega))
    split_ifs at hfound with hpower
    swap
    · cases hfound
    obtain ⟨⟨m, s⟩, hm, hkept⟩ := Option.map_eq_some_iff.mp hfound
    dsimp only at hkept
    split_ifs at hkept with hsmall
    obtain ⟨rfl, rfl⟩ := Prod.mk.inj (Option.some.inj hkept)
    have hodd : d >>> power = 2 * rest + 1 := by
      rw [Nat.shiftRight_eq_div_pow, hrest, Nat.mul_div_cancel_left _ (by positivity)]
    have hsplit : 2^bits = 2^power * 2^(bits - power) := by
      rw [← pow_add, Nat.add_sub_cancel' hpower.2.le]
    have hoddlt : 2 * rest + 1 ≤ 2^(bits - power) := by
      rw [hrest, hsplit] at hdb
      exact (Nat.lt_of_mul_lt_mul_left hdb).le
    rw [hodd] at hm
    obtain ⟨hrec', -, -⟩ := multiplier_spec hm (by omega) hoddlt (by omega)
    have hvalue : Built p (p.by_ .lShr DIVIDEND power p.register) widest dividend p.width
        (n / 2^power : ℕ) := by
      rw [← hwidth]
      exact by_built hx hw (run_lShr hfits (by omega))
    have hquot : n / 2^power / (2 * rest + 1) = n / d := by
      rw [Nat.div_div_eq_div_mul, ← hrest]
    rw [← hquot]
    generalize p.by_ .lShr DIVIDEND power p.register = value at *
    have hgives := hvalue.gives
    rw [← hvalue.register] at hrec' hsmall
    rw [← hvalue.width] at hgives ⊢
    refine hvalue.trans (highProduct_built hrec' hgives ?_ ?_ hsmall ?_ ?_ ?_)
    · exact Nat.div_lt_of_lt_mul (hsplit ▸ hn)
    · rw [hvalue.register]
      omega
    · rw [hvalue.register, hvalue.width, hwidth]
    · rw [hvalue.width]
      exact hw
    · rw [hvalue.register]
      exact hoddlt.trans (Nat.pow_le_pow_right (by norm_num) (by omega))

/-- The product of sixty four bits, shifted down: with the whole magic number where it fits, and else with
its low bits and the dividend added back. -/
theorem unsignedProduct_built {wide : ℕ} (hrec : Reciprocal magic d (bits + shift) bits)
    (hx : p.Gives widest dividend wide 64 n) (hn : n < 2^bits) (hbits : bits ≤ 32)
    (hmagic : magic < 2 * 2^bits) (hd : d < 2^bits) (h64 : 64 ≤ widest) :
    Built p (unsignedProduct p wide magic shift bits) widest dividend 64 (n / d : ℕ) := by
  have hquot := hrec.div_eq hn
  have habove := hrec.above
  unfold unsignedProduct
  dsimp only
  -- The product and the shift stay inside sixty four bits where the number does not need the last one.
  have htwice : magic < 2^bits ∨ bits < 32 → ∀ m ≤ 2^bits, magic * m < 2^64 ∨ m = 0 := by
    intro hfits m hm
    rcases Nat.eq_zero_or_pos m with h0 | hpos
    · exact Or.inr h0
    left
    rcases hfits with hfits | hfits
    · calc magic * m < 2^bits * 2^bits :=
            Nat.mul_lt_mul_of_lt_of_le hfits hm (by positivity)
        _ = 2^(bits + bits) := (pow_add _ _ _).symm
        _ ≤ 2^64 := Nat.pow_le_pow_right (by norm_num) (by omega)
    · calc magic * m < 2 * 2^bits * 2^bits :=
            Nat.mul_lt_mul_of_lt_of_le hmagic hm (by positivity)
        _ = 2^(bits + bits + 1) := by ring
        _ ≤ 2^64 := Nat.pow_le_pow_right (by norm_num) (by omega)
  by_cases hfits : magic < 2^bits ∨ bits < 32
  · rw [if_pos hfits]
    have hd0 : d ≠ 0 := fun h0 => by simp [h0] at habove
    have hprod : n * magic < 2^64 := by
      rw [mul_comm]
      rcases htwice hfits n hn.le with h | h
      · exact h
      · rw [h, mul_zero]
        norm_num
    have hshift : bits + shift < 64 :=
      (Nat.pow_lt_pow_iff_right (by norm_num)).mp
        (habove.trans ((htwice hfits d hd.le).resolve_right hd0))
    have hproduct : Built p (p.by_ .mul wide magic 64) widest dividend 64 (n * magic : ℕ) := by
      rw [Nat.cast_mul]
      exact by_built hx h64 run_mul
    refine hproduct.trans (by_built hproduct.gives h64 ?_)
    rw [run_lShr hprod hshift, hquot]
  · rw [if_neg hfits]
    push Not at hfits
    obtain rfl : bits = 32 := by omega
    obtain ⟨low, rfl⟩ := Nat.exists_eq_add_of_le hfits.1
    rw [Nat.add_sub_cancel_left]
    have hprod : n * low < 2^64 :=
      (Nat.mul_lt_mul'' hn (by omega : low < 2^32)).trans_le (by norm_num)
    have hwhole : n * low / 2^32 + n = n * (2^32 + low) / 2^32 := by
      rw [mul_add, Nat.mul_comm n (2^32), Nat.mul_add_div (by positivity), add_comm]
    have hshift : shift < 64 := by
      have hlt : 2^(32 + shift) < 2^(32 + 64) :=
        habove.trans ((Nat.mul_lt_mul'' hmagic hd).trans_le (by norm_num))
      have := (Nat.pow_lt_pow_iff_right (by norm_num)).mp hlt
      omega
    rw [pow_add, ← Nat.div_div_eq_div_mul, ← hwhole] at hquot
    have hproduct : Built p (p.by_ .mul wide (low : ℕ) 64) widest dividend 64 (n * low : ℕ) := by
      rw [Nat.cast_mul]
      exact by_built hx h64 run_mul
    generalize p.by_ .mul wide (low : ℕ) 64 = product at *
    have hhigh : Built product.1 (product.1.by_ .lShr product.2 32 64) widest dividend 64
        (n * low / 2^32 : ℕ) :=
      by_built hproduct.gives h64 (@run_lShr _ _ _ 32 hprod (by norm_num))
    have hwide := hhigh.keeps (hproduct.keeps hx)
    generalize product.1.by_ .lShr product.2 32 64 = high at *
    have htop : n * low / 2^32 < 2^32 := by
      rw [Nat.div_lt_iff_lt_mul (by norm_num)]
      exact Nat.mul_lt_mul'' hn (by omega)
    generalize n * low / 2^32 = top at *
    have hsum : Built high.1 (high.1.op .add high.2 wide 64) widest dividend 64 (top + n : ℕ) := by
      rw [Nat.cast_add]
      exact op_built hhigh.gives hwide h64 run_add
    have hbuilt := (hproduct.trans hhigh).trans hsum
    split_ifs with hzero
    · rw [hzero, pow_zero, Nat.div_one] at hquot
      rw [← hquot]
      exact hbuilt
    · refine hbuilt.trans (by_built hbuilt.gives h64 ?_)
      rw [run_lShr (by omega) hshift, hquot]

theorem unsigned_built (h : unsigned p d bits = some r)
    (hx : p.Gives widest dividend DIVIDEND p.width n) (hn : n < 2^bits) (hn' : n < 2^p.width)
    (hd : 2 ≤ d) (hdw : d < 2^p.width) (hwidth : p.width ≤ 64) (hw : p.width ≤ widest)
    (hregister : p.register = 32 ∨ p.register = 64) (hr : p.register ≤ widest) :
    Built p r widest dividend p.width (n / d : ℕ) := by
  unfold unsigned at h
  by_cases hlarge : 128 ≤ bits ∨ 2^bits ≤ d
  · rw [if_pos hlarge] at h
    cases h
  rw [if_neg hlarge] at h
  push Not at hlarge
  obtain ⟨hbits, hdb⟩ := hlarge
  by_cases hpow : d.isPowerOfTwo
  · rw [if_pos hpow] at h
    obtain rfl := Option.some.inj h
    have heq := U128.eq_two_pow_trailingZeros hpow
      (hdb.trans (Nat.pow_lt_pow_right (by norm_num) hbits))
    generalize U128.trailingZeros d = power at *
    have hshort : power < p.width :=
      (Nat.pow_lt_pow_iff_right (by norm_num)).mp (heq ▸ hdw)
    refine by_built hx hw ?_
    rw [run_lShr hn' hshort, ← heq]
  rw [if_neg hpow] at h
  by_cases hhigh : 32 < bits ∨ p.register = 32
  · rw [if_pos hhigh] at h
    exact unsignedHigh_built h hx hn hd hdb hpow hw (by omega)
  rw [if_neg hhigh, Option.bind_eq_bind, Option.bind_eq_some_iff] at h
  obtain ⟨⟨magic, shift⟩, hmul, h⟩ := h
  obtain ⟨hrec, hmagic, -⟩ := multiplier_spec hmul le_rfl hdb.le hd
  obtain ⟨hkept, hgives⟩ : Kept p (p.widened .zExt).1 widest dividend ∧ _ :=
    widened_kept hx (by omega) fun hne => run_zExt hn' (by omega)
  dsimp only at h
  obtain rfl := Option.some.inj h
  generalize p.widened .zExt = wide at *
  have hproduct := unsignedProduct_built hrec hgives hn (by omega) hmagic hdb (by omega)
  exact narrowed_built (hkept.built hproduct) hwidth (by omega)

/-! ## Signed dividends -/

variable {z : ℤ}

/-- The product of a dividend and a number that fits, over its scale, is as small as the dividend. -/
theorem ediv_bounds (hlo : -2^(width - 1) ≤ z) (hhi : z < 2^(width - 1)) (hmagic : magic < 2^width) :
    -2^(width - 1) * 2^width ≤ z * magic ∧ z * magic < 2^(width - 1) * 2^width := by
  have hm : (magic : ℤ) < 2^width := by exact_mod_cast hmagic
  have hm0 : (0 : ℤ) ≤ magic := Int.natCast_nonneg _
  have hp : (0 : ℤ) < 2^(width - 1) := by positivity
  constructor
  · nlinarith
  · rcases le_or_gt z 0 with hz | hz
    · nlinarith
    · nlinarith

/-- The sign of a dividend, as a shift gives it. -/
theorem ediv_sign (hlo : -2^(width - 1) ≤ z) (hhi : z < 2^(width - 1)) :
    z / 2^(width - 1) = if z < 0 then -1 else 0 := by
  have hp : (0 : ℤ) < 2^(width - 1) := by positivity
  split_ifs with hz
  · rw [Int.ediv_eq_iff_of_pos hp]
    omega
  · exact Int.ediv_eq_zero_of_lt (by omega) hhi

theorem signedHigh_built (h : signedHigh p d bits = some r)
    (hx : p.Gives widest dividend DIVIDEND p.width z) (hlo : -2^(bits - 1) ≤ z)
    (hhi : z < 2^(bits - 1)) (hd : 2 ≤ d) (hdb : d ≤ 2^(bits - 1)) (hw : p.width ≤ widest) :
    Built p r widest dividend p.width (z.tdiv d + if z < 0 then -1 else 0) := by
  have hbits2 : 2 ≤ bits := by
    by_contra! hle
    have : 2^(bits - 1) ≤ 2^0 := Nat.pow_le_pow_right (by norm_num) (by omega)
    omega
  unfold signedHigh at h
  dsimp only at h
  by_cases hshape : p.width ≠ p.register ∨ p.register < bits
  · rw [if_pos hshape] at h
    cases h
  rw [if_neg hshape, Option.bind_eq_bind, Option.bind_eq_some_iff] at h
  push Not at hshape
  obtain ⟨hwidth, hbits⟩ := hshape
  obtain ⟨⟨magic, shift⟩, hmul, h⟩ := h
  obtain ⟨hrec, -, hmagic⟩ := multiplier_spec hmul (by omega) hdb hd
  have hquot := hrec.ediv_eq hlo hhi
  have hmagic := hmagic (by omega)
  have hpow : (2 : ℤ)^(bits - 1) ≤ 2^(p.register - 1) :=
    pow_le_pow_right₀ (by norm_num) (by omega)
  have hshort : shift < p.width := by
    have hlt := (pow_shift_lt hrec hmagic.le).trans_le hdb
    have := (Nat.pow_lt_pow_iff_right (by norm_num)).mp hlt
    omega
  dsimp only at h
  rw [← hwidth] at h hmagic hpow hquot
  have hlo' : -2^(p.width - 1) ≤ z := by omega
  have hhi' : z < 2^(p.width - 1) := by omega
  have hhigh : ∀ b : ℤ, -2^(p.width - 1) ≤ b → b < 2^(p.width - 1) →
      b % 2^p.width = (magic : ℤ) % 2^p.width →
      Built p (p.by_ .sMulHigh DIVIDEND (signedAt magic p.width) p.width) widest dividend p.width
        (z * b / 2^p.width) := by
    intro b hb hb' hmod
    refine by_built hx hw ?_
    rw [word_signedAt, ← word_congr hmod]
    exact run_sMulHigh ⟨hlo', hhi'⟩ ⟨hb, hb'⟩ (by omega) hwidth
  have hwhole : Built p
      (if magic < 2^(p.width - 1) then p.by_ .sMulHigh DIVIDEND (signedAt magic p.width) p.width
        else (p.by_ .sMulHigh DIVIDEND (signedAt magic p.width) p.width).1.op .add
          (p.by_ .sMulHigh DIVIDEND (signedAt magic p.width) p.width).2 DIVIDEND p.width)
      widest dividend p.width (z * magic / 2^p.width) := by
    have htwo : 2^p.width = 2 * 2^(p.width - 1) := by
      rw [← pow_succ', Nat.sub_add_cancel (by omega)]
    have hcast : (2 : ℤ)^(p.width - 1) = (2^(p.width - 1) : ℕ) := by push_cast; rfl
    have hcast' : (2 : ℤ)^p.width = (2^p.width : ℕ) := by push_cast; rfl
    split_ifs with hhalf
    · exact hhigh magic (by omega) (by omega) rfl
    · -- The number is negative to a signed multiply, which takes the dividend off the high half.
      have hnegative := hhigh (magic - 2^p.width) (by omega) (by omega) (Int.sub_emod_right _ _)
      have hback : z * (magic - 2^p.width) / 2^p.width + z = z * magic / 2^p.width := by
        rw [mul_sub, Int.sub_mul_ediv_right _ _ (by positivity), sub_add_cancel]
      rw [← hback]
      exact hnegative.trans (op_built hnegative.gives (hnegative.keeps hx) hw run_add)
  obtain ⟨hge, hlt⟩ := ediv_bounds hlo' hhi' hmagic
  have hpos : (0 : ℤ) < 2^p.width := by positivity
  have hlast : z * magic / 2^p.width / 2^shift = z.tdiv d + if z < 0 then -1 else 0 := by
    rw [← hquot, pow_add, Int.ediv_ediv_of_nonneg hpos.le]
  obtain rfl := Option.some.inj h
  refine shifted_built hwhole rfl hw (fun _ => ?_) fun h0 => ?_
  · rw [← hlast]
    exact run_aShr ((Int.le_ediv_iff_mul_le hpos).mpr hge) ((Int.ediv_lt_iff_lt_mul hpos).mpr hlt)
      hshort
  · rw [← hlast, h0, pow_zero, Int.ediv_one]

theorem signedProduct_built (h : signedProduct p d bits = some r)
    (hx : p.Gives widest dividend DIVIDEND p.width z) (hlo : -2^(bits - 1) ≤ z)
    (hhi : z < 2^(bits - 1)) (hlo' : -2^(p.width - 1) ≤ z) (hhi' : z < 2^(p.width - 1))
    (hd : 2 ≤ d) (hdb : d ≤ 2^(bits - 1)) (hbits : bits ≤ 32) (hwidth : p.width ≤ 64)
    (hwidth0 : 0 < p.width) (h64 : 64 ≤ widest) :
    Built p r widest dividend p.width (z.tdiv d + if z < 0 then -1 else 0) := by
  have hbits2 : 2 ≤ bits := by
    by_contra! hle
    have : 2^(bits - 1) ≤ 2^0 := Nat.pow_le_pow_right (by norm_num) (by omega)
    omega
  unfold signedProduct at h
  rw [Option.bind_eq_bind, Option.bind_eq_some_iff] at h
  obtain ⟨⟨magic, shift⟩, hmul, h⟩ := h
  obtain ⟨hrec, -, hmagic⟩ := multiplier_spec hmul (by omega) hdb hd
  have hquot := hrec.ediv_eq hlo hhi
  have hmagic := hmagic (by omega)
  have hshort : bits + shift < 64 := by
    have hlt := (pow_shift_lt hrec hmagic.le).trans_le hdb
    have := (Nat.pow_lt_pow_iff_right (by norm_num)).mp hlt
    omega
  obtain ⟨hkept, hgives⟩ : Kept p (p.widened .sExt).1 widest dividend ∧ _ :=
    widened_kept hx h64 fun hne => run_sExt hlo' hhi' hwidth0 (by omega)
  dsimp only at h
  obtain rfl := Option.some.inj h
  generalize p.widened .sExt = wide at *
  have hproduct : Built wide.1 (wide.1.by_ .mul wide.2 magic 64) widest dividend 64 (z * magic) :=
    by_built hgives h64 run_mul
  have hbuilt := hkept.built hproduct
  generalize wide.1.by_ .mul wide.2 magic 64 = product at *
  obtain ⟨hge, hlt⟩ := ediv_bounds hlo hhi hmagic
  have hroom : (2 : ℤ)^(bits - 1) * 2^bits ≤ 2^63 := by
    rw [← pow_add]
    exact pow_le_pow_right₀ (by norm_num) (by omega)
  refine narrowed_built (hbuilt.trans (by_built hproduct.gives h64 ?_)) hwidth h64
  rw [← hquot]
  exact run_aShr (by norm_num; linarith) (by norm_num; linarith) hshort

theorem rounded_built (h : rounded p divisor bits = some r)
    (hx : p.Gives widest dividend DIVIDEND p.width z) (hlo : -2^(bits - 1) ≤ z)
    (hhi : z < 2^(bits - 1)) (hlo' : -2^(p.width - 1) ≤ z) (hhi' : z < 2^(p.width - 1))
    (hd : 2 ≤ divisor.natAbs) (hwidth : p.width ≤ 64) (hwidth0 : 0 < p.width)
    (hw : p.width ≤ widest) (hregister : p.register = 32 ∨ p.register = 64)
    (hr : p.register ≤ widest) :
    Built p r widest dividend p.width (z.tdiv divisor) := by
  unfold rounded at h
  dsimp only at h
  rw [Option.bind_eq_bind, Option.bind_eq_some_iff] at h
  obtain ⟨places, hplaces, h⟩ := h
  unfold checkedSub at hplaces
  split_ifs at hplaces with hbits
  obtain rfl := Option.some.inj hplaces
  rw [Option.bind_eq_bind, Option.bind_eq_some_iff] at h
  obtain ⟨most, hmost, h⟩ := h
  unfold shl at hmost
  split_ifs at hmost with hplaces
  rw [Nat.one_shiftLeft, Nat.mod_eq_of_lt (Nat.pow_lt_pow_right (by norm_num) hplaces)] at hmost
  obtain rfl := Option.some.inj hmost
  by_cases hsize : 2^(bits - 1) < divisor.natAbs
  · rw [if_pos hsize] at h
    cases h
  rw [if_neg hsize, Option.bind_eq_some_iff] at h
  obtain ⟨low, hlow, h⟩ := h
  have hdown : Built p low widest dividend p.width
      (z.tdiv divisor.natAbs + if z < 0 then -1 else 0) := by
    unfold roundedDown at hlow
    split_ifs at hlow with hhigh
    · exact signedHigh_built hlow hx hlo hhi hd (by omega) hw
    · exact signedProduct_built hlow hx hlo hhi hlo' hhi' hd (by omega) (by omega) hwidth hwidth0
        (by omega)
  obtain rfl := Option.some.inj h
  have hsign : Built low.1 (low.1.by_ .aShr DIVIDEND (p.width - 1 : ℕ) p.width) widest dividend p.width
      (if z < 0 then -1 else 0) := by
    rw [← ediv_sign hlo' hhi']
    exact by_built (hdown.keeps hx) hw (run_aShr hlo' hhi' (by omega))
  have hlast := hsign.keeps hdown.gives
  have hbuilt := hdown.trans hsign
  generalize low.1.by_ .aShr DIVIDEND (p.width - 1 : ℕ) p.width = sign at *
  generalize (if z < 0 then -1 else 0 : ℤ) = s at *
  split_ifs with hpos
  · have hquot : z.tdiv divisor.natAbs + s - s = z.tdiv divisor := by
      rw [add_sub_cancel_right, Int.natAbs_of_nonneg hpos.le]
    rw [← hquot]
    exact hbuilt.trans (op_built hlast hsign.gives hw run_sub)
  · have hquot : s - (z.tdiv divisor.natAbs + s) = z.tdiv divisor := by
      have hneg : (divisor.natAbs : ℤ) = -divisor := by omega
      rw [hneg, Int.tdiv_neg]
      ring
    rw [← hquot]
    exact hbuilt.trans (op_built hsign.gives hlast hw run_sub)

/-! ## Powers of two -/

/-- The bias of a power of two, rounded towards zero: added to a negative dividend, it makes the quotient
rounded down the one rounded up. -/
theorem tdiv_two_pow (z : ℤ) (power : ℕ) : z.tdiv (2^power) = (z + if z < 0 then 2^power - 1 else 0) / 2^power := by
  have hp : (0 : ℤ) < 2^power := by positivity
  split_ifs with hz
  · have hsplit := Int.mul_ediv_add_emod (-z) (2^power)
    have hlt := Int.emod_lt_of_pos (-z) hp
    have hge := Int.emod_nonneg (-z) hp.ne'
    rw [← neg_neg z, Int.neg_tdiv, Int.tdiv_eq_ediv_of_nonneg (by omega), eq_comm,
      Int.ediv_eq_iff_of_pos hp, neg_neg]
    constructor <;> nlinarith
  · rw [add_zero, Int.tdiv_eq_ediv_of_nonneg (by omega)]

/-- A value by the number that its bits are. -/
theorem gives_number (hx : p.Gives widest dividend value p.width z) :
    p.Gives widest dividend value p.width ((word p.width z).number : ℕ) := by
  obtain ⟨values, hvalues, hat⟩ := hx
  refine ⟨values, hvalues, ?_⟩
  rw [hat]
  refine congrArg some (word_congr ?_)
  rw [word_number, Int.emod_emod_of_dvd _ dvd_rfl]

/-- What a negative dividend has added, whichever way it is written. -/
theorem bias_built {power : ℕ} (hx : p.Gives widest dividend DIVIDEND p.width z)
    (hlo : -2^(p.width - 1) ≤ z) (hhi : z < 2^(p.width - 1)) (hp0 : 0 < power)
    (hp : power < p.width) (hw : p.width ≤ widest) :
    Built p (bias p power) widest dividend p.width (if z < 0 then 2^power - 1 else 0) := by
  have hnumber : ∀ y : ℤ, (word p.width y).number < 2^p.width := fun y => by
    have := Int.emod_lt_of_pos y (by positivity : (0 : ℤ) < 2^p.width)
    rw [← word_number] at this
    exact_mod_cast this
  have htwo : (2 : ℤ)^p.width = 2 * 2^(p.width - 1) := by
    rw [← pow_succ', Nat.sub_add_cancel (by omega)]
  have hcast : ((2^p.width : ℕ) : ℤ) = 2^p.width := by push_cast; rfl
  unfold bias
  dsimp only
  by_cases hone : power = 1
  · rw [if_pos hone, hone, pow_one]
    have hbit : (((word p.width z).number / 2^(p.width - 1) : ℕ) : ℤ) = if z < 0 then 2 - 1 else 0 := by
      push_cast
      rw [word_number]
      split_ifs with hz
      · rw [← Int.add_emod_right, Int.emod_eq_of_lt (by omega) (by omega), htwo,
          Int.ediv_eq_iff_of_pos (by positivity)]
        omega
      · rw [Int.emod_eq_of_lt (by omega) (by omega)]
        exact Int.ediv_eq_zero_of_lt (by omega) hhi
    rw [← hbit]
    exact by_built (gives_number hx) hw (run_lShr (hnumber z) (by omega))
  · rw [if_neg hone]
    have hsign : Built p (p.by_ .aShr DIVIDEND (p.width - 1 : ℕ) p.width) widest dividend p.width
        (if z < 0 then -1 else 0) := by
      rw [← ediv_sign hlo hhi]
      exact by_built hx hw (run_aShr hlo hhi (by omega))
    generalize p.by_ .aShr DIVIDEND (p.width - 1 : ℕ) p.width = sign at *
    have hbits : (((word p.width (if z < 0 then -1 else 0)).number / 2^(p.width - power) : ℕ) : ℤ) =
        if z < 0 then 2^power - 1 else 0 := by
      have hsplit : (2 : ℤ)^p.width = 2^power * 2^(p.width - power) := by
        rw [← pow_add, Nat.add_sub_cancel' hp.le]
      have hlow : (0 : ℤ) < 2^(p.width - power) := by positivity
      push_cast
      rw [word_number]
      split_ifs with hz
      · have hone : (1 : ℤ) ≤ 2^(p.width - 1) := one_le_pow₀ (by norm_num)
        rw [← Int.add_emod_right, Int.emod_eq_of_lt (by omega) (by omega), hsplit,
          Int.ediv_eq_iff_of_pos hlow, sub_mul, one_mul]
        omega
      · rw [Int.zero_emod, Int.zero_ediv]
    rw [← hbits]
    have hgives := hsign.gives
    rw [← hsign.width] at hgives
    have hnum := gives_number hgives
    rw [hsign.width] at hnum
    exact hsign.trans (by_built hnum hw (run_lShr (hnumber _) (by omega)))

theorem biased_built (hx : p.Gives widest dividend DIVIDEND p.width z)
    (hlo : -2^(p.width - 1) ≤ z) (hhi : z < 2^(p.width - 1)) (hpow : divisor.natAbs.isPowerOfTwo)
    (hd : 2 ≤ divisor.natAbs) (hdw : divisor.natAbs < 2^p.width) (hwidth : p.width ≤ 64)
    (hw : p.width ≤ widest) :
    Built p (biased p divisor remainder) widest dividend p.width
      (if remainder then z.tmod divisor else z.tdiv divisor) := by
  have hsize := U128.eq_two_pow_trailingZeros hpow
    (hdw.trans_le (Nat.pow_le_pow_right (by norm_num) (by omega)))
  unfold biased
  dsimp only
  generalize U128.trailingZeros divisor.natAbs = power at *
  have hp0 : 0 < power := Nat.pos_of_ne_zero fun h0 => by
    rw [h0] at hsize
    omega
  have hp : power < p.width := (Nat.pow_lt_pow_iff_right (by norm_num)).mp (hsize ▸ hdw)
  have hpow : (2 : ℤ)^power ≤ 2^(p.width - 1) := pow_le_pow_right₀ (by norm_num) (by omega)
  have hpos : (0 : ℤ) < 2^power := by positivity
  have hdivisor : divisor = 2^power ∨ divisor = -2^power := by
    have : (divisor.natAbs : ℤ) = 2^power := by
      rw [hsize]
      push_cast
      rfl
    omega
  have hquot := tdiv_two_pow z power
  have hbias := bias_built hx hlo hhi hp0 hp hw
  have hsmall : 0 ≤ (if z < 0 then 2^power - 1 else 0 : ℤ) ∧
      (if z < 0 then 2^power - 1 else 0 : ℤ) + z < 2^(p.width - 1) := by
    split_ifs <;> omega
  generalize bias p power = b at *
  generalize (if z < 0 then 2^power - 1 else 0 : ℤ) = extra at *
  have hsum : Built b.1 (b.1.op .add DIVIDEND b.2 p.width) widest dividend p.width (z + extra) :=
    op_built (hbias.keeps hx) hbias.gives hw run_add
  have hextra := hsum.keeps hbias.gives
  have hbuilt := hbias.trans hsum
  generalize b.1.op .add DIVIDEND b.2 p.width = sum at *
  cases remainder with
  | true =>
    simp only [if_true]
    have hmask : Built sum.1 (sum.1.by_ .and sum.2 (2^power - 1) p.width) widest dividend p.width
        ((z + extra) % 2^power) := by_built hsum.gives hw (run_and hp.le)
    have hrest : (z + extra) % 2^power - extra = z.tmod divisor := by
      have hmod : z.tmod divisor = z.tmod (2^power) := by
        rcases hdivisor with hdiv | hdiv
        · rw [hdiv]
        · rw [hdiv, Int.tmod_neg]
      have hsplit := Int.mul_tdiv_add_tmod z (2^power)
      have hsplit' := Int.mul_ediv_add_emod (z + extra) (2^power)
      rw [hquot] at hsplit
      rw [hmod]
      omega
    rw [← hrest]
    exact hbuilt.trans (hmask.trans (op_built hmask.gives (hmask.keeps hextra) hw run_sub))
  | false =>
    simp only [Bool.false_eq_true, if_false]
    have hquotient : Built sum.1 (sum.1.by_ .aShr sum.2 power p.width) widest dividend p.width
        (z.tdiv (2^power)) := by
      rw [hquot]
      exact by_built hsum.gives hw (run_aShr (by omega) (by omega) hp)
    have hwhole := hbuilt.trans hquotient
    generalize sum.1.by_ .aShr sum.2 power p.width = quotient at *
    split_ifs with hneg
    · have hdiv : divisor = -2^power := by omega
      rw [hdiv, Int.tdiv_neg]
      have hgives := hwhole.gives
      rw [← hwhole.width] at hgives
      have := negated_built hgives (hwhole.width ▸ hw)
      rw [hwhole.width] at this
      exact hwhole.trans this
    · have hdiv : divisor = 2^power := by omega
      rw [hdiv]
      exact hwhole

/-! ## Exact divisions -/

theorem cast_wrappingMul (m n : ℕ) : (U128.wrappingMul m n : ZMod (2^128)) = m * n := by
  rw [U128.wrappingMul, ZMod.natCast_mod, Nat.cast_mul]

theorem cast_two_wrappingSub (m n : ℕ) :
    (U128.wrappingSub 2 (U128.wrappingMul m n) : ZMod (2^128)) = 2 - m * n := by
  have hle : U128.wrappingMul m n ≤ 2^128 := (Nat.mod_lt _ (by norm_num)).le
  rw [U128.wrappingSub, ZMod.natCast_mod, Nat.cast_add, Nat.cast_sub hle, ZMod.natCast_self,
    cast_wrappingMul]
  push_cast
  ring

/-- Newton's iteration from an odd number ends at its inverse. -/
theorem inverse_spec {odd : ℤ} (hodd : odd % 2 = 1) (hwidth : width ≤ 128) :
    odd * inverse odd width % 2^width = 1 % 2^width := by
  have hodd' : ((U128.fromI128 odd : ℕ) : ZMod (2^128)) = odd := by
    have hcast : ((U128.fromI128 odd : ℕ) : ℤ) = odd % 2^128 :=
      Int.toNat_of_nonneg (Int.emod_nonneg _ (by positivity))
    rw [← Int.cast_natCast, hcast, ZMod.intCast_eq_intCast_iff_dvd_sub]
    exact ⟨odd / 2^128, by push_cast; omega⟩
  -- The wrapping steps are the steps in the integers modulo the word.
  have hiterate : ∀ count : ℕ, (((fun inverse => U128.wrappingMul inverse (U128.wrappingSub 2
      (U128.wrappingMul (U128.fromI128 odd) inverse)))^[count] (U128.fromI128 odd) : ℕ) :
        ZMod (2^128)) = (newton (odd : ZMod (2^128)))^[count] odd := by
    intro count
    induction count with
    | zero => exact hodd'
    | succ count ih =>
      rw [Function.iterate_succ_apply', Function.iterate_succ_apply', ← ih, newton,
        cast_wrappingMul, cast_two_wrappingSub, hodd']
  have hmissing := one_sub_newton_iterate (odd : ZMod (2^128)) odd 6
  rw [← hiterate 6] at hmissing
  -- An odd number is its own inverse modulo eight, and six steps take that past the word.
  have hzero : (1 - (odd : ZMod (2^128)) * odd)^(2^6) = 0 := by
    obtain ⟨t, ht⟩ : ∃ t, odd * odd = 8 * t + 1 := by
      obtain ⟨s, hs⟩ : ∃ s, odd = 2 * s + 1 := ⟨odd / 2, by omega⟩
      obtain ⟨u, hu⟩ := Int.even_mul_succ_self s
      exact ⟨u, by rw [hs]; linarith⟩
    have hcast : (odd : ZMod (2^128)) * odd = 8 * t + 1 := by exact_mod_cast congrArg _ ht
    have hword : ((2^128 : ℕ) : ZMod (2^128)) = 0 := ZMod.natCast_self _
    have height : (8 : ZMod (2^128))^(2^6) = ((2^128 : ℕ) : ZMod (2^128)) * 2^64 := by
      norm_num
    rw [hcast, sub_add_cancel_right, ← neg_one_mul, mul_pow, mul_pow, height, hword]
    ring
  rw [hzero, sub_eq_zero] at hmissing
  unfold inverse
  dsimp only
  generalize (fun inverse => U128.wrappingMul inverse (U128.wrappingSub 2
    (U128.wrappingMul (U128.fromI128 odd) inverse)))^[6] (U128.fromI128 odd) = whole at *
  have hint : ((1 : ℤ) : ZMod (2^128)) = ((odd * whole : ℤ) : ZMod (2^128)) := by
    push_cast
    exact hmissing
  have hdvd := (ZMod.intCast_eq_intCast_iff_dvd_sub _ _ _).mp hint
  have hdvd' : (2 : ℤ)^width ∣ odd * whole - 1 := by
    refine (pow_dvd_pow 2 hwidth).trans ?_
    exact_mod_cast hdvd
  push_cast
  rw [Int.mul_emod, Int.emod_emod_of_dvd _ dvd_rfl, ← Int.mul_emod]
  exact (Int.modEq_iff_dvd.mpr hdvd').symm

/-- A divisor is an odd number moved up by its trailing zeros. -/
theorem divisor_split (h0 : divisor ≠ 0) (h : |divisor| < 2^128) :
    ∃ odd : ℤ, divisor = 2^U128.trailingZeros (U128.fromI128 divisor) * odd ∧ odd % 2 = 1 := by
  have hcast : ((U128.fromI128 divisor : ℕ) : ℤ) = divisor % 2^128 :=
    Int.toNat_of_nonneg (Int.emod_nonneg _ (by positivity))
  have hlt := Int.emod_lt_of_pos divisor (by positivity : (0 : ℤ) < 2^128)
  have hne : U128.fromI128 divisor ≠ 0 := by
    rw [abs_lt] at h
    omega
  obtain ⟨rest, hrest⟩ := U128.trailingZeros_spec hne (by omega)
  have hle : U128.trailingZeros (U128.fromI128 divisor) < 128 := by
    have hpos : 2^U128.trailingZeros (U128.fromI128 divisor) * 1 ≤ U128.fromI128 divisor := by
      conv_rhs => rw [hrest]
      exact Nat.mul_le_mul_left _ (by omega)
    refine (Nat.pow_lt_pow_iff_right (by norm_num : 1 < 2)).mp ?_
    omega
  generalize U128.trailingZeros (U128.fromI128 divisor) = power at *
  have hlow : (2 : ℤ)^power * (2 * rest + 1) = divisor % 2^128 := by
    rw [← hcast, hrest]
    push_cast
    rfl
  have hsplit : (2 : ℤ)^128 = 2^power * (2 * 2^(127 - power)) := by
    rw [← pow_succ', ← pow_add]
    congr 1
    omega
  refine ⟨2 * rest + 1 + 2 * 2^(127 - power) * (divisor / 2^128), ?_, ?_⟩
  · have hdiv := Int.mul_ediv_add_emod divisor (2^128)
    generalize divisor / 2^128 = q at *
    rw [← hdiv, ← hlow, hsplit]
    ring
  · rw [mul_assoc, Int.add_mul_emod_self_left]
    omega

/-- An exact division of a multiple of the divisor. -/
theorem exactly_built {signed : Bool} (hx : p.Gives widest dividend DIVIDEND p.width z)
    (hsigned : signed = true → -2^(p.width - 1) ≤ z ∧ z < 2^(p.width - 1))
    (hunsigned : signed = false → 0 ≤ z ∧ z < 2^p.width) (hd0 : divisor ≠ 0) (hd1 : divisor ≠ 1)
    (hd : |divisor| < 2^p.width) (hdvd : divisor ∣ z) (hwidth : p.width ≤ 64) (hw : p.width ≤ widest) :
    Built p (exactly p signed divisor) widest dividend p.width (z.tdiv divisor) := by
  have hd128 : |divisor| < 2^128 := hd.trans_le (pow_le_pow_right₀ (by norm_num) (by omega))
  obtain ⟨odd, hodd, hodd2⟩ := divisor_split hd0 hd128
  obtain ⟨k, rfl⟩ := hdvd
  unfold exactly
  dsimp only
  generalize U128.trailingZeros (U128.fromI128 divisor) = power at *
  have hpos : (0 : ℤ) < 2^power := by positivity
  have hshift : divisor >>> power = odd := by
    rw [Int.shiftRight_eq_div_pow, hodd, Nat.cast_pow, Nat.cast_ofNat,
      Int.mul_ediv_cancel_left _ hpos.ne']
  have hshort : power < p.width := by
    have hodd0 : 1 ≤ |odd| := Int.one_le_abs fun h0 => by
      rw [h0] at hodd2
      norm_num at hodd2
    have hle : (2 : ℤ)^power < 2^p.width := by
      refine lt_of_le_of_lt ?_ hd
      rw [hodd, abs_mul, abs_of_pos hpos]
      exact le_mul_of_one_le_right hpos.le hodd0
    exact (pow_lt_pow_iff_right₀ (by norm_num)).mp hle
  have hquot : (divisor * k).tdiv divisor = k := Int.mul_tdiv_cancel_left _ hd0
  have hrest : divisor * k / 2^power = odd * k := by
    rw [hodd, mul_assoc, Int.mul_ediv_cancel_left _ hpos.ne']
  rw [hshift, hquot]
  have hvalue : ∀ value, value = (if 0 < power then
        p.by_ (if signed then .aShr else .lShr) DIVIDEND power p.width
      else (p, DIVIDEND)) →
      Kept p value.1 widest dividend ∧ value.1.Gives widest dividend value.2 p.width (odd * k) ∧
        (odd = 1 → Built p value widest dividend p.width (odd * k)) := by
    intro value hvalue
    split_ifs at hvalue with hp hs
    · have hbuilt : Built p value widest dividend p.width (odd * k) := by
        rw [hvalue, ← hrest]
        obtain ⟨hlo, hhi⟩ := hsigned hs
        exact by_built hx hw (run_aShr hlo hhi hshort)
      exact ⟨hbuilt.toKept, hbuilt.gives, fun _ => hbuilt⟩
    · have hbuilt : Built p value widest dividend p.width (odd * k) := by
        obtain ⟨hlo, hhi⟩ := hunsigned (by simpa using hs)
        obtain ⟨n, hn⟩ := Int.eq_ofNat_of_zero_le hlo
        rw [hvalue, ← hrest, hn]
        have hfits : n < 2^p.width := by
          rw [hn] at hhi
          exact_mod_cast hhi
        have hcast : ((n : ℤ) / 2^power) = (n / 2^power : ℕ) := by push_cast; rfl
        rw [hcast]
        exact by_built (hn ▸ hx) hw (run_lShr hfits hshort)
      exact ⟨hbuilt.toKept, hbuilt.gives, fun _ => hbuilt⟩
    · have hp0 : power = 0 := by omega
      rw [hp0, pow_zero, one_mul] at hodd
      rw [hvalue, ← hodd]
      exact ⟨⟨rfl, rfl, id⟩, hx, fun h1 => absurd h1 hd1⟩
  generalize (if 0 < power then
      p.by_ (if signed then .aShr else .lShr) DIVIDEND power p.width
    else (p, DIVIDEND)) = value at *
  obtain ⟨hkept, hgives, hone⟩ := hvalue value rfl
  by_cases h1 : odd = 1
  · rw [if_neg (not_not.mpr h1)]
    have := hone h1
    rw [h1, one_mul] at this
    exact this
  · rw [if_pos h1]
    refine hkept.built (by_built hgives hw ?_)
    rw [word_signedAt, run_mul]
    refine congrArg some (word_congr ?_)
    have hinverse := inverse_spec hodd2 (hwidth.trans (by norm_num))
    calc odd * k * (inverse odd p.width : ℕ) % 2^p.width
        = odd * (inverse odd p.width : ℕ) * k % 2^p.width := by rw [mul_right_comm]
      _ = 1 * k % 2^p.width := by rw [Int.mul_emod, hinverse, ← Int.mul_emod]
      _ = k % 2^p.width := by rw [one_mul]

/-! ## The whole -/

/-- What C says the division gives. -/
def truth (remainder : Bool) (divisor z : ℤ) : ℤ := if remainder then z.tmod divisor else z.tdiv divisor

theorem unsignedAnswer_built (h : unsignedAnswer p divisor bits remainder = some q)
    (hx : p.Gives widest dividend DIVIDEND p.width n) (hn : n < 2^bits) (hn' : n < 2^p.width)
    (hd : 2 ≤ divisor.natAbs) (hdw : divisor.natAbs < 2^p.width) (hwidth : p.width ≤ 64)
    (hw : p.width ≤ widest) (hregister : p.register = 32 ∨ p.register = 64)
    (hr : p.register ≤ widest) :
    ∃ at_, Built p (q, at_) widest dividend p.width (truth remainder divisor n) := by
  unfold unsignedAnswer at h
  dsimp only at h
  rw [Option.bind_eq_bind, Option.bind_eq_some_iff] at h
  obtain ⟨⟨quotient, at_⟩, hquotient, h⟩ := h
  have hbuilt := unsigned_built hquotient hx hn hn' hd hdw hwidth hw hregister hr
  have hgives := hbuilt.gives
  have hx' := hbuilt.keeps hx
  dsimp only at h hx' hgives
  have hmod : (n : ℤ).tmod divisor = (n % divisor.natAbs : ℕ) := by
    rcases Int.natAbs_eq divisor with habs | habs
    · conv_lhs => rw [habs]
      rfl
    · conv_lhs => rw [habs, Int.tmod_neg]
      rfl
  unfold truth
  split_ifs at h ⊢ with hrem hpow hneg
  · -- The remainder by a power of two is a mask of the dividend.
    obtain rfl := Option.some.inj h
    have hsize := U128.eq_two_pow_trailingZeros hpow
      (hdw.trans_le (Nat.pow_le_pow_right (by norm_num) (by omega)))
    generalize U128.trailingZeros divisor.natAbs = power at *
    have hshort : power < p.width := (Nat.pow_lt_pow_iff_right (by norm_num)).mp (hsize ▸ hdw)
    refine ⟨_, hbuilt.trans (by_built hx' hw ?_)⟩
    have hmask : ((divisor.natAbs - 1 : ℕ) : ℤ) = 2^power - 1 := by
      rw [hsize, Nat.cast_sub Nat.one_le_two_pow]
      push_cast
      rfl
    rw [hmask, run_and hshort.le, hmod, hsize]
    push_cast
    rfl
  · obtain rfl := Option.some.inj h
    have hrest : (n : ℤ) - (n / divisor.natAbs : ℕ) * (divisor.natAbs : ℕ) =
        (n % divisor.natAbs : ℕ) := by
      have := Nat.div_add_mod n divisor.natAbs
      rw [mul_comm] at this
      have hint : (n : ℤ) = (n / divisor.natAbs : ℕ) * (divisor.natAbs : ℕ) +
          (n % divisor.natAbs : ℕ) := by exact_mod_cast this.symm
      omega
    rw [hmod, ← hrest]
    have hwidth' : quotient.width = p.width := hbuilt.width
    rw [← hwidth'] at hx' hgives hw
    have hleft := @leftOver_built n _ quotient widest dividend at_ divisor.natAbs hx' hgives hw
    rw [hwidth'] at hleft
    exact ⟨_, hbuilt.trans hleft⟩
  · obtain rfl := Option.some.inj h
    have hquot : (n : ℤ).tdiv divisor = -(n / divisor.natAbs : ℕ) := by
      have habs : divisor = -(divisor.natAbs : ℤ) := by omega
      conv_lhs => rw [habs]
      rw [Int.tdiv_neg]
      rfl
    rw [hquot]
    have hwidth' : quotient.width = p.width := hbuilt.width
    rw [← hwidth'] at hgives hw
    have hnegated := negated_built hgives hw
    rw [hwidth'] at hnegated
    exact ⟨_, hbuilt.trans hnegated⟩
  · obtain rfl := Option.some.inj h
    have hquot : (n : ℤ).tdiv divisor = (n / divisor.natAbs : ℕ) := by
      have habs : divisor = (divisor.natAbs : ℤ) := by omega
      conv_lhs => rw [habs]
      rfl
    rw [hquot]
    exact ⟨_, hbuilt⟩

theorem signedAnswer_built (h : signedAnswer p divisor bits remainder = some q)
    (hx : p.Gives widest dividend DIVIDEND p.width z) (hlo : -2^(bits - 1) ≤ z)
    (hhi : z < 2^(bits - 1)) (hlo' : -2^(p.width - 1) ≤ z) (hhi' : z < 2^(p.width - 1))
    (hd : 2 ≤ divisor.natAbs) (hdw : divisor.natAbs < 2^p.width) (hwidth : p.width ≤ 64)
    (hwidth0 : 0 < p.width)
    (hw : p.width ≤ widest) (hregister : p.register = 32 ∨ p.register = 64)
    (hr : p.register ≤ widest) :
    ∃ at_, Built p (q, at_) widest dividend p.width (truth remainder divisor z) := by
  unfold signedAnswer at h
  by_cases hpow : divisor.natAbs.isPowerOfTwo
  · rw [if_pos hpow] at h
    obtain rfl := Option.some.inj h
    exact ⟨_, biased_built hx hlo' hhi' hpow hd hdw hwidth hw⟩
  rw [if_neg hpow, Option.bind_eq_bind, Option.bind_eq_some_iff] at h
  obtain ⟨⟨quotient, at_⟩, hquotient, h⟩ := h
  have hbuilt := rounded_built hquotient hx hlo hhi hlo' hhi' hd hwidth hwidth0 hw hregister hr
  dsimp only at h
  unfold truth
  split_ifs at h ⊢ with hrem
  · obtain rfl := Option.some.inj h
    have hrest : z - z.tdiv divisor * divisor = z.tmod divisor := by
      have := Int.mul_tdiv_add_tmod z divisor
      rw [mul_comm] at this
      omega
    have hwidth' : quotient.width = p.width := hbuilt.width
    have hx' := hbuilt.keeps hx
    have hgives := hbuilt.gives
    dsimp only at hx' hgives
    rw [← hwidth'] at hx' hgives hw
    have hleft := @leftOver_built z _ quotient widest dividend at_ divisor hx' hgives hw
    rw [hwidth', hrest] at hleft
    exact ⟨_, hbuilt.trans hleft⟩
  · obtain rfl := Option.some.inj h
    exact ⟨_, hbuilt⟩

end

/-- A division reads the integer at its width. -/
def Division.Reads (division : Division) (z : ℤ) : Prop :=
  if division.signed then -2^(division.width - 1) ≤ z ∧ z < 2^(division.width - 1)
  else 0 ≤ z ∧ z < 2^division.width

instance (division : Division) (z : ℤ) : Decidable (division.Reads z) := by
  unfold Division.Reads
  infer_instance

/-- The dividend is in the range. -/
def Range.Holds (range : Range) (z : ℤ) : Prop :=
  match range with
  | .unsigned bits => 0 ≤ z ∧ z < 2^bits
  | .signed bits => -2^(bits - 1) ≤ z ∧ z < 2^(bits - 1)

/-- Every program that is written gives what C says. The dividend and the divisor are ones the division
reads, the dividend is in the range, and it is a multiple of the divisor where that was promised; the range of
an unsigned division is no signed one wider than the division. Every step finds operands of its own width,
every shift is by less than that, and no step is wider than a register, or than the division where that is
wider than one. -/
theorem programAt_correct {division : Division} {register : ℕ} {program : Program} {x : ℤ}
    (hprogram : programAt division register = some program)
    (hdivisor : division.Reads division.divisor) (hx : division.Reads x)
    (hrange : division.range.Holds x)
    (hwhole : ∀ bits, division.signed = false → division.range = .signed bits →
      bits ≤ division.width)
    (hexact : division.exact = true → division.divisor ∣ x) :
    program.run (max register division.width) x =
      some (word division.width (truth division.remainder division.divisor x)).number := by
  obtain ⟨signed, remainder, exact, width, range, divisor⟩ := division
  unfold Division.Reads at hdivisor hx
  dsimp only at *
  unfold programAt at hprogram
  dsimp only at hprogram
  by_cases hshape : (width ≠ 8 ∧ width ≠ 16 ∧ width ≠ 32 ∧ width ≠ 64) ∨ divisor = 0 ∨ divisor = 1 ∨
      signed ∧ divisor = -1
  · rw [if_pos hshape] at hprogram
    cases hprogram
  by_cases hregister : register ≠ 32 ∧ register ≠ 64
  · rw [if_neg hshape, if_pos hregister] at hprogram
    cases hprogram
  by_cases hwide : register < width ∧ ¬(exact ∧ ¬remainder) ∧ ¬divisor.natAbs.isPowerOfTwo
  · rw [if_neg hshape, if_neg hregister, if_pos hwide] at hprogram
    cases hprogram
  rw [if_neg hshape, if_neg hregister, if_neg hwide] at hprogram
  push Not at hshape hregister
  obtain ⟨hwidths, hd0, hd1, hdm⟩ := hshape
  have hwidth : width ≤ 64 ∧ 0 < width := by
    by_cases h8 : width = 8
    · omega
    by_cases h16 : width = 16
    · omega
    by_cases h32 : width = 32
    · omega
    have := hwidths h8 h16 h32
    omega
  have htwo : (2 : ℤ)^width = 2 * 2^(width - 1) := by
    rw [← pow_succ', Nat.sub_add_cancel hwidth.2]
  have hregisters : register = 32 ∨ register = 64 := by tauto
  have hbound : |divisor| < 2^width := by
    have hpos : (0 : ℤ) < 2^(width - 1) := by positivity
    rw [abs_lt]
    split_ifs at hdivisor <;> omega
  have hdw : divisor.natAbs < 2^width := by
    rw [← Int.natCast_natAbs] at hbound
    exact_mod_cast hbound
  have hd : 2 ≤ divisor.natAbs := by
    cases signed with
    | true =>
      have := hdm rfl
      omega
    | false =>
      simp only [Bool.false_eq_true, if_false] at hdivisor
      omega
  have hgives : (Program.new width register).Gives (max register width) x DIVIDEND width x :=
    new_gives width register
  by_cases hpromised : exact = true ∧ ¬remainder = true
  · rw [if_pos hpromised] at hprogram
    obtain rfl := Option.some.inj hprogram
    have htruth : truth remainder divisor x = x.tdiv divisor := if_neg hpromised.2
    rw [htruth]
    refine run_of_built (exactly_built hgives (fun hs => ?_) (fun hs => ?_) hd0 hd1 hbound
      (hexact hpromised.1) hwidth.1 (le_max_right _ _))
    · rwa [if_pos hs] at hx
    · rwa [if_neg (by simp [hs])] at hx
  rw [if_neg hpromised] at hprogram
  cases range with
  | unsigned bits =>
    obtain ⟨hx0, hxb⟩ := hrange
    obtain ⟨n, rfl⟩ := Int.eq_ofNat_of_zero_le hx0
    have hn : n < 2^bits := by exact_mod_cast hxb
    have hn' : n < 2^width := by
      have : (n : ℤ) < 2^width := by split_ifs at hx <;> omega
      exact_mod_cast this
    obtain ⟨at_, hbuilt⟩ := unsignedAnswer_built hprogram hgives hn hn' hd hdw hwidth.1
      (le_max_right _ _) hregisters (le_max_left _ _)
    have hrun := run_of_built hbuilt
    exact hrun
  | signed bits =>
    obtain ⟨hlo, hhi⟩ := hrange
    have hsigned : -2^(width - 1) ≤ x ∧ x < 2^(width - 1) := by
      cases signed with
      | true => exact hx
      | false =>
        simp only [Bool.false_eq_true, if_false] at hx
        have hpow : (2 : ℤ)^(bits - 1) ≤ 2^(width - 1) :=
          pow_le_pow_right₀ (by norm_num) (by have := hwhole bits rfl rfl; omega)
        omega
    obtain ⟨at_, hbuilt⟩ := signedAnswer_built hprogram hgives hlo hhi hsigned.1 hsigned.2 hd hdw
      hwidth.1 hwidth.2 (le_max_right _ _) hregisters (le_max_left _ _)
    have hrun := run_of_built hbuilt
    exact hrun

/-- The largest word of 32 bits by seven, whose magic number is one bit too long for the register. -/
theorem programAt_correct_seven :
    ∃ program, programAt ⟨false, false, false, 32, .unsigned 32, 7⟩ 32 = some program ∧
      program.run (max 32 32) 4294967295 = some (word 32 (truth false 7 4294967295)).number := by
  obtain ⟨program, hprogram⟩ : ∃ program,
      programAt ⟨false, false, false, 32, .unsigned 32, 7⟩ 32 = some program :=
    Option.isSome_iff_exists.mp (by decide +kernel)
  exact ⟨program, hprogram, programAt_correct hprogram (by decide) (by decide)
    ⟨by norm_num, by norm_num⟩ (fun _ _ h => by cases h) (fun h => by cases h)⟩

/-- Two programs at the edges. A division of 64 bits by four is written at its own width where a register
has 32 bits, wider than that register; and an unsigned division of eight bits whose range is a signed one of
sixteen reads its dividend as signed, which is not what two hundred over three is. -/
theorem programAt_edges :
    (∃ program, programAt ⟨false, false, false, 64, .unsigned 64, 4⟩ 32 = some program ∧
      Step.op .lShr 0 1 64 ∈ program.steps ∧ program.run 32 8 = none) ∧
    (∃ program, programAt ⟨false, false, false, 8, .signed 16, 3⟩ 64 = some program ∧
      Range.Holds (.signed 16) 200 ∧
      program.run 64 200 ≠ some (word 8 (truth false 3 200)).number) := by
  refine ⟨⟨⟨64, 32, [.const 2 64, .op .lShr 0 1 64]⟩, by decide +kernel, by decide, by decide +kernel⟩,
    ?_⟩
  obtain ⟨program, hprogram⟩ : ∃ program,
      programAt ⟨false, false, false, 8, .signed 16, 3⟩ 64 = some program :=
    Option.isSome_iff_exists.mp (by decide +kernel)
  refine ⟨program, hprogram, ⟨by norm_num, by norm_num⟩, ?_⟩
  have hall : ∀ program ∈ programAt ⟨false, false, false, 8, .signed 16, 3⟩ 64,
      program.run 64 200 ≠ some (word 8 (truth false 3 200)).number := by decide +kernel
  exact hall program hprogram

end Rucc.Codegen
