import Mathlib.Data.Nat.Size
import Rucc.Lib.Rounding
import Rucc.Lib.Checked

/-!
# Software binary floating point

The numbers of `rucc-base`'s `float.rs`: a sign, a category, an exponent and a significand, in one
of the six binary formats. The four other variants of the source's `Format` (the double-double and
the three decimal ones) are refused by every constructor here, so the enumeration below leaves them
out. The decimal formats are in `Rucc/Base/Dfp.lean`.

`round` and `finish` are where every conversion and every operation ends. `round_spec` says that
they round correctly whenever the significand handed over is not shifted out by exactly its own
width, and `round_underflow` says what happens then.

Significands are natural numbers below `2^128`, with the wrap of a left shift written out. Exponents
are `i32` in the source: an addition that would leave that range stops a build with overflow checks,
and is `none` here.
-/

namespace Rucc.Base

open Rounding Checked

variable {x : ℚ} {significand d n : ℕ} {exponent : ℤ} {sticky : Bool}

/-! ## Formats -/

/-- A binary floating point format. -/
inductive Format where
  | half
  | bFloat16
  | single
  | double
  | x87Extended
  | quad
  deriving DecidableEq, Repr

namespace Format

/-- The number of significand bits, counting the leading one whether it is stored or not. -/
def precision : Format → ℕ
  | half => 11
  | bFloat16 => 8
  | single => 24
  | double => 53
  | x87Extended => 64
  | quad => 113

/-- The exponent of the largest finite number, which is also the exponent bias. -/
def maxExponent : Format → ℤ
  | half => 15
  | bFloat16 => 127
  | single => 127
  | double => 1023
  | x87Extended => 16383
  | quad => 16383

/-- The exponent of the smallest normal number. -/
def minExponent (f : Format) : ℤ := 1 - f.maxExponent

/-- The width of the encoding in bits. -/
def width : Format → ℕ
  | half => 16
  | bFloat16 => 16
  | single => 32
  | double => 64
  | x87Extended => 80
  | quad => 128

/-- Whether the leading significand bit is stored rather than implied. -/
def hasExplicitIntegerBit : Format → Bool
  | x87Extended => true
  | _ => false

/-- The width of the stored significand field. -/
def significandBits (f : Format) : ℕ :=
  if f.hasExplicitIntegerBit then f.precision else f.precision - 1

/-- The width of the exponent field. -/
def exponentBits (f : Format) : ℕ := f.width - f.significandBits - 1

/-- The power of two that scales the significand of a subnormal number. -/
def leastScale (f : Format) : ℤ := f.minExponent - f.precision + 1

/-- The power of two that scales the significand of the largest finite number. -/
def mostScale (f : Format) : ℤ := f.maxExponent - f.precision + 1

/-- The grid of the format's magnitudes. -/
def grid (f : Format) : Grid where
  base := 2
  precision := f.precision
  least := f.leastScale
  most := f.mostScale
  one_lt_base := by norm_num
  base_even := by norm_num
  one_lt_precision := by cases f <;> decide
  least_le_most := by cases f <;> decide

@[simp] theorem grid_base (f : Format) : f.grid.base = 2 := rfl
@[simp] theorem grid_precision (f : Format) : f.grid.precision = f.precision := rfl
@[simp] theorem grid_least (f : Format) : f.grid.least = f.leastScale := rfl
@[simp] theorem grid_most (f : Format) : f.grid.most = f.mostScale := rfl
@[simp] theorem grid_top (f : Format) : f.grid.top = 2^f.precision := rfl

@[simp]
theorem grid_unit (f : Format) (q : ℤ) : f.grid.unit q = (2 : ℚ)^q := by simp [Grid.unit]

theorem precision_bounds (f : Format) : 8 ≤ f.precision ∧ f.precision ≤ 113 := by
  cases f <;> decide

theorem leastScale_bounds (f : Format) : -16494 ≤ f.leastScale ∧ f.leastScale ≤ -24 := by
  cases f <;> decide

theorem maxExponent_bounds (f : Format) : 15 ≤ f.maxExponent ∧ f.maxExponent ≤ 16383 := by
  cases f <;> decide

end Format

/-! ## Status -/

/-- What a conversion had to do to the number to fit it in the format, as a bit mask. -/
structure Status where
  bits : BitVec 8
  deriving DecidableEq, Repr

namespace Status

/-- The value is exactly what was written. -/
def NONE : Status := ⟨0⟩
/-- The value had to be rounded. -/
def INEXACT : Status := ⟨1⟩
/-- The value is too large for the format and became an infinity. -/
def OVERFLOW : Status := ⟨2⟩
/-- The value is too small for the format and became a subnormal or a zero. -/
def UNDERFLOW : Status := ⟨4⟩
/-- The operation has no answer at all. -/
def INVALID : Status := ⟨8⟩
/-- A number that is not zero was divided by one that is. -/
def DIVIDE_BY_ZERO : Status := ⟨16⟩

/-- Whether every flag in `other` is set here. -/
def has (self other : Status) : Bool := self.bits &&& other.bits == other.bits

/-- This set with `other` added. -/
def with_ (self other : Status) : Status := ⟨self.bits ||| other.bits⟩

/-- Whether nothing happened to the number. -/
def isNone (self : Status) : Bool := self.bits == 0

@[simp]
theorem has_inexact_none : NONE.has INEXACT = false := by decide

@[simp]
theorem has_inexact_self : INEXACT.has INEXACT = true := by decide

@[simp]
theorem has_inexact_with_inexact (st : Status) : (st.with_ INEXACT).has INEXACT = true := by
  obtain ⟨b⟩ := st
  revert b
  decide

@[simp]
theorem has_inexact_with_underflow (st : Status) : (st.with_ UNDERFLOW).has INEXACT = st.has INEXACT := by
  obtain ⟨b⟩ := st
  revert b
  decide

end Status

/-! ## Numbers -/

/-- What kind of number this is. -/
inductive Category where
  | zero
  | finite
  | infinite
  | nan
  deriving DecidableEq, Repr

/-- A floating point number in a given format. A finite value is
`significand * 2^(exponent - precision + 1)`. -/
structure Float where
  format : Format
  category : Category
  sign : Bool
  exponent : ℤ
  significand : ℕ
  deriving DecidableEq, Repr

namespace Float

/-- A zero of the given sign. -/
def zero (format : Format) (sign : Bool) : Float := ⟨format, .zero, sign, 0, 0⟩

/-- An infinity of the given sign. -/
def infinity (format : Format) (sign : Bool) : Float := ⟨format, .infinite, sign, 0, 0⟩

/-- The bit that tells a quiet nan from a signalling one. -/
def quietBit (format : Format) : ℕ := 1 <<< (format.precision - 2)

/-- The leading significand bit, in the one format that stores it. -/
def leadingBit (format : Format) : ℕ :=
  if format.hasExplicitIntegerBit then 1 <<< (format.precision - 1) else 0

/-- A quiet nan, which is what an operation with no answer gives. -/
def nan (format : Format) : Float :=
  ⟨format, .nan, false, 0, quietBit format ||| leadingBit format⟩

/-- Whether the number is a nan. -/
def isNan (x : Float) : Bool := x.category = .nan

/-- The number with its sign flipped. -/
def negated (x : Float) : Float := { x with sign := !x.sign }

/-- The significand and the power of two it is scaled by. -/
def parts (x : Float) : ℕ × ℤ := (x.significand, x.exponent - x.format.precision + 1)

/-- The power of two the significand is scaled by. -/
def scale (x : Float) : ℤ := x.exponent - x.format.precision + 1

/-- The magnitude of a number, and nothing for an infinity or a nan. -/
def magnitude (x : Float) : Option ℚ :=
  match x.category with
  | .zero => some 0
  | .finite => some (x.significand * 2^x.scale)
  | .infinite => none
  | .nan => none

/-- A magnitude with a sign. -/
def signed (sign : Bool) (v : ℚ) : ℚ := if sign then -v else v

/-- The value of a number, and nothing for an infinity or a nan. -/
def value (x : Float) : Option ℚ := x.magnitude.map (signed x.sign)

/-- The representation every constructor gives a number: the significand of a finite one fits the
precision, and its leading bit is set unless the exponent is the smallest. -/
def Canonical (x : Float) : Prop :=
  match x.category with
  | .zero => x.exponent = 0 ∧ x.significand = 0
  | .finite => 0 < x.significand ∧ x.significand < 2^x.format.precision ∧
      x.format.minExponent ≤ x.exponent ∧ x.exponent ≤ x.format.maxExponent ∧
      (x.exponent = x.format.minExponent ∨ 2^(x.format.precision - 1) ≤ x.significand)
  | .infinite => x.exponent = 0 ∧ x.significand = 0
  | .nan => True

instance (x : Float) : Decidable x.Canonical := by
  unfold Canonical
  split <;> infer_instance

@[simp] theorem signed_true (v : ℚ) : signed true v = -v := rfl
@[simp] theorem signed_false (v : ℚ) : signed false v = v := rfl
@[simp] theorem signed_zero (sign : Bool) : signed sign 0 = 0 := by cases sign <;> simp
@[simp] theorem magnitude_zero (f : Format) (s : Bool) : (zero f s).magnitude = some 0 := rfl
@[simp] theorem magnitude_infinity (f : Format) (s : Bool) : (infinity f s).magnitude = none := rfl
@[simp] theorem canonical_zero (f : Format) (s : Bool) : (zero f s).Canonical := ⟨rfl, rfl⟩
@[simp] theorem canonical_infinity (f : Format) (s : Bool) : (infinity f s).Canonical := ⟨rfl, rfl⟩

end Float

/-! ## Rounding -/

/-- The number of zero bits above the leading one of a `u128`. -/
def leadingZeros (x : ℕ) : ℕ := 128 - x.size

/-- Turns a rounded significand and the power of two it is scaled by into a number, handling the
carry out of the significand and the two ends of the format's range. -/
def finish (significand : ℕ) (scale : ℤ) (inexact sign : Bool) (format : Format) :
    Option (Float × Status) := do
  let precision := format.precision
  let (significand, scale) ←
    if significand >>> precision ≠ 0 then do
      -- Rounding up carried out of the top bit, which only ever gives a power of two.
      pure (significand >>> 1, ← checked 32 (scale + 1))
    else pure (significand, scale)
  let status := if inexact then Status.INEXACT else Status.NONE
  if significand = 0 then
    return (Float.zero format sign, status.with_ .UNDERFLOW)
  let exponent ← checked 32 ((← checked 32 (scale + precision)) - 1)
  if exponent > format.maxExponent then
    return (Float.infinity format sign, (status.with_ .OVERFLOW).with_ .INEXACT)
  let normal : Bool := significand >>> (precision - 1) ≠ 0
  let status := if !normal && inexact then status.with_ .UNDERFLOW else status
  let exponent := if normal then exponent else format.minExponent
  return (⟨format, .finite, sign, exponent, significand⟩, status)

/-- Rounds `significand * 2^exponent` into the format, with `sticky` saying that something nonzero
was already dropped below it. -/
def round (significand : ℕ) (exponent : ℤ) (sticky sign : Bool) (format : Format) :
    Option (Float × Status) := do
  if significand = 0 then
    return (Float.zero format sign, .NONE)
  let precision : ℤ := format.precision
  let leading : ℤ := 128 - leadingZeros significand
  let scale := max (← checked 32 ((← checked 32 (exponent + leading)) - precision))
    (format.minExponent - precision + 1)
  let (integer, half, sticky) ←
    if scale ≤ exponent then do
      let up ← checked 32 (exponent - scale)
      pure ((significand <<< up.toNat) % 2^128, false, sticky)
    else do
      let drop := (← checked 32 (scale - exponent)).toNat
      if 128 ≤ drop then pure (0, false, true)
      else
        pure (significand >>> drop, decide ((significand >>> (drop - 1)) &&& 1 = 1),
          sticky || decide (1 < drop ∧ significand &&& ((1 <<< (drop - 1)) - 1) ≠ 0))
  let rounded := if half && (sticky || decide (integer &&& 1 = 1)) then integer + 1 else integer
  finish rounded scale (half || sticky) sign format

/-! ## What `finish` and `round` give -/

/-- A canonical number of the format with the sign given. -/
structure IsNumber (f : Format) (sign : Bool) (r : Float) : Prop where
  format : r.format = f
  sign : r.sign = sign
  canonical : r.Canonical
  number : r.category ≠ .nan

/-- The answer of `finish` on the integer `n` of units `2^q`: an infinity from one past the most
scale on, else that many units, reported as inexact when it was or when it is an infinity. -/
structure Finished (f : Format) (n : ℕ) (q : ℤ) (inexact sign : Bool) (r : Float) (st : Status) :
    Prop extends IsNumber f sign r where
  infinite : r.magnitude = none ↔ f.mostScale < q ∨ q = f.mostScale ∧ n = 2^f.precision
  finite : ∀ v, r.magnitude = some v → v = n * 2^q
  status : st.has .INEXACT ↔ inexact = true ∨ r.magnitude = none

/-- `finish` on an integer that fits the precision. -/
theorem finish_of_lt (f : Format) (n : ℕ) (q : ℤ) (inexact sign : Bool) (hn : n < 2^f.precision)
    (hq : f.leastScale ≤ q) (hfull : q = f.leastScale ∨ 2^(f.precision - 1) ≤ n)
    (hfit : n = 0 ∨ Fits 32 (q + f.precision)) :
    ∃ r st, finish n q inexact sign f = some (r, st) ∧ Finished f n q inexact sign r st := by
  obtain ⟨hp8, hp113⟩ := f.precision_bounds
  obtain ⟨hm15, hm⟩ := f.maxExponent_bounds
  have hmin : f.minExponent = 1 - f.maxExponent := rfl
  have hleast : f.leastScale = f.minExponent - f.precision + 1 := rfl
  have hmost : f.mostScale = f.maxExponent - f.precision + 1 := rfl
  have hnocarry : n >>> f.precision = 0 := by
    rw [Nat.shiftRight_eq_div_pow, Nat.div_eq_of_lt hn]
  rcases Nat.eq_zero_or_pos n with rfl | hpos
  · have hqm : ¬(f.mostScale < q ∨ q = f.mostScale ∧ 0 = 2^f.precision) := by
      have h2 : 0 < 2^(f.precision - 1) := Nat.two_pow_pos _
      have := Nat.two_pow_pos f.precision
      omega
    refine ⟨Float.zero f sign, _, by simp [finish]; rfl, ⟨⟨rfl, rfl, by simp, by simp [Float.zero]⟩,
      ?_, ?_, ?_⟩⟩
    · simp [hqm]
    · simp
    · cases inexact <;> simp
  · have hfit := hfit.resolve_left hpos.ne'
    have hfit' : Fits 32 (q + f.precision - 1) := by
      unfold Fits at hfit ⊢
      omega
    have hexp : finish n q inexact sign f = some (if q + f.precision - 1 > f.maxExponent then
        (Float.infinity f sign,
          ((if inexact then Status.INEXACT else .NONE).with_ .OVERFLOW).with_ .INEXACT)
      else (⟨f, .finite, sign,
          if n >>> (f.precision - 1) ≠ 0 then q + f.precision - 1 else f.minExponent, n⟩,
        if !decide (n >>> (f.precision - 1) ≠ 0) && inexact then
          (if inexact then Status.INEXACT else .NONE).with_ .UNDERFLOW
        else if inexact then .INEXACT else .NONE)) := by
      simp only [finish, hnocarry, ne_eq, not_true_eq_false, if_false, hpos.ne',
        checked_of_fits hfit, checked_of_fits hfit', bind, pure, Option.bind]
      split_ifs <;> simp_all
    by_cases hbig : q + f.precision - 1 > f.maxExponent
    · rw [if_pos hbig] at hexp
      refine ⟨_, _, hexp, ⟨⟨rfl, rfl, by simp, by simp [Float.infinity]⟩, ?_, ?_, ?_⟩⟩
      · simp only [Float.magnitude_infinity, true_iff]
        exact Or.inl (by omega)
      · simp
      · cases inexact <;> simp
    · rw [if_neg hbig] at hexp
      have hnormal : n >>> (f.precision - 1) ≠ 0 ↔ 2^(f.precision - 1) ≤ n := by
        rw [Nat.shiftRight_eq_div_pow, Nat.div_ne_zero_iff]
        exact and_iff_right (Nat.two_pow_pos _).ne'
      -- The exponent kept is the one that puts the significand back at the scale it came at.
      have hexpo : (if n >>> (f.precision - 1) ≠ 0 then q + f.precision - 1 else f.minExponent) =
          q + f.precision - 1 := by
        split_ifs with h
        · rfl
        · have := hfull.resolve_right (mt hnormal.2 h)
          omega
      rw [hexpo] at hexp
      refine ⟨_, _, hexp, ⟨⟨rfl, rfl, ?_, by simp⟩, ?_, ?_, ?_⟩⟩
      · refine ⟨hpos, hn, ?_, ?_, ?_⟩
        · show f.minExponent ≤ q + f.precision - 1
          omega
        · show q + f.precision - 1 ≤ f.maxExponent
          omega
        · show q + f.precision - 1 = f.minExponent ∨ _
          exact hfull.imp_left fun h => by omega
      · simp only [Float.magnitude, reduceCtorEq, false_iff]
        omega
      · intro v hv
        simp only [Float.magnitude, Float.scale, Option.some.injEq] at hv
        rw [← hv]
        congr 2
        ring
      · cases inexact <;> by_cases h : n >>> (f.precision - 1) = 0 <;>
          simp [h, Float.magnitude]

/-- A carry out of the significand is the smallest full significand, one scale up. -/
theorem finish_carry (f : Format) (q : ℤ) (inexact sign : Bool) (hfit : Fits 32 (q + 1)) :
    finish (2^f.precision) q inexact sign f =
      finish (2^(f.precision - 1)) (q + 1) inexact sign f := by
  obtain ⟨hp8, -⟩ := f.precision_bounds
  have h1 : 2^f.precision >>> f.precision ≠ 0 := by
    rw [Nat.shiftRight_eq_div_pow, Nat.div_self (Nat.two_pow_pos _)]
    exact one_ne_zero
  have h2 : 2^f.precision >>> 1 = 2^(f.precision - 1) := by
    rw [Nat.shiftRight_eq_div_pow, Nat.pow_div (by omega) (by norm_num)]
  have h3 : 2^(f.precision - 1) >>> f.precision = 0 := by
    rw [Nat.shiftRight_eq_div_pow, Nat.div_eq_of_lt (Nat.pow_lt_pow_right (by norm_num) (by omega))]
  simp only [finish, h1, h2, h3, ne_eq, not_false_eq_true, not_true_eq_false, if_true, if_false,
    checked_of_fits hfit, bind, pure, Option.bind]

/-- `finish` on a rounded integer, which the rounding may have carried to a power of two. -/
theorem finish_spec (f : Format) (n : ℕ) (q : ℤ) (inexact sign : Bool) (hn : n ≤ 2^f.precision)
    (hq : f.leastScale ≤ q) (hfull : q = f.leastScale ∨ 2^(f.precision - 1) ≤ n)
    (hfit : n = 0 ∨ Fits 32 (q + f.precision))
    (hcarry : n = 2^f.precision → Fits 32 (q + 1 + f.precision)) :
    ∃ r st, finish n q inexact sign f = some (r, st) ∧ Finished f n q inexact sign r st := by
  obtain ⟨hp8, hp113⟩ := f.precision_bounds
  rcases hn.lt_or_eq with hn | rfl
  · exact finish_of_lt f n q inexact sign hn hq hfull hfit
  · have hc := hcarry rfl
    have hf := hfit.resolve_left (Nat.two_pow_pos _).ne'
    have hshort : 2^(f.precision - 1) < 2^f.precision :=
      Nat.pow_lt_pow_right (by norm_num) (by omega)
    have hl := f.leastScale_bounds
    rw [finish_carry f q inexact sign (by unfold Fits at *; omega)]
    obtain ⟨r, st, hr, hfin⟩ := finish_of_lt f (2^(f.precision - 1)) (q + 1) inexact sign hshort
      (by omega) (Or.inr le_rfl) (Or.inr hc)
    refine ⟨r, st, hr, ⟨hfin.toIsNumber, ?_, ?_, hfin.status⟩⟩
    · rw [hfin.infinite]
      constructor
      · rintro (h | ⟨-, h⟩)
        · omega
        · omega
      · rintro (h | ⟨h, -⟩)
        · omega
        · omega
    · intro v hv
      rw [hfin.finite v hv]
      have h := f.grid.top_mul_unit q
      simp only [Format.grid_top, Format.grid_unit, Format.grid_base, Format.grid_precision] at h
      exact_mod_cast h.symm

/-- The magnitude `x` is what a significand and an exponent keep of it: it lies in the unit above
`significand * 2^exponent`, and strictly above exactly when something was dropped. -/
structure Kept (x : ℚ) (significand : ℕ) (exponent : ℤ) (sticky : Bool) : Prop where
  le : significand * 2^exponent ≤ x
  lt : x < (significand + 1) * 2^exponent
  sticky_iff : sticky = true ↔ (significand : ℚ) * 2^exponent < x

/-- A significand with nothing dropped keeps its own value. -/
theorem Kept.exact (significand : ℕ) (exponent : ℤ) :
    Kept (significand * 2^exponent) significand exponent false where
  le := le_rfl
  lt := by
    have : (0 : ℚ) < 2^exponent := by positivity
    nlinarith
  sticky_iff := by simp

/-- The bits `round` looks at when it drops `d` of them: the integer above, the bit below it and
whether anything is left under that bit decide the rounding to nearest with ties to even. -/
theorem rne_drop (hk : Kept x significand exponent sticky) (hd : 0 < d) : rne (x / 2^(exponent + d)) =
      if decide ((significand >>> (d - 1)) &&& 1 = 1) &&
          ((sticky || decide (1 < d ∧ significand &&& ((1 <<< (d - 1)) - 1) ≠ 0)) ||
            decide ((significand >>> d) &&& 1 = 1))
      then significand >>> d + 1 else significand >>> d := by
  have hu : (0 : ℚ) < 2^exponent := by positivity
  -- In units of `2^exponent`, `y` lies in the unit above the significand.
  obtain ⟨y, hy⟩ : ∃ y, y = x / 2^exponent := ⟨_, rfl⟩
  have hle : (significand : ℚ) ≤ y := by rw [hy]; exact (le_div_iff₀ hu).2 hk.le
  have hlt : y < significand + 1 := by rw [hy]; exact (div_lt_iff₀ hu).2 hk.lt
  have hst : sticky = true ↔ (significand : ℚ) < y := by
    rw [hk.sticky_iff, hy]
    exact (lt_div_iff₀ hu).symm
  obtain ⟨k, rfl⟩ : ∃ k, d = k + 1 := ⟨d - 1, by omega⟩
  have hxy : x / 2^(exponent + (k + 1 : ℕ)) = y / (2 * 2^k) := by
    have h2 : (2 : ℚ)^(exponent + (k + 1 : ℕ)) = 2^exponent * (2 * 2^k) := by
      rw [zpow_add₀ (by norm_num), zpow_natCast, pow_succ]
      ring
    rw [h2, hy, div_div]
  have hD : 0 < 2^k := Nat.two_pow_pos k
  have hn : significand >>> (k + 1) = significand / 2^k / 2 := by
    rw [Nat.shiftRight_eq_div_pow, pow_succ, Nat.div_div_eq_div_mul]
  have hb : (significand >>> (k + 1 - 1)) &&& 1 = significand / 2^k % 2 := by
    rw [Nat.add_sub_cancel, Nat.and_one_is_mod, Nat.shiftRight_eq_div_pow]
  have hrest : significand &&& ((1 <<< (k + 1 - 1)) - 1) = significand % 2^k := by
    rw [Nat.add_sub_cancel, Nat.shiftLeft_eq, one_mul, Nat.and_two_pow_sub_one_eq_mod]
  have hlow : (1 < k + 1 ∧ significand % 2^k ≠ 0) ↔ significand % 2^k ≠ 0 := by
    constructor
    · exact fun h => h.2
    · intro h
      refine ⟨?_, h⟩
      rcases Nat.eq_zero_or_pos k with rfl | hk0
      · rw [pow_zero, Nat.mod_one] at h
        omega
      · omega
  rw [hxy, hn, hb, hrest, Nat.and_one_is_mod]
  simp only [hlow]
  -- The significand is `2^(k+1) n + 2^k b + r`.
  have hsplit : significand = 2^k * (2 * (significand / 2^k / 2) + significand / 2^k % 2) +
      significand % 2^k := by
    rw [Nat.div_add_mod, Nat.div_add_mod]
  have hr : significand % 2^k < 2^k := Nat.mod_lt _ hD
  have hb2 : significand / 2^k % 2 < 2 := Nat.mod_lt _ (by norm_num)
  generalize significand / 2^k / 2 = n at *
  generalize significand / 2^k % 2 = b at *
  generalize significand % 2^k = r at *
  have hDq : (0 : ℚ) < 2^k := by positivity
  have hsq : (significand : ℚ) = 2^k * (2 * n + b) + r := by exact_mod_cast hsplit
  have hrq : (r : ℚ) + 1 ≤ 2^k := by exact_mod_cast hr
  have hr0 : (0 : ℚ) ≤ r := Nat.cast_nonneg r
  have h2D : (0 : ℚ) < 2 * 2^k := by positivity
  have hylo : (n : ℚ) ≤ y / (2 * 2^k) := by
    rw [le_div_iff₀ h2D]
    have : (0 : ℚ) ≤ 2^k * b := mul_nonneg hDq.le (Nat.cast_nonneg b)
    linarith
  obtain rfl | rfl : b = 0 ∨ b = 1 := by omega
  · -- The bit below the integer is clear, so the value is below half way.
    simp only [zero_ne_one, decide_false, Bool.false_and, Bool.false_eq_true, if_false]
    refine rne_of_lt_half hylo ?_
    rw [div_lt_iff₀ h2D]
    push_cast at hsq
    linarith
  · push_cast at hsq
    have hyhi : y / (2 * 2^k) < n + 1 := by
      rw [div_lt_iff₀ h2D]
      linarith
    by_cases habove : sticky = true ∨ r ≠ 0
    · -- Something is left below that bit, so the value is above half way.
      have hgt : (n : ℚ) + 1 / 2 < y / (2 * 2^k) := by
        rw [lt_div_iff₀ h2D]
        rcases habove with h | h
        · have := hst.1 h
          linarith
        · have : (1 : ℚ) ≤ r := by exact_mod_cast Nat.one_le_iff_ne_zero.2 h
          linarith
      rw [rne_of_half_lt hgt hyhi]
      rcases habove with h | h <;> simp [h]
    · -- Nothing is, so the value is half way.
      rw [not_or, not_not] at habove
      obtain ⟨hsf, rfl⟩ := habove
      have hyeq : y = significand := le_antisymm (not_lt.1 (mt hst.2 hsf)) hle
      have heq : y / (2 * 2^k) = n + 1 / 2 := by
        rw [div_eq_iff h2D.ne', hyeq, hsq]
        push_cast
        ring
      rw [rne_of_half heq]
      rcases Nat.mod_two_eq_zero_or_one n with h | h <;> simp [h, hsf]

/-- The dropped bits are all zero exactly when the rounded integer gives the magnitude back. -/
theorem inexact_drop (hk : Kept x significand exponent sticky) (hd : 0 < d) :
    (decide ((significand >>> (d - 1)) &&& 1 = 1) ||
        (sticky || decide (1 < d ∧ significand &&& ((1 <<< (d - 1)) - 1) ≠ 0))) = true ↔
      x ≠ rne (x / 2^(exponent + d)) * 2^(exponent + d) := by
  have hu : (0 : ℚ) < 2^exponent := by positivity
  have h2 : (2 : ℚ)^(exponent + d) = 2^d * 2^exponent := by
    rw [add_comm, zpow_add₀ (by norm_num), zpow_natCast]
  obtain ⟨k, rfl⟩ : ∃ k, d = k + 1 := ⟨d - 1, by omega⟩
  -- The bit and the bits below it are what a division by `2^d` leaves.
  have hbits : (significand >>> (k + 1 - 1)) &&& 1 = 0 ∧
      significand &&& ((1 <<< (k + 1 - 1)) - 1) = 0 ↔ significand % 2^(k + 1) = 0 := by
    rw [Nat.add_sub_cancel, Nat.and_one_is_mod, Nat.shiftRight_eq_div_pow, Nat.shiftLeft_eq,
      one_mul, Nat.and_two_pow_sub_one_eq_mod, pow_succ, Nat.mod_mul]
    have := Nat.two_pow_pos k
    constructor
    · rintro ⟨h1, h2⟩
      rw [h1, h2, mul_zero, add_zero]
    · intro h
      have h0 := Nat.add_eq_zero_iff.1 h
      exact ⟨(Nat.mul_eq_zero.1 h0.2).resolve_left this.ne', h0.1⟩
  have hzero : (decide ((significand >>> (k + 1 - 1)) &&& 1 = 1) ||
        (sticky || decide (1 < k + 1 ∧ significand &&& ((1 <<< (k + 1 - 1)) - 1) ≠ 0))) = false ↔
      sticky = false ∧ significand % 2^(k + 1) = 0 := by
    rw [← hbits]
    have hb : (significand >>> (k + 1 - 1)) &&& 1 < 2 := by
      rw [Nat.and_one_is_mod]
      exact Nat.mod_lt _ (by norm_num)
    simp only [Bool.or_eq_false_iff, decide_eq_false_iff_not, not_and, not_not]
    constructor
    · rintro ⟨h1, h2, h3⟩
      refine ⟨h2, by omega, ?_⟩
      rcases Nat.eq_zero_or_pos k with rfl | hk0
      · simp
      · exact h3 (by omega)
    · rintro ⟨h1, h2, h3⟩
      exact ⟨by omega, h1, fun _ => h3⟩
  rw [← not_iff_not, Bool.not_eq_true, hzero, not_not]
  constructor
  · rintro ⟨hs, hm⟩
    have hx : x = significand * 2^exponent :=
      le_antisymm (not_lt.1 (mt hk.sticky_iff.2 (by simp [hs]))) hk.le
    obtain ⟨n, hn⟩ := Nat.dvd_of_mod_eq_zero hm
    have hxn : x = n * 2^(exponent + (k + 1 : ℕ)) := by
      rw [hx, h2, hn]
      push_cast
      ring
    rw [hxn, mul_div_assoc, div_self (by positivity), mul_one, rne_natCast]
  · intro hx
    generalize rne (x / 2^(exponent + (k + 1 : ℕ))) = n at hx
    have hxn : x = (2^(k + 1) * n : ℕ) * 2^exponent := by
      rw [hx, h2]
      push_cast
      ring
    have hle := hk.le
    have hlt := hk.lt
    rw [hxn] at hle hlt
    have h1 : significand ≤ 2^(k + 1) * n := by exact_mod_cast le_of_mul_le_mul_right hle hu
    have h3 : 2^(k + 1) * n < significand + 1 := by exact_mod_cast lt_of_mul_lt_mul_right hlt hu.le
    have heq : significand = 2^(k + 1) * n := by omega
    refine ⟨?_, by rw [heq, Nat.mul_mod_right]⟩
    by_contra hs
    have := hk.sticky_iff.1 (by simpa using hs)
    rw [hxn, heq] at this
    exact lt_irrefl _ this

/-- A correctly rounded magnitude: a canonical number of the format with the sign given, nearest the
exact magnitude with ties to even, and reported as inexact exactly when it differs from it. -/
structure Rounded (f : Format) (x : ℚ) (sign : Bool) (r : Float) (st : Status) : Prop
    extends IsNumber f sign r where
  rounds : f.grid.Rounds x r.magnitude
  status : st.has .INEXACT ↔ r.magnitude ≠ some x

/-- The magnitude is above half of the smallest subnormal number, but `round` is handed it as a
significand of which exactly all 128 bits are to be dropped, and drops the half with them. -/
def LosesHalf (f : Format) (exponent : ℤ) (x : ℚ) : Prop :=
  f.leastScale = exponent + 128 ∧ f.grid.unit f.leastScale / 2 < x

/-- The scale `round` rounds at, which is the spacing of the grid around the magnitude. -/
def roundScale (f : Format) (significand : ℕ) (exponent : ℤ) : ℤ :=
  max (exponent + significand.size - f.precision) f.leastScale

theorem size_le_of_lt (h : n < 2^128) : n.size ≤ 128 := Nat.size_le.2 h

theorem leadingZeros_cast (h : n < 2^128) : (128 : ℤ) - leadingZeros n = n.size := by
  have := size_le_of_lt h
  unfold leadingZeros
  omega

/-- The leading bit of a positive significand. -/
theorem two_pow_size_le (h : 0 < n) : 2^(n.size - 1) ≤ n := by
  have := Nat.size_pos.2 h
  exact Nat.lt_size.1 (by omega)

section RoundScale

variable {f : Format} {x : ℚ} {significand : ℕ} {exponent : ℤ} {sticky : Bool}

/-- The scale `round` picks is the spacing of the grid around the magnitude. -/
theorem spaced_roundScale (hk : Kept x significand exponent sticky) (hpos : 0 < significand) :
    f.grid.Spaced x (roundScale f significand exponent) := by
  have hsize := Nat.size_pos.2 hpos
  have hp8 := f.precision_bounds.1
  refine ⟨le_max_right _ _, ?_, ?_⟩
  · have hlt : (significand : ℚ) + 1 ≤ 2^significand.size := by
      exact_mod_cast Nat.lt_size_self significand
    calc x < (significand + 1) * 2^exponent := hk.lt
      _ ≤ 2^significand.size * 2^exponent := mul_le_mul_of_nonneg_right hlt (by positivity)
      _ = 2^(exponent + significand.size : ℤ) := by
          rw [add_comm, zpow_add₀ (by norm_num), zpow_natCast]
      _ ≤ 2^((f.precision : ℤ) + roundScale f significand exponent) :=
          zpow_le_zpow_right₀ (by norm_num) (by unfold roundScale; omega)
      _ = f.grid.top * f.grid.unit (roundScale f significand exponent) := by
          rw [zpow_add₀ (by norm_num), zpow_natCast, Format.grid_unit, Format.grid_top]
          push_cast
          rfl
  · rcases max_cases (exponent + significand.size - f.precision) f.leastScale with ⟨h, -⟩ | ⟨h, -⟩
    · refine Or.inr ?_
      have hle : (2 : ℚ)^(significand.size - 1) ≤ significand := by
        exact_mod_cast two_pow_size_le hpos
      rw [roundScale, h, Format.grid_unit, Format.grid_base, Format.grid_precision]
      calc ((2^(f.precision - 1) : ℕ) : ℚ) * 2^(exponent + significand.size - f.precision)
          = 2^((significand.size - 1 : ℕ) : ℤ) * 2^exponent := by
            push_cast
            rw [← zpow_natCast, ← zpow_add₀ (by norm_num), ← zpow_add₀ (by norm_num)]
            congr 1
            omega
        _ ≤ significand * 2^exponent := by
            rw [zpow_natCast]
            exact mul_le_mul_of_nonneg_right hle (by positivity)
        _ ≤ x := hk.le
    · exact Or.inl h

/-- All the bits of a significand are dropped, and what they held is at most half a unit. -/
theorem rne_of_drop_all (hk : Kept x significand exponent sticky) (h128 : significand < 2^128)
    (hdrop : exponent + 128 ≤ roundScale f significand exponent)
    (hlost : ¬ LosesHalf f exponent x) : rne (x / 2^roundScale f significand exponent) = 0 := by
  obtain ⟨hp8, -⟩ := f.precision_bounds
  have hscale : roundScale f significand exponent = f.leastScale := by
    have := size_le_of_lt h128
    unfold roundScale at hdrop ⊢
    omega
  rw [hscale] at hdrop ⊢
  have hu : (0 : ℚ) < 2^f.leastScale := by positivity
  have hx0 : 0 ≤ x := le_trans (by positivity) hk.le
  have hhalf : x ≤ 2^f.leastScale / 2 := by
    rcases hdrop.lt_or_eq with h | h
    · have hs : (significand : ℚ) + 1 ≤ 2^(128 : ℕ) := by exact_mod_cast h128
      calc x ≤ (significand + 1) * 2^exponent := hk.lt.le
        _ ≤ 2^(128 : ℕ) * 2^exponent := mul_le_mul_of_nonneg_right hs (by positivity)
        _ = 2^(exponent + 128) := by
            rw [add_comm, zpow_add₀ (by norm_num)]
            rfl
        _ ≤ 2^(f.leastScale - 1) := zpow_le_zpow_right₀ (by norm_num) (by omega)
        _ = 2^f.leastScale / 2 := zpow_sub_one₀ (by norm_num) _
    · rw [LosesHalf, not_and, Format.grid_unit] at hlost
      exact not_lt.1 (hlost h.symm)
  rcases hhalf.lt_or_eq with h | h
  · refine rne_of_lt_half (div_nonneg hx0 hu.le) ?_
    rw [div_lt_iff₀ hu]
    push_cast
    linarith
  · rw [rne_of_half (n := 0)]
    rw [div_eq_iff hu.ne', h]
    push_cast
    ring

end RoundScale

variable {f : Format}

/-- `round` gives the correctly rounded magnitude. The exponents must stay in an `i32`, a sticky bit
must lie below the precision, and the half must not be lost. -/
theorem round_spec (sign : Bool) (hk : Kept x significand exponent sticky) (h128 : significand < 2^128)
    (hlong : sticky = true → 2^f.precision ≤ significand) (hexp : Fits 32 exponent)
    (htop : Fits 32 (exponent + significand.size))
    (hwant : Fits 32 (exponent + significand.size - f.precision))
    (hcarry : Fits 32 (exponent + significand.size + 1) ∨
      rne (x / 2^roundScale f significand exponent) < 2^f.precision)
    (hlost : ¬ LosesHalf f exponent x) :
    ∃ r st, round significand exponent sticky sign f = some (r, st) ∧ Rounded f x sign r st := by
  obtain ⟨hp8, hp113⟩ := f.precision_bounds
  obtain ⟨hl1, hl2⟩ := f.leastScale_bounds
  have hsize := size_le_of_lt h128
  rcases Nat.eq_zero_or_pos significand with rfl | hpos
  · -- Nothing was dropped from a zero, since that would need a longer significand.
    have hsf : sticky = false := by
      by_contra h
      have := hlong (by simpa using h)
      have := Nat.two_pow_pos f.precision
      omega
    have hx : x = 0 := by
      have h1 := hk.le
      have h2 := mt hk.sticky_iff.2 (by simp [hsf])
      push_cast at h1 h2
      linarith
    subst hx
    refine ⟨Float.zero f sign, .NONE, by simp [round], ⟨⟨rfl, rfl, by simp, by simp [Float.zero]⟩,
      f.grid.rounds_self f.grid.holds_zero, ?_⟩⟩
    simp
  have hs := spaced_roundScale (f := f) hk hpos
  have hu : (0 : ℚ) < 2^roundScale f significand exponent := by positivity
  have hx0 : 0 < x := lt_of_lt_of_le (by positivity) hk.le
  -- Whatever branch rounds, it rounds `x` at this scale.
  obtain ⟨n, inexact, hround, hn, hin⟩ : ∃ n inexact,
      round significand exponent sticky sign f =
        finish n (roundScale f significand exponent) inexact sign f ∧
      n = rne (x / 2^roundScale f significand exponent) ∧
      (inexact = true ↔ x ≠ n * 2^roundScale f significand exponent) := by
    have hmax : max (exponent + significand.size - f.precision)
        (f.minExponent - f.precision + 1) = roundScale f significand exponent := rfl
    simp only [round, hpos.ne', if_false, leadingZeros_cast h128, checked_of_fits htop,
      checked_of_fits hwant, bind, pure, Option.bind, hmax]
    rcases le_or_gt (roundScale f significand exponent) exponent with hle | hgt
    · -- The significand is shorter than the precision, so it is exact.
      have hsf : sticky = false := by
        by_contra h
        have h1 := hlong (by simpa using h)
        have h2 := Nat.lt_size.2 h1
        unfold roundScale at hle
        omega
      have hx : x = significand * 2^exponent :=
        le_antisymm (not_lt.1 (mt hk.sticky_iff.2 (by simp [hsf]))) hk.le
      obtain ⟨k, hk'⟩ : ∃ k : ℕ, exponent = roundScale f significand exponent + k :=
        ⟨(exponent - roundScale f significand exponent).toNat, by omega⟩
      have hkp : significand.size + k ≤ f.precision := by
        unfold roundScale at hk'
        omega
      have hfit : Fits 32 (exponent - roundScale f significand exponent) := by
        unfold Fits
        omega
      have htoNat : (exponent - roundScale f significand exponent).toNat = k := by omega
      have hshift : significand <<< k % 2^128 = significand * 2^k := by
        rw [Nat.shiftLeft_eq, Nat.mod_eq_of_lt]
        calc significand * 2^k < 2^significand.size * 2^k :=
              Nat.mul_lt_mul_of_pos_right (Nat.lt_size_self _) (Nat.two_pow_pos k)
          _ = 2^(significand.size + k) := (pow_add _ _ _).symm
          _ ≤ 2^128 := Nat.pow_le_pow_right (by norm_num) (by omega)
      refine ⟨significand * 2^k, false, ?_, ?_, ?_⟩
      · simp only [if_pos hle, checked_of_fits hfit, htoNat, hshift, hsf, Bool.false_and,
          Bool.false_eq_true, if_false, Bool.or_false]
      · have hxd : x / 2^roundScale f significand exponent = ((significand * 2^k : ℕ) : ℚ) := by
          rw [div_eq_iff hu.ne', hx]
          nth_rewrite 1 [hk']
          rw [zpow_add₀ (by norm_num), zpow_natCast]
          push_cast
          ring
        rw [hxd, rne_natCast]
      · simp only [Bool.false_eq_true, ne_eq, false_iff, not_not]
        rw [hx]
        nth_rewrite 1 [hk']
        rw [zpow_add₀ (by norm_num), zpow_natCast]
        push_cast
        ring
    · obtain ⟨d, hd⟩ : ∃ d : ℕ, roundScale f significand exponent = exponent + d :=
        ⟨(roundScale f significand exponent - exponent).toNat, by omega⟩
      have hfit : Fits 32 (roundScale f significand exponent - exponent) := by
        unfold Fits at *
        unfold roundScale
        omega
      have htoNat : (roundScale f significand exponent - exponent).toNat = d := by omega
      have hd0 : 0 < d := by omega
      simp only [if_neg hgt.not_ge, checked_of_fits hfit, htoNat]
      by_cases hbig : 128 ≤ d
      · have hrne := rne_of_drop_all (f := f) hk h128 (by omega) hlost
        refine ⟨0, true, ?_, hrne.symm, ?_⟩
        · simp [hbig]
        · simpa using hx0.ne'
      · refine ⟨rne (x / 2^roundScale f significand exponent),
          decide ((significand >>> (d - 1)) &&& 1 = 1) ||
            (sticky || decide (1 < d ∧ significand &&& ((1 <<< (d - 1)) - 1) ≠ 0)), ?_, rfl, ?_⟩
        · rw [hd, rne_drop hk hd0, if_neg hbig]
        · rw [hd]
          exact inexact_drop hk hd0
  have hn' : n ≤ 2^f.precision := by
    rw [hn]
    refine rne_le (div_nonneg hx0.le hu.le) ?_
    rw [div_le_iff₀ hu]
    have := hs.lt_top.le
    simpa using this
  have hscale : f.leastScale ≤ roundScale f significand exponent := le_max_right _ _
  have hfull : roundScale f significand exponent = f.leastScale ∨ 2^(f.precision - 1) ≤ n := by
    refine hs.full.imp_right fun h => ?_
    rw [hn]
    refine le_rne ((le_div_iff₀ hu).2 ?_)
    simpa using h
  obtain ⟨r, st, hr, hfin⟩ := finish_spec f n (roundScale f significand exponent) inexact sign hn'
    hscale hfull (Or.inr (by unfold Fits roundScale at *; omega)) (by
      intro h
      have := hcarry.resolve_right (by omega)
      unfold Fits roundScale at *
      omega)
  refine ⟨r, st, hround.trans hr, hfin.toIsNumber, ?_, ?_⟩
  · refine f.grid.rounds_scaled hx0.le hs r.magnitude ?_ ?_
    · rw [hfin.infinite, Format.grid_most, Format.grid_unit, Format.grid_top, ← hn]
    · intro v hv
      rw [hfin.finite v hv, Format.grid_unit, ← hn]
  · rw [hfin.status, hin]
    cases hm : r.magnitude with
    | none => simp
    | some v =>
      have := hfin.finite v hm
      simp only [reduceCtorEq, or_false, ne_eq, Option.some.injEq, ← this]
      exact not_congr eq_comm

/-- A half that is lost leaves a zero, whatever the magnitude is above the half. -/
theorem round_loses_half (sign : Bool) (hk : Kept x significand exponent sticky) (h128 : significand < 2^128)
    (hlost : LosesHalf f exponent x) :
    ∃ st, round significand exponent sticky sign f = some (Float.zero f sign, st) := by
  obtain ⟨hp8, hp113⟩ := f.precision_bounds
  obtain ⟨hl1, hl2⟩ := f.leastScale_bounds
  obtain ⟨hscale, hhalf⟩ := hlost
  have hu : (0 : ℚ) < 2^exponent := by positivity
  have hlong : 2^127 ≤ significand := by
    have h := lt_trans hhalf hk.lt
    rw [Format.grid_unit, hscale, zpow_add₀ (by norm_num)] at h
    have h' : ((2^127 : ℕ) : ℚ) < (significand + 1 : ℕ) := by
      push_cast
      refine lt_of_mul_lt_mul_right ?_ hu.le
      calc (2 : ℚ)^127 * 2^exponent = 2^exponent * 2^(128 : ℤ) / 2 := by norm_num; ring
        _ < (significand + 1) * 2^exponent := h
    have := Nat.cast_lt.1 h'
    omega
  have hsize : significand.size = 128 := by
    have h1 := size_le_of_lt h128
    have h2 := Nat.lt_size.2 hlong
    omega
  have hpos : significand ≠ 0 := by omega
  have htop : Fits 32 (exponent + (128 : ℕ)) := by unfold Fits; omega
  have hwant : Fits 32 (exponent + (128 : ℕ) - f.precision) := by unfold Fits; omega
  have hmax : max (exponent + (128 : ℕ) - f.precision) (f.minExponent - f.precision + 1) =
      exponent + 128 := by
    have : f.minExponent - f.precision + 1 = f.leastScale := rfl
    omega
  have hgt : ¬ exponent + 128 ≤ exponent := by omega
  have hdrop : Fits 32 (exponent + 128 - exponent) := by unfold Fits; omega
  have htoNat : (exponent + 128 - exponent).toNat = 128 := by omega
  refine ⟨Status.INEXACT.with_ .UNDERFLOW, ?_⟩
  simp only [round, hpos, if_false, leadingZeros_cast h128, hsize, checked_of_fits htop,
    checked_of_fits hwant, bind, pure, Option.bind, hmax, hgt, checked_of_fits hdrop, htoNat,
    le_refl, if_true, finish, Nat.zero_shiftRight, ne_eq, not_true_eq_false, Bool.false_and,
    Bool.false_eq_true, Bool.or_true]

end Rucc.Base
