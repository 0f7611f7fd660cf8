import Rucc.Base.FloatEncoding
import Rucc.Base.FloatText

/-!
# The numbers that can be produced

The rest of what makes a number in `float.rs` and `float/arith.rs`: the nans with a payload, the
conversions and the operations that cannot round. `Produced` collects every way there is to come by a
number of a binary format, and `Produced.encodable` says by induction that each of them is encodable. So
each one is read back from its encoding, and each finite one from its hexadecimal spelling.

An encoding of the extended format that none of these writes (a leading bit that is clear where it
should be set) is the one thing that is read as a number and is not among them.

What comes from a decimal format comes through `parse` of its text, or is a nan, a zero or an infinity.

A canonical number of a format is its sign and its magnitude, so two answers to one question that are both
the nearest are the same number (`IsNumber.ext`).
-/

namespace Rucc.Base

open Checked

variable {fuel : ℕ} {sign : Bool} {f : Format} {r : Float} {st : Status} {text : List Char}

/-- Which integer a value is taken to. -/
inductive Integral where
  | towardZero
  | upward
  | downward
  | nearestTiesAway
  deriving DecidableEq, Repr

namespace Float

/-- A nan with a payload, which is cut to the bits there are below the quiet bit. A signalling nan with
nothing in it would be an infinity, so it gets the highest bit that is left. -/
def nanWith (format : Format) (sign quiet : Bool) (payload : ℕ) : Float :=
  let significand := payload &&& (quietBit format - 1)
  let significand :=
    if quiet then significand ||| quietBit format
    else if significand = 0 then quietBit format >>> 1
    else significand
  ⟨format, .nan, sign, 0, significand ||| leadingBit format⟩

/-- The smallest normal number of the given sign. -/
def smallestNormal (format : Format) (sign : Bool) : Float :=
  ⟨format, .finite, sign, format.minExponent, 1 <<< (format.precision - 1)⟩

/-- Whether the number is a zero. -/
def isZero (x : Float) : Bool := x.category = .zero

/-- Whether the number is finite, which a zero is and a nan is not. -/
def isFinite (x : Float) : Bool := x.category = .zero ∨ x.category = .finite

/-- The number without its sign. -/
def abs (x : Float) : Float := { x with sign := false }

/-- The number with the sign given. -/
def withSign (x : Float) (sign : Bool) : Float := { x with sign }

/-- How the two compare, or nothing if either is a nan. There is no answer for two formats at once. -/
def compare (x other : Float) : Option (Option Ordering) :=
  if x.format ≠ other.format then none
  else if x.isNan || other.isNan then some none
  else if x.isZero && other.isZero then some (some .eq)
  else if x.sign ≠ other.sign then some (some (if x.sign then .lt else .gt))
  else
    let magnitudes := x.compareMagnitude other
    some (some (if x.sign then magnitudes.swap else magnitudes))

/-- Whichever of the two is on the side asked for. A nan beside a number gives the number, and two zeros
are decided by their signs. -/
def pick (x other : Float) (want : Ordering) : Option Float :=
  if x.format ≠ other.format then none
  else if x.isNan then some (if other.isNan then nan x.format else other)
  else if other.isNan then some x
  else if x.isZero && other.isZero then
    some (if x.sign = decide (want = .lt) then x else other)
  else (x.compare other).map fun order => if order = some want then x else other

/-- The larger of the two. -/
def larger (x other : Float) : Option Float := x.pick other .gt

/-- The smaller of the two. -/
def smaller (x other : Float) : Option Float := x.pick other .lt

/-- The integer nearest this number in the direction given, as a number of the same format. -/
def toIntegral (x : Float) (toward : Integral) : Option Float :=
  if x.category ≠ .finite then some x
  else
    let (significand, exponent) := x.parts
    if 0 ≤ exponent then some x
    else
      let dropped := exponent.natAbs
      let rest := significand &&& ((1 <<< dropped) - 1)
      -- From a hundred and twenty-eight places below the point the number is a fraction below a half.
      let (kept, fraction, half) :=
        if 128 ≤ dropped then (0, true, false)
        else (significand >>> dropped, decide (rest ≠ 0), decide (1 <<< (dropped - 1) ≤ rest))
      if !fraction then some x
      else
        let away := match toward with
          | .towardZero => false
          | .upward => !x.sign
          | .downward => x.sign
          | .nearestTiesAway => half
        let magnitude := kept + away.toNat
        if magnitude = 0 then some (zero x.format x.sign)
        else (fromUnsigned magnitude x.format).map fun answer => answer.1.withSign x.sign

/-- The nearest number to this one in another format. -/
def toFormat (x : Float) (format : Format) : Option (Float × Status) :=
  match x.category with
  | .nan => some ((nan format).withSign x.sign, .NONE)
  | .infinite => some (infinity format x.sign, .NONE)
  | .zero => some (zero format x.sign, .NONE)
  | .finite =>
    let (significand, exponent) := x.parts
    round significand exponent false x.sign format

/-- The nearest number in a format to a signed integer. -/
def fromSigned (value : ℤ) (format : Format) : Option (Float × Status) :=
  if value = 0 then some (zero format false, .NONE)
  else round value.natAbs 0 false (decide (value < 0)) format

/-! ## Each of them is encodable -/

section Operands

variable {x y : Float}

variable {st : Status} {f : Format} {r : Float}

/-- An answer that is there to be given is the one given. -/
theorem Encodable.answer (hx : x.Encodable) {st' : Status}
    (h : some (x, st) = some (y, st')) : y.Encodable := (Prod.mk.inj (Option.some.inj h)).1 ▸ hx

/-- The sign is a field of its own, so what holds of the rest holds with any sign. -/
theorem Encodable.withSign (hx : x.Encodable) (sign : Bool) : (x.withSign sign).Encodable :=
  ⟨hx.canonical, hx.nan⟩

theorem Encodable.negated (hx : x.Encodable) : x.negated.Encodable := hx.withSign _

theorem Encodable.abs (hx : x.Encodable) : x.abs.Encodable := hx.withSign _

/-- The significand of a finite number leaves room above it in a word. -/
theorem Encodable.significand_lt (hx : x.Encodable) (hfin : x.category = .finite) : x.significand < 2^113 := by
  have hfinite := hx.canonical.isFinite hfin
  exact hfinite.lt.trans_le (Nat.pow_le_pow_right (by norm_num) x.format.precision_bounds.2)

/-- A nan with a payload has something in its fraction, and no more bits than are stored. -/
theorem encodable_nanWith (f : Format) (sign quiet : Bool) (payload : ℕ) :
    (nanWith f sign quiet payload).Encodable := by
  refine ⟨trivial, fun _ => ?_⟩
  obtain ⟨hp8, -⟩ := f.precision_bounds
  have hquiet : quietBit f = 2^(f.precision - 2) := by rw [quietBit, Nat.shiftLeft_eq, one_mul]
  have hhalf : 2^(f.precision - 1) = 2 * 2^(f.precision - 2) := by
    rw [← pow_succ']
    congr 1
    omega
  have hquarter : 2^(f.precision - 2) = 2 * 2^(f.precision - 3) := by
    rw [← pow_succ']
    congr 1
    omega
  have hpos := Nat.two_pow_pos (f.precision - 3)
  have hmask : payload &&& (quietBit f - 1) = payload % 2^(f.precision - 2) := by
    rw [hquiet, Nat.and_two_pow_sub_one_eq_mod]
  have hlow : payload % 2^(f.precision - 2) < 2^(f.precision - 2) := Nat.mod_lt _ (by omega)
  -- The fraction, which the stored leading bit is put in front of.
  obtain ⟨fraction, hfraction, hne, hlt⟩ : ∃ fraction : ℕ,
      (nanWith f sign quiet payload).significand = fraction ||| leadingBit f ∧ fraction ≠ 0 ∧
        fraction < 2^(f.precision - 1) := by
    unfold nanWith
    dsimp only
    rw [hmask]
    split_ifs with hq h0
    · refine ⟨_, rfl, ?_, ?_⟩
      all_goals
        rw [quietBit, or_leading hlow]
        omega
    · refine ⟨_, rfl, ?_, ?_⟩
      all_goals
        rw [hquiet, Nat.shiftRight_eq_div_pow, hquarter]
        omega
    · exact ⟨_, rfl, h0, by omega⟩
  refine ⟨rfl, ?_⟩
  rw [hfraction]
  show _ < 2^f.significandBits ∧ _ % 2^(f.precision - 1) ≠ 0
  unfold leadingBit Format.significandBits
  split_ifs
  · rw [or_leading hlt, Nat.add_mod_left, Nat.mod_eq_of_lt hlt]
    refine ⟨?_, hne⟩
    have hfull : 2^f.precision = 2 * 2^(f.precision - 1) := by
      rw [← pow_succ']
      congr 1
      omega
    omega
  · rw [Nat.or_zero, Nat.mod_eq_of_lt hlt]
    exact ⟨hlt, hne⟩

/-- The nan an operation gives is the quiet one with no payload. -/
theorem nan_eq_nanWith (f : Format) : nan f = nanWith f false true 0 := by
  simp [nan, nanWith]

theorem encodable_nan (f : Format) : (nan f).Encodable := by
  rw [nan_eq_nanWith]
  exact encodable_nanWith f false true 0

theorem encodable_smallestNormal (f : Format) (sign : Bool) : (smallestNormal f sign).Encodable := by
  refine encodable_finite ?_
  cases f <;> cases sign <;> decide

theorem encodable_fromUnsigned {value : ℕ}
    (hv : value < 2^128) (h : fromUnsigned value f = some (r, st)) : r.Encodable := by
  unfold fromUnsigned at h
  split_ifs at h
  · exact (encodable_zero f false).answer h
  · exact round_encodable hv h

theorem encodable_fromSigned {value : ℤ}
    (hv : Fits 128 value) (h : fromSigned value f = some (r, st)) : r.Encodable := by
  unfold Fits at hv
  unfold fromSigned at h
  split_ifs at h
  · exact (encodable_zero f false).answer h
  · exact round_encodable (by omega) h

theorem Encodable.toFormat (hx : x.Encodable) (h : x.toFormat f = some (r, st)) : r.Encodable := by
  unfold Float.toFormat at h
  cases hc : x.category with
  | nan =>
    rw [hc] at h
    exact ((encodable_nan f).withSign _).answer h
  | infinite =>
    rw [hc] at h
    exact (encodable_infinity f _).answer h
  | zero =>
    rw [hc] at h
    exact (encodable_zero f _).answer h
  | finite =>
    rw [hc] at h
    exact round_encodable ((hx.significand_lt hc).trans (by norm_num)) h

/-- An operand, or the quiet nan, is what `larger` and `smaller` give. -/
theorem Encodable.pick (hx : x.Encodable) (hy : y.Encodable) {want : Ordering}
    (h : x.pick y want = some r) : r.Encodable := by
  have hnan := encodable_nan x.format
  unfold Float.pick at h
  split_ifs at h <;> try obtain rfl := Option.some.inj h
  all_goals first
    | assumption
    | skip
  obtain ⟨order, -, rfl⟩ := Option.map_eq_some_iff.mp h
  split_ifs <;> assumption

/-- What is kept of a number with a fraction, and one more, is a word. -/
theorem Encodable.toIntegral (hx : x.Encodable) {toward : Integral}
    (h : x.toIntegral toward = some r) : r.Encodable := by
  unfold Float.toIntegral at h
  by_cases hfin : x.category = .finite
  · have hlt := hx.significand_lt hfin
    rw [if_neg (not_not.2 hfin)] at h
    dsimp only [Float.parts] at h
    generalize x.exponent - x.format.precision + 1 = exponent at h
    generalize hkept : (if 128 ≤ exponent.natAbs then ((0 : ℕ), true, false)
      else (x.significand >>> exponent.natAbs,
        decide (x.significand &&& ((1 <<< exponent.natAbs) - 1) ≠ 0),
        decide (1 <<< (exponent.natAbs - 1) ≤ x.significand &&& ((1 <<< exponent.natAbs) - 1)))) =
      kept at h
    have hle : kept.1 ≤ x.significand := by
      rw [← hkept]
      split_ifs
      · exact Nat.zero_le _
      · exact Nat.shiftRight_le _ _
    split_ifs at h with hexp hfraction
    · exact Option.some.inj h ▸ hx
    · exact Option.some.inj h ▸ hx
    · exact Option.some.inj h ▸ encodable_zero _ _
    · obtain ⟨⟨number, st⟩, hnumber, rfl⟩ := Option.map_eq_some_iff.mp h
      refine (encodable_fromUnsigned ?_ hnumber).withSign _
      refine lt_of_le_of_lt (Nat.add_le_add hle (Bool.toNat_le _)) ?_
      omega
  · rw [if_pos hfin] at h
    exact Option.some.inj h ▸ hx

/-- The smaller of two significands lined up is no longer than the guard bits make it. -/
theorem lineUp_le (right distance : ℕ) : (lineUp right distance).1 ≤ right <<< GUARD := by
  have hle : right ≤ right <<< GUARD := by
    rw [Nat.shiftLeft_eq]
    exact Nat.le_mul_of_pos_right _ (Nat.two_pow_pos _)
  unfold lineUp
  split_ifs
  · rw [Nat.shiftLeft_eq, Nat.shiftLeft_eq]
    exact Nat.mul_le_mul_left _ (Nat.pow_le_pow_right (by norm_num) (Nat.sub_le _ _))
  · exact Nat.zero_le _
  · exact (Nat.shiftRight_le _ _).trans hle

/-- The sum of two finite numbers fits a word with its guard bits. -/
theorem encodable_totalOrdered (hx : x.significand < 2^113)
    (hy : y.significand < 2^113) (h : totalOrdered x y f = some (r, st)) : r.Encodable := by
  have hleft : x.significand <<< GUARD < 2^116 := by
    rw [Nat.shiftLeft_eq, GUARD]
    omega
  have hright : ∀ d, (lineUp y.significand d).1 < 2^116 := by
    intro d
    refine lt_of_le_of_lt (lineUp_le _ d) ?_
    rw [Nat.shiftLeft_eq, GUARD]
    omega
  unfold totalOrdered at h
  dsimp only [parts] at h
  generalize x.exponent - x.format.precision + 1 = e at h
  generalize y.exponent - y.format.precision + 1 = e' at h
  have hlined := hright (e - e').toNat
  generalize lineUp y.significand (e - e').toNat = lined at h hlined
  split_ifs at h
  · exact round_encodable (by omega) h
  · exact (encodable_zero f false).answer h
  · obtain ⟨less, hless, h⟩ := Option.bind_eq_some_iff.mp h
    rw [checkedSub_eq_some] at hless
    exact round_encodable (by omega) h

/-- The sum of two finite numbers, whichever is the larger. -/
theorem encodable_totalFinite (hx : x.Encodable) (hy : y.Encodable) (hcx : x.category = .finite)
    (hcy : y.category = .finite) (h : totalFinite x y = some (r, st)) :
    r.Encodable := by
  unfold totalFinite at h
  by_cases hlt : x.compareMagnitude y = .lt
  · rw [if_pos hlt] at h
    exact encodable_totalOrdered (hy.significand_lt hcy) (hx.significand_lt hcx) h
  · rw [if_neg hlt] at h
    exact encodable_totalOrdered (hx.significand_lt hcx) (hy.significand_lt hcy) h

theorem encodable_of_propagatedNan (h : x.propagatedNan y = some (r, st)) : r.Encodable := by
  unfold propagatedNan at h
  split_ifs at h
  exact (encodable_nan _).answer h

/-- An operation that goes on past the nans has none among its operands. -/
theorem not_nan_of_propagatedNan (h : x.propagatedNan y = none) : x.category ≠ .nan ∧ y.category ≠ .nan := by
  unfold propagatedNan at h
  split_ifs at h with hn
  simpa [isNan] using hn

/-- The quotient of the long division is a word, whatever is divided. -/
theorem longDivide_lt (numerator divisor extra : ℕ) : (longDivide numerator divisor extra).1 < 2^128 := by
  have hstep : ∀ (steps : List ℕ) (state : ℕ × ℕ), state.2 < 2^128 →
      (steps.foldl (longDivideStep numerator divisor) state).2 < 2^128 := by
    intro steps
    induction steps with
    | nil => exact fun _ h => h
    | cons step steps ih =>
      intro state h
      refine ih _ ?_
      have hword : (state.2 <<< 1) % 2^128 < 2^128 := Nat.mod_lt _ (by norm_num)
      unfold longDivideStep
      dsimp only
      split_ifs
      all_goals first
        | exact hword
        | exact Nat.or_lt_two_pow hword (by norm_num)
  exact hstep _ _ (by norm_num)

theorem encodable_total (hx : x.Encodable) (hy : y.Encodable) {subtract : Bool}
    (h : x.total y subtract = some (r, st)) : r.Encodable := by
  obtain ⟨-, -, h⟩ := Option.bind_eq_some_iff.mp h
  have hother : (if subtract then y.negated else y).Encodable := by
    split_ifs
    · exact hy.negated
    · exact hy
  generalize (if subtract then y.negated else y) = other at h hother
  dsimp only at h
  cases hnan : x.propagatedNan other with
  | some found =>
    rw [hnan] at h
    exact encodable_of_propagatedNan (hnan.trans h)
  | none =>
    rw [hnan] at h
    dsimp only at h
    obtain ⟨hnx, hny⟩ := not_nan_of_propagatedNan hnan
    cases hcx : x.category <;> cases hcy : other.category <;> rw [hcx, hcy] at h
    all_goals first
      | exact absurd hcx hnx
      | exact absurd hcy hny
      | exact hx.answer h
      | exact hother.answer h
      | exact (encodable_zero _ _).answer h
      | exact encodable_totalFinite hx hother hcx hcy h
      | skip
    -- Two infinities have a sum only where their signs agree.
    dsimp only at h
    split_ifs at h
    · exact hx.answer h
    · exact (encodable_nan _).answer h

theorem encodable_product (hx : x.Encodable) (hy : y.Encodable) (h : x.product y = some (r, st)) : r.Encodable := by
  obtain ⟨-, -, h⟩ := Option.bind_eq_some_iff.mp h
  dsimp only at h
  cases hnan : x.propagatedNan y with
  | some found =>
    rw [hnan] at h
    exact encodable_of_propagatedNan (hnan.trans h)
  | none =>
    rw [hnan] at h
    dsimp only at h
    obtain ⟨hnx, hny⟩ := not_nan_of_propagatedNan hnan
    cases hcx : x.category <;> cases hcy : y.category <;> rw [hcx, hcy] at h
    all_goals first
      | exact absurd hcx hnx
      | exact absurd hcy hny
      | exact (encodable_nan _).answer h
      | exact (encodable_infinity _ _).answer h
      | exact (encodable_zero _ _).answer h
      | skip
    -- What is kept of the product of two significands is a word either way.
    have hlx : x.parts.1 < 2^128 := (hx.significand_lt hcx).trans (by norm_num)
    have hly : y.parts.1 < 2^128 := (hy.significand_lt hcy).trans (by norm_num)
    obtain ⟨-, hlow⟩ := wideMultiply_spec hlx hly
    dsimp only at h
    by_cases hhigh : (wideMultiply x.parts.1 y.parts.1).1 = 0
    · rw [if_pos hhigh] at h
      exact round_encodable hlow h
    · rw [if_neg hhigh] at h
      refine round_encodable (Nat.or_lt_two_pow (Nat.mod_lt _ (by norm_num)) ?_) h
      exact lt_of_le_of_lt (Nat.shiftRight_le _ _) hlow

theorem encodable_quotient (h : x.quotient y = some (r, st)) : r.Encodable := by
  obtain ⟨-, -, h⟩ := Option.bind_eq_some_iff.mp h
  dsimp only at h
  cases hnan : x.propagatedNan y with
  | some found =>
    rw [hnan] at h
    exact encodable_of_propagatedNan (hnan.trans h)
  | none =>
    rw [hnan] at h
    dsimp only at h
    obtain ⟨hnx, hny⟩ := not_nan_of_propagatedNan hnan
    cases hcx : x.category <;> cases hcy : y.category <;> rw [hcx, hcy] at h
    all_goals first
      | exact absurd hcx hnx
      | exact absurd hcy hny
      | exact (encodable_nan _).answer h
      | exact (encodable_infinity _ _).answer h
      | exact (encodable_zero _ _).answer h
      | skip
    exact round_encodable (longDivide_lt _ _ _) h

theorem encodable_operation (op : Operation) (hx : x.Encodable) (hy : y.Encodable)
    (h : op.apply x y = some (r, st)) : r.Encodable := by
  cases op with
  | sum => exact encodable_total hx hy h
  | difference => exact encodable_total hx hy h
  | product => exact encodable_product hx hy h
  | quotient => exact encodable_quotient h

/-- A number read from an encoding that the format's own conversions write. -/
theorem encodable_fromBits (f : Format) {bits : ℕ} (h : CanonicalBits f bits) : (fromBits f bits).Encodable := by
  refine ⟨fromBits_canonical f h, ?_⟩
  rw [fromBits_eq_fromFields]
  have hlt := significandField_lt f bits
  generalize significandField f bits = s at hlt
  by_cases hones : exponentField f bits = allOnesField f
  · rw [Base.fromFields, if_pos hones]
    split_ifs with hfraction
    · simp [infinity]
    · exact fun _ => ⟨rfl, hlt, hfraction⟩
  · have hnumber : (Base.fromFields f (signField f bits) (exponentField f bits) s).category ≠ .nan := by
      rw [Base.fromFields, if_neg hones]
      dsimp only
      generalize (s ||| if (f.hasExplicitIntegerBit || decide (exponentField f bits = 0)) = true then 0
        else 1 <<< (f.precision - 1)) = significand
      by_cases h0 : significand = 0
      · rw [if_pos h0]
        simp [zero]
      · rw [if_neg h0]
        simp
    exact fun hnan => absurd hnan hnumber

end Operands

end Float

/-- The conversion of an exact decimal gives an encodable number: between one and two, it is scaled into
the precision, and what is read out of it is at most its value. -/
theorem convert_encodable {d : Decimal}
    (hd : d.Trimmed) (h : convert fuel d sign f = some (r, st)) : r.Encodable := by
  unfold convert at h
  split_ifs at h
  · exact (Float.encodable_zero f sign).answer h
  · exact (Float.encodable_infinity f sign).answer h
  · exact (Float.encodable_zero f sign).answer h
  obtain ⟨⟨scaled, exponent⟩, hscaled, h⟩ := Option.bind_eq_some_iff.mp h
  obtain ⟨hs, htwo⟩ := scaleDown_spec hd hscaled
  obtain ⟨less, hless, h⟩ := Option.bind_eq_some_iff.mp h
  obtain ⟨want, hwant, h⟩ := Option.bind_eq_some_iff.mp h
  rw [checked_eq_some] at hless hwant
  generalize hscale : max want (f.minExponent - f.precision + 1) = scale at h
  obtain ⟨k, hk, h⟩ := Option.bind_eq_some_iff.mp h
  obtain ⟨shifted, hshift, h⟩ := Option.bind_eq_some_iff.mp h
  rw [checked_eq_some] at hk
  have hleast : f.leastScale ≤ scale := by
    have : f.leastScale = f.minExponent - f.precision + 1 := rfl
    omega
  obtain ⟨ht, hvalue⟩ := Decimal.shift_spec hs hshift
  -- Below two and shifted by less than the precision, the value is below the precision's end.
  have hbelow : (shifted.roundToU128.1 : ℚ) < 2^f.precision := by
    have hp8 := f.precision_bounds.1
    have hup : (2 : ℚ)^k ≤ 2^((f.precision : ℤ) - 1) := zpow_le_zpow_right₀ (by norm_num) (by omega)
    calc (shifted.roundToU128.1 : ℚ) ≤ shifted.value := Decimal.roundToU128_le ht
      _ ≤ scaled.value * 2^k := hvalue
      _ ≤ scaled.value * 2^((f.precision : ℤ) - 1) :=
          mul_le_mul_of_nonneg_left hup (Decimal.value_nonneg _)
      _ < 2 * 2^((f.precision : ℤ) - 1) := mul_lt_mul_of_pos_right htwo (by positivity)
      _ = 2^f.precision := by
          rw [zpow_sub_one₀ (by norm_num), zpow_natCast]
          ring
  have hlt : shifted.roundToU128.1 < 2^f.precision := by exact_mod_cast hbelow
  exact finish_encodable ((nearest_le _ _).trans hlt) hleast h

theorem hexadecimal_encodable (h : hexadecimal text sign f = some (.ok (r, st))) : r.Encodable := by
  unfold hexadecimal at h
  cases hscan : hexadecimalScan text ⟨0, 0, false, false, false⟩ with
  | none =>
    rw [hscan] at h
    cases h
  | some result =>
    rw [hscan] at h
    cases result with
    | error e => cases h
    | ok found =>
      obtain ⟨s, rest⟩ := found
      dsimp only at h
      have hword := hexadecimalScan_lt (by norm_num) hscan
      split_ifs at h
      · cases h
      · cases hscaled : scaledBy s.exponent rest with
        | error e =>
          rw [hscaled] at h
          cases h
        | ok exponent =>
          rw [hscaled] at h
          obtain ⟨answer, hround, heq⟩ := Option.map_eq_some_iff.mp h
          obtain rfl := Except.ok.inj heq
          exact round_encodable hword hround

theorem decimal_encodable (h : decimal fuel text sign f = some (.ok (r, st))) : r.Encodable := by
  unfold decimal at h
  cases hscan : decimalScan text ⟨[], 0, false, false⟩ with
  | none =>
    rw [hscan] at h
    cases h
  | some result =>
    rw [hscan] at h
    cases result with
    | error e => cases h
    | ok found =>
      obtain ⟨s, rest⟩ := found
      dsimp only at h
      have hdigits := decimalScan_decimal (by simp [Digits.Decimal]) hscan
      split_ifs at h
      · cases h
      · cases hscaled : scaledBy s.integerDigits rest with
        | error e =>
          rw [hscaled] at h
          cases h
        | ok point =>
          rw [hscaled] at h
          obtain ⟨d, hnew, h⟩ := Option.bind_eq_some_iff.mp h
          obtain ⟨answer, hconvert, heq⟩ := Option.bind_eq_some_iff.mp h
          obtain rfl := Except.ok.inj (Option.some.inj heq)
          exact convert_encodable (Decimal.trim_spec hdigits hnew).1 hconvert

/-- What a text is read as is encodable. -/
theorem parse_encodable (h : parse fuel text f = some (.ok (r, st))) : r.Encodable := by
  unfold parse at h
  dsimp only at h
  split at h
  · split_ifs at h
    · exact hexadecimal_encodable h
    · exact decimal_encodable h
  · exact decimal_encodable h

/-! ## Every number there is -/

/-- The numbers of the binary formats that can be come by: those that are spelled, converted or made
from nothing, those read from an encoding that the conversions write, and what the operations give on
numbers come by already. -/
inductive Produced : Float → Prop
  | zero (f : Format) (sign : Bool) : Produced (Float.zero f sign)
  | infinity (f : Format) (sign : Bool) : Produced (Float.infinity f sign)
  | nanWith (f : Format) (sign quiet : Bool) (payload : ℕ) :
      Produced (Float.nanWith f sign quiet payload)
  | smallestNormal (f : Format) (sign : Bool) : Produced (Float.smallestNormal f sign)
  | parse {fuel : ℕ} {text : List Char} {f : Format} {r : Float} {st : Status}
      (h : Base.parse fuel text f = some (.ok (r, st))) : Produced r
  | fromUnsigned {value : ℕ} {f : Format} {r : Float} {st : Status} (hv : value < 2^128)
      (h : Float.fromUnsigned value f = some (r, st)) : Produced r
  | fromSigned {value : ℤ} {f : Format} {r : Float} {st : Status} (hv : Fits 128 value)
      (h : Float.fromSigned value f = some (r, st)) : Produced r
  | fromBits {f : Format} {bits : ℕ} (h : CanonicalBits f bits) : Produced (Float.fromBits f bits)
  | operation {op : Operation} {x y r : Float} {st : Status} (hx : Produced x) (hy : Produced y)
      (h : op.apply x y = some (r, st)) : Produced r
  | negated {x : Float} (hx : Produced x) : Produced x.negated
  | abs {x : Float} (hx : Produced x) : Produced x.abs
  | withSign {x : Float} (hx : Produced x) (sign : Bool) : Produced (x.withSign sign)
  | larger {x y r : Float} (hx : Produced x) (hy : Produced y) (h : x.larger y = some r) : Produced r
  | smaller {x y r : Float} (hx : Produced x) (hy : Produced y) (h : x.smaller y = some r) : Produced r
  | toIntegral {x r : Float} {toward : Integral} (hx : Produced x)
      (h : x.toIntegral toward = some r) : Produced r
  | toFormat {x r : Float} {f : Format} {st : Status} (hx : Produced x)
      (h : x.toFormat f = some (r, st)) : Produced r

/-- Every number that can be come by is encodable. -/
theorem Produced.encodable {x : Float} (hx : Produced x) : x.Encodable := by
  induction hx with
  | zero f sign => exact Float.encodable_zero f sign
  | infinity f sign => exact Float.encodable_infinity f sign
  | nanWith f sign quiet payload => exact Float.encodable_nanWith f sign quiet payload
  | smallestNormal f sign => exact Float.encodable_smallestNormal f sign
  | parse h => exact parse_encodable h
  | fromUnsigned hv h => exact Float.encodable_fromUnsigned hv h
  | fromSigned hv h => exact Float.encodable_fromSigned hv h
  | fromBits h => exact Float.encodable_fromBits _ h
  | operation hx hy h ihx ihy => exact Float.encodable_operation _ ihx ihy h
  | negated hx ihx => exact ihx.negated
  | abs hx ihx => exact ihx.abs
  | withSign hx sign ihx => exact ihx.withSign sign
  | larger hx hy h ihx ihy => exact ihx.pick ihy h
  | smaller hx hy h ihx ihy => exact ihx.pick ihy h
  | toIntegral hx h ihx => exact ihx.toIntegral h
  | toFormat hx h ihx => exact ihx.toFormat h

/-- A number that can be come by is read back from its encoding, and a finite one from its hexadecimal
spelling with nothing rounded. Where the leading bit is implied, an encoding is the one of the number it
is read as. -/
theorem encoding_roundTrips :
    (∀ x, Produced x → Float.fromBits x.format x.toBits = x) ∧
      (∀ x, Produced x → x.isFinite = true → ∀ fuel,
        parse fuel x.toHex x.format = some (.ok (x, .NONE))) ∧
      (∀ f bits, f.hasExplicitIntegerBit = false → bits < 2^f.width →
        (Float.fromBits f bits).toBits = bits) := by
  refine ⟨fun x hx => hx.encodable.fromBits_toBits, fun x hx hfin fuel => ?_, fun f bits hf h =>
    toBits_fromBits_of_implied hf h⟩
  exact parse_toHex_of_canonical hx.encodable.canonical (by simpa [Float.isFinite] using hfin) fuel

/-- A number that was read from a text makes both trips, and so does the encoding of one. -/
theorem encoding_roundTrips_half :
    Float.fromBits .half (Float.toBits ⟨.half, .finite, true, -2, 1536⟩) =
        ⟨.half, .finite, true, -2, 1536⟩ ∧
      parse 0 (Float.toHex ⟨.half, .finite, true, -2, 1536⟩) .half =
        some (.ok (⟨.half, .finite, true, -2, 1536⟩, .NONE)) ∧
      (Float.fromBits .half 0x3c00).toBits = 0x3c00 := by
  have hread : parse 0 ['-', '0', 'x', '1', '.', '8', 'p', '-', '2'] .half =
      some (.ok (⟨.half, .finite, true, -2, 1536⟩, .NONE)) := by decide +kernel
  have hproduced := Produced.parse hread
  exact ⟨encoding_roundTrips.1 _ hproduced, encoding_roundTrips.2.1 _ hproduced rfl 0,
    encoding_roundTrips.2.2 .half 0x3c00 rfl (by decide)⟩

/-! ## One number of a sign and a magnitude -/

section Unique

variable {x y : Float}

/-- The smaller scale has the smaller magnitude. -/
theorem Float.IsFinite.scale_le (hx : Float.IsFinite f x) (hy : Float.IsFinite f y)
    (h : (y.significand : ℚ) * 2^y.scale ≤ x.significand * 2^x.scale) : y.scale ≤ x.scale := by
  by_contra hlt
  have hp := f.precision_bounds.1
  have hlow := hx.least_le
  have hfull := hy.full.resolve_left (by omega)
  have hpow : (2 : ℚ)^f.precision * 2^x.scale ≤ 2^(f.precision - 1) * 2^y.scale := by
    rw [← zpow_natCast, ← zpow_natCast, ← zpow_add₀ (by norm_num), ← zpow_add₀ (by norm_num)]
    exact zpow_le_zpow_right₀ (by norm_num) (by omega)
  have hsmall : (x.significand : ℚ) * 2^x.scale < 2^f.precision * 2^x.scale :=
    mul_lt_mul_of_pos_right (by exact_mod_cast hx.lt) (by positivity)
  have hlarge : (2 : ℚ)^(f.precision - 1) * 2^y.scale ≤ y.significand * 2^y.scale :=
    mul_le_mul_of_nonneg_right (by exact_mod_cast hfull) (by positivity)
  linarith

/-- A canonical number that is no nan is a zero, an infinity or a finite number. -/
theorem IsNumber.forms {s : Bool} (hx : IsNumber f s x) :
    x = Float.zero f s ∨ x = Float.infinity f s ∨ x.sign = s ∧ Float.IsFinite f x := by
  obtain ⟨hf, hs, hc, hn⟩ := hx
  cases hcat : x.category with
  | finite => exact Or.inr (Or.inr ⟨hs, hf ▸ hc.isFinite hcat⟩)
  | nan => exact absurd hcat hn
  | zero =>
    obtain ⟨⟩ := x
    subst hf hs hcat
    obtain ⟨rfl, rfl⟩ := hc
    exact Or.inl rfl
  | infinite =>
    obtain ⟨⟩ := x
    subst hf hs hcat
    obtain ⟨rfl, rfl⟩ := hc
    exact Or.inr (Or.inl rfl)

theorem IsNumber.significand_lt {s : Bool} (hx : IsNumber f s x) : x.significand < 2^f.precision := by
  rcases hx.forms with rfl | rfl | ⟨-, hfin⟩
  · exact Nat.two_pow_pos _
  · exact Nat.two_pow_pos _
  · exact hfin.lt

/-- There is one number of a sign and a magnitude. -/
theorem IsNumber.ext {s : Bool} (hx : IsNumber f s x) (hy : IsNumber f s y) (h : x.magnitude = y.magnitude) :
    x = y := by
  have hfinite : ∀ {x}, Float.IsFinite f x → x.magnitude ≠ some 0 ∧ x.magnitude ≠ none := fun hx => by
    simp [hx.magnitude_eq, hx.magnitude_pos.ne']
  rcases hx.forms with rfl | rfl | ⟨hsx, hfx⟩ <;> rcases hy.forms with rfl | rfl | ⟨hsy, hfy⟩
  · rfl
  · cases h
  · exact absurd h.symm (hfinite hfy).1
  · cases h
  · rfl
  · exact absurd h.symm (hfinite hfy).2
  · exact absurd h (hfinite hfx).1
  · exact absurd h (hfinite hfx).2
  rw [hfx.magnitude_eq, hfy.magnitude_eq, Option.some.injEq] at h
  have hscale : x.scale = y.scale := le_antisymm (hfy.scale_le hfx h.le) (hfx.scale_le hfy h.ge)
  have hu : (2 : ℚ)^y.scale ≠ 0 := by positivity
  rw [hscale] at h
  have hsig : x.significand = y.significand := by exact_mod_cast mul_right_cancel₀ hu h
  rw [Float.scale, Float.scale, hfx.format, hfy.format] at hscale
  have hexp : x.exponent = y.exponent := by omega
  have hcx := hfx.category.trans hfy.category.symm
  have hff := hfx.format.trans hfy.format.symm
  have hss := hsx.trans hsy.symm
  cases x
  cases y
  simp_all only

/-- The conversion of an integer is rounded correctly. -/
theorem fromSigned_spec (f : Format) {z : ℤ} (hz : z.natAbs < 2^128) :
    ∃ r st, Float.fromSigned z f = some (r, st) ∧ CorrectlyRounded f z false r st := by
  unfold Float.fromSigned
  by_cases h0 : z = 0
  · rw [if_pos h0, h0, Int.cast_zero]
    exact ⟨_, _, rfl, correctlyRounded_zero f false⟩
  rw [if_neg h0]
  obtain ⟨hp8, hp113⟩ := f.precision_bounds
  obtain ⟨hl1, hl2⟩ := f.leastScale_bounds
  have hsize := size_le_of_lt hz
  have hk := Kept.exact z.natAbs 0
  rw [zpow_zero, mul_one] at hk
  obtain ⟨r, st, hr, hround⟩ := round_spec (f := f) (decide (z < 0)) hk hz (by simp) (by decide)
    (by unfold Fits; omega) (by unfold Fits; omega) (Or.inl (by unfold Fits; omega)) (by rintro ⟨h, -⟩; omega)
  have hpos : (z.natAbs : ℚ) ≠ 0 := by exact_mod_cast Int.natAbs_ne_zero.2 h0
  have hvalue : Float.signed (decide (z < 0)) (z.natAbs : ℚ) = z := by
    rcases lt_or_ge z 0 with h | h
    · simp [Float.signed, h, Nat.cast_natAbs, abs_of_neg h]
    · simp [Float.signed, h.not_gt, Nat.cast_natAbs, abs_of_nonneg h]
  refine ⟨r, st, hr, ?_⟩
  rw [← hvalue]
  exact hround.correctly false (Nat.cast_nonneg _) fun h => absurd h hpos

/-- An unsigned integer is converted as the signed one it is. -/
theorem fromUnsigned_eq_fromSigned (n : ℕ) (f : Format) : Float.fromUnsigned n f = Float.fromSigned n f := by
  simp [Float.fromUnsigned, Float.fromSigned, not_lt.2 (Int.natCast_nonneg n)]

end Unique

end Rucc.Base
