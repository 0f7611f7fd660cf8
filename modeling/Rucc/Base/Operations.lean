import Rucc.Base.ArithSpec

/-!
# The four operations on every canonical number

`Operation` names the four operations that round, with the exact answer each one has and the sign
its zeros take. The operands range over every canonical number that is not an infinity or a nan, and
`fromUnsigned_canonical` and `fromBits_canonical` say that the constructors only give canonical ones.
-/

namespace Rucc.Base

open Rounding Checked

variable {bits : ℕ}

/-- The operations that round their answer. -/
inductive Operation where
  | sum
  | difference
  | product
  | quotient
  deriving DecidableEq, Repr

namespace Operation

/-- The operation on two numbers. -/
def apply : Operation → Float → Float → Option (Float × Status)
  | sum => Float.sum
  | difference => Float.difference
  | product => Float.product
  | quotient => Float.quotient

/-- The exact answer. -/
def exact : Operation → ℚ → ℚ → ℚ
  | sum => (· + ·)
  | difference => (· - ·)
  | product => (· * ·)
  | quotient => (· / ·)

/-- The sign of an exact answer that is zero, from the signs of the operands. A sum of zeros is
negative only when both are, and so is one that cancels; a product has the two signs multiplied. -/
def zeroSign : Operation → Bool → Bool → Bool
  | sum, s, t => s && t
  | difference, s, t => s && !t
  | product, s, t => s != t
  | quotient, s, t => s != t

end Operation

section Operands

variable {f : Format} {x y : Float} {a b : ℚ}

/-- A canonical number with a value is a zero or a finite number. -/
theorem value_cases (hx : x.Canonical) (ha : x.value = some a) :
    (x.category = .zero ∧ a = 0) ∨ (x.category = .finite ∧ Float.IsFinite x.format x ∧
      a = Float.signed x.sign (x.significand * 2^x.scale)) := by
  cases hc : x.category with
  | zero =>
    refine Or.inl ⟨rfl, ?_⟩
    simp only [Float.value, Float.magnitude, hc, Option.map_some, Float.signed_zero,
      Option.some.injEq] at ha
    exact ha.symm
  | finite =>
    have hfin := hx.isFinite hc
    refine Or.inr ⟨rfl, hfin, ?_⟩
    rw [hfin.value_eq] at ha
    exact (Option.some.inj ha).symm
  | infinite => simp [Float.value, Float.magnitude, hc] at ha
  | nan => simp [Float.value, Float.magnitude, hc] at ha

/-- A zero is the correctly rounded answer to zero, with the sign that a zero is to have. -/
theorem correctlyRounded_zero (f : Format) (sign : Bool) : CorrectlyRounded f 0 sign (Float.zero f sign) .NONE := by
  have hz : Rounded f 0 sign (Float.zero f sign) .NONE :=
    ⟨⟨rfl, rfl, by simp, by simp [Float.zero]⟩, f.grid.rounds_self f.grid.holds_zero, by
      simp⟩
  have := hz.correctly sign le_rfl fun _ => rfl
  rwa [Float.signed_zero] at this

/-- A finite number is the correctly rounded answer to its own value. -/
theorem correctlyRounded_self (hx : Float.IsFinite f x) (zeroSign : Bool) :
    CorrectlyRounded f (Float.signed x.sign (x.significand * 2^x.scale)) zeroSign x .NONE := by
  have hr : Rounded f (x.significand * 2^x.scale) x.sign x .NONE := by
    refine ⟨⟨hx.format, rfl, hx.canonical, by simp [hx.category]⟩, ?_, ?_⟩
    · rw [hx.magnitude_eq]
      exact f.grid.rounds_self hx.holds
    · rw [hx.magnitude_eq]
      simp
  have hpos := hx.magnitude_pos
  exact hr.correctly _ hpos.le fun h => absurd h hpos.ne'

/-- A sum is rounded correctly. -/
theorem sum_spec (hx : x.Canonical) (hy : y.Canonical) (hf : x.format = y.format)
    (ha : x.value = some a) (hb : y.value = some b) :
    ∃ r st, Float.sum x y = some (r, st) ∧
      CorrectlyRounded x.format (a + b) (x.sign && y.sign) r st := by
  rcases value_cases hx ha with ⟨hcx, rfl⟩ | ⟨hcx, hfx, rfl⟩ <;>
    rcases value_cases hy hb with ⟨hcy, rfl⟩ | ⟨hcy, hfy, rfl⟩
  all_goals
    have hsum : Float.sum x y = match x.category, y.category with
      | .zero, .zero => some (Float.zero x.format (x.sign && y.sign), .NONE)
      | .zero, _ => some (y, .NONE)
      | _, .zero => some (x, .NONE)
      | _, _ => Float.totalFinite x y := by
        simp [Float.sum, Float.total, Float.propagatedNan, Float.isNan, hcx, hcy, hf, guard]
    rw [hsum, hcx, hcy]
    dsimp only
  · rw [add_zero]
    exact ⟨_, _, rfl, correctlyRounded_zero _ _⟩
  · rw [zero_add, hf]
    exact ⟨_, _, rfl, correctlyRounded_self hfy _⟩
  · rw [add_zero]
    exact ⟨_, _, rfl, correctlyRounded_self hfx _⟩
  · rw [← hf] at hfy
    exact totalFinite_spec hfx hfy

/-- A number with its sign flipped is canonical when the number is. -/
theorem canonical_negated (hy : y.Canonical) : y.negated.Canonical := hy

/-- A number with its sign flipped has the opposite value. -/
theorem value_negated (hb : y.value = some b) : y.negated.value = some (-b) := by
  obtain ⟨v, hv, rfl⟩ := Option.map_eq_some_iff.1 hb
  have hm : y.negated.magnitude = some v := hv
  unfold Float.value
  rw [hm, Option.map_some]
  cases h : y.sign <;> simp [Float.negated, h]

/-- A difference is the sum of one number and the other with its sign flipped. -/
theorem difference_eq (x y : Float) : Float.difference x y = Float.sum x y.negated := rfl

/-- A product is rounded correctly exactly when it is not lost. -/
theorem product_spec (hx : x.Canonical) (hy : y.Canonical) (hf : x.format = y.format)
    (ha : x.value = some a) (hb : y.value = some b) :
    (∃ r st, Float.product x y = some (r, st) ∧
      CorrectlyRounded x.format (a * b) (x.sign != y.sign) r st) ↔ ¬ LosesProduct x y |a * b| := by
  have hzero : a * b = 0 →
      Float.product x y = some (Float.zero x.format (x.sign != y.sign), .NONE) →
      ((∃ r st, Float.product x y = some (r, st) ∧
        CorrectlyRounded x.format (a * b) (x.sign != y.sign) r st) ↔
        ¬ LosesProduct x y |a * b|) := by
    intro h0 heq
    have hpos := x.format.grid.unit_pos x.format.leastScale
    rw [h0, abs_zero]
    refine ⟨fun _ h => ?_, fun _ => ⟨_, _, heq, correctlyRounded_zero _ _⟩⟩
    have := h.2.1
    linarith
  rcases value_cases hx ha with ⟨hcx, rfl⟩ | ⟨hcx, hfx, rfl⟩ <;>
    rcases value_cases hy hb with ⟨hcy, rfl⟩ | ⟨hcy, hfy, rfl⟩
  · exact hzero (zero_mul _) (by
      simp [Float.product, Float.propagatedNan, Float.isNan, hcx, hcy, hf, guard])
  · exact hzero (zero_mul _) (by
      simp [Float.product, Float.propagatedNan, Float.isNan, hcx, hcy, hf, guard])
  · exact hzero (mul_zero _) (by
      simp [Float.product, Float.propagatedNan, Float.isNan, hcx, hcy, hf, guard])
  · rw [← hf] at hfy
    have hpos := mul_pos hfx.magnitude_pos hfy.magnitude_pos
    have habs : |Float.signed x.sign (x.significand * 2^x.scale) *
        Float.signed y.sign (y.significand * 2^y.scale)| =
        x.significand * 2^x.scale * (y.significand * 2^y.scale) := by
      rw [Float.signed_mul]
      cases x.sign != y.sign <;> simp [abs_of_pos hpos]
    rw [habs]
    constructor
    · rintro ⟨r, st, hr, hround⟩ hlost
      obtain ⟨st', hr'⟩ := product_finite_loses hfx hfy hlost
      rw [hr', Option.some.injEq, Prod.mk.injEq] at hr
      obtain ⟨rfl, rfl⟩ := hr
      have := hround.rounds
      rw [habs] at this
      exact x.format.grid.not_rounds_zero hlost.2.1 this
    · intro hkept
      obtain ⟨r, st, hr, hround⟩ := product_finite_spec hfx hfy hkept
      refine ⟨r, st, hr, ?_⟩
      rw [Float.signed_mul]
      exact hround.correctly _ hpos.le fun h => absurd h hpos.ne'

/-- A quotient by a number that is not zero is rounded correctly. -/
theorem quotient_spec (hx : x.Canonical) (hy : y.Canonical) (hf : x.format = y.format)
    (ha : x.value = some a) (hb : y.value = some b) (hb0 : b ≠ 0) :
    ∃ r st, Float.quotient x y = some (r, st) ∧
      CorrectlyRounded x.format (a / b) (x.sign != y.sign) r st := by
  rcases value_cases hy hb with ⟨-, rfl⟩ | ⟨hcy, hfy, rfl⟩
  · exact absurd rfl hb0
  rw [← hf] at hfy
  rcases value_cases hx ha with ⟨hcx, rfl⟩ | ⟨hcx, hfx, rfl⟩
  · have heq : Float.quotient x y = some (Float.zero x.format (x.sign != y.sign), .NONE) := by
      simp [Float.quotient, Float.propagatedNan, Float.isNan, hcx, hcy, hf, guard]
    rw [zero_div]
    exact ⟨_, _, heq, correctlyRounded_zero _ _⟩
  · have hpos := div_pos hfx.magnitude_pos hfy.magnitude_pos
    obtain ⟨r, st, hr, hround⟩ := quotient_finite_spec hfx hfy
    refine ⟨r, st, hr, ?_⟩
    rw [Float.signed_div]
    exact hround.correctly _ hpos.le fun h => absurd h hpos.ne'

/-- Every operation on two canonical numbers gives the correctly rounded answer, except a product
that is lost. -/
theorem Operation.correctlyRounded_iff (op : Operation) (hx : x.Canonical) (hy : y.Canonical)
    (hf : x.format = y.format) (ha : x.value = some a) (hb : y.value = some b)
    (hdiv : op = .quotient → b ≠ 0) :
    (∃ r st, op.apply x y = some (r, st) ∧
      CorrectlyRounded x.format (op.exact a b) (op.zeroSign x.sign y.sign) r st) ↔
      ¬ (op = .product ∧ LosesProduct x y |a * b|) := by
  cases op with
  | sum =>
    have := sum_spec hx hy hf ha hb
    simpa [apply, exact, zeroSign] using this
  | difference =>
    have := sum_spec hx (canonical_negated hy) hf ha (value_negated hb)
    simpa [apply, exact, zeroSign, difference_eq, sub_eq_add_neg, Float.negated] using this
  | product =>
    have := product_spec hx hy hf ha hb
    simpa [apply, exact, zeroSign] using this
  | quotient =>
    have := quotient_spec hx hy hf ha hb (hdiv rfl)
    simpa [apply, exact, zeroSign] using this

end Operands

/-- One and a half, in the format with the shortest significand. -/
def threeHalves : Float := ⟨.bFloat16, .finite, false, 0, 192⟩

/-- The square of one and a half is rounded correctly. -/
theorem Operation.correctlyRounded_threeHalves :
    (∃ r st, Operation.product.apply threeHalves threeHalves = some (r, st) ∧
      CorrectlyRounded .bFloat16 (3 / 2 * (3 / 2)) false r st) := by
  have hvalue : threeHalves.value = some (3 / 2) := by
    norm_num [threeHalves, Float.value, Float.magnitude, Float.scale, Format.precision]
  refine (Operation.correctlyRounded_iff .product (x := threeHalves) (y := threeHalves) (by decide)
    (by decide) rfl hvalue hvalue (by simp)).2 ?_
  rintro ⟨-, h, -⟩
  exact absurd h (by decide)

/-- A number of the extended format whose significand is all ones. -/
def allOnes (exponent : ℤ) : Float := ⟨.x87Extended, .finite, false, exponent, 2^64 - 1⟩

/-- The value of such a number. -/
theorem value_allOnes (exponent : ℤ) : (allOnes exponent).value = some ((2^64 - 1) * 2^(exponent - 63)) := by
  have hvalue : (allOnes exponent).value =
      some (((2^64 - 1 : ℕ) : ℚ) * 2^(allOnes exponent).scale) := rfl
  have hscale : (allOnes exponent).scale = exponent - 63 := by
    simp only [allOnes, Float.scale, Format.precision]
    omega
  rw [hvalue, hscale]
  norm_num

/-- Not every product is rounded correctly. The product of these two is just below the smallest
subnormal number and comes out as a zero. -/
theorem Operation.not_correctlyRounded : ¬ ∀ (op : Operation) (x y : Float) (a b : ℚ),
    x.Canonical → y.Canonical → x.format = y.format → x.value = some a → y.value = some b →
    (op = .quotient → b ≠ 0) → ∃ r st, op.apply x y = some (r, st) ∧
      CorrectlyRounded x.format (op.exact a b) (op.zeroSign x.sign y.sign) r st := by
  intro h
  have hx := value_allOnes (-8223)
  have hy := value_allOnes (-8224)
  have hformat : (allOnes (-8223)).format = (allOnes (-8224)).format := rfl
  refine (product_spec (by decide) (by decide) hformat hx hy).1
    (h .product _ _ _ _ (by decide) (by decide) hformat hx hy (by simp)) ?_
  have hu : (0 : ℚ) < 2^(-16573 : ℤ) := by positivity
  have habs : |((2 : ℚ)^64 - 1) * 2^((-8223 : ℤ) - 63) * ((2^64 - 1) * 2^((-8224 : ℤ) - 63))| =
      (2^64 - 1)^2 * 2^(-16573 : ℤ) := by
    have hones : (0 : ℚ) < 2^64 - 1 := by norm_num
    have hsum : (-16573 : ℤ) = (-8223 - 63) + (-8224 - 63) := by norm_num
    rw [hsum, zpow_add₀ (by norm_num)]
    generalize (2 : ℚ)^64 - 1 = m at *
    have h1 : (0 : ℚ) < 2^((-8223 : ℤ) - 63) := by positivity
    have h2 : (0 : ℚ) < 2^((-8224 : ℤ) - 63) := by positivity
    generalize (2 : ℚ)^((-8223 : ℤ) - 63) = u1 at *
    generalize (2 : ℚ)^((-8224 : ℤ) - 63) = u2 at *
    rw [abs_of_pos (by positivity)]
    ring
  have hleast : Format.x87Extended.grid.unit Format.x87Extended.leastScale =
      2^128 * 2^(-16573 : ℤ) := by
    rw [Format.grid_unit, ← zpow_natCast, ← zpow_add₀ (by norm_num)]
    rfl
  rw [habs]
  refine ⟨by decide, ?_, ?_⟩
  · show Format.x87Extended.grid.unit Format.x87Extended.leastScale / 2 < _
    rw [hleast, mul_div_right_comm]
    exact mul_lt_mul_of_pos_right (by norm_num) hu
  · show _ < Format.x87Extended.grid.unit Format.x87Extended.leastScale
    rw [hleast]
    exact mul_lt_mul_of_pos_right (by norm_num) hu

/-! ## Where the operands come from -/

/-- The exponent field of an encoding. -/
def exponentField (f : Format) (bits : ℕ) : ℕ :=
  (bits >>> f.significandBits) &&& ((1 <<< f.exponentBits) - 1)

/-- The significand field of an encoding. -/
def significandField (f : Format) (bits : ℕ) : ℕ := bits &&& ((1 <<< f.significandBits) - 1)

/-- An encoding that the format's own conversions write: where the leading bit is stored, it is set
exactly in the numbers that are normal. -/
def CanonicalBits (f : Format) (bits : ℕ) : Prop :=
  f.hasExplicitIntegerBit = true → (exponentField f bits ≠ 0 ↔ 2^(f.precision - 1) ≤
    significandField f bits)

/-- The significand an encoding stands for, with the leading bit that is not stored. -/
def storedSignificand (f : Format) (bits : ℕ) : ℕ :=
  significandField f bits |||
    if f.hasExplicitIntegerBit || exponentField f bits = 0 then 0 else 1 <<< (f.precision - 1)

/-- Reading an encoding, in terms of its fields. -/
theorem fromBits_eq (f : Format) (bits : ℕ) : Float.fromBits f bits =
    if exponentField f bits = (1 <<< f.exponentBits) - 1 then
      if significandField f bits &&& ((1 <<< (f.precision - 1)) - 1) = 0 then
        Float.infinity f (decide ((bits >>> (f.width - 1)) &&& 1 = 1))
      else ⟨f, .nan, decide ((bits >>> (f.width - 1)) &&& 1 = 1), 0, significandField f bits⟩
    else if storedSignificand f bits = 0 then
      Float.zero f (decide ((bits >>> (f.width - 1)) &&& 1 = 1))
    else ⟨f, .finite, decide ((bits >>> (f.width - 1)) &&& 1 = 1),
      if exponentField f bits = 0 then f.minExponent else exponentField f bits - f.maxExponent,
      storedSignificand f bits⟩ := rfl

/-- The significand of a canonical encoding fits the precision, and is full in a normal number. -/
theorem storedSignificand_spec {f : Format} (h : CanonicalBits f bits) : storedSignificand f bits < 2^f.precision ∧
      (exponentField f bits ≠ 0 → 2^(f.precision - 1) ≤ storedSignificand f bits) := by
  obtain ⟨hp8, hp113⟩ := f.precision_bounds
  have hstored : significandField f bits < 2^f.significandBits := by
    rw [significandField, Nat.shiftLeft_eq, one_mul, Nat.and_two_pow_sub_one_eq_mod]
    exact Nat.mod_lt _ (Nat.two_pow_pos _)
  have hpow : 2^f.precision = 2^(f.precision - 1) + 2^(f.precision - 1) := by
    rw [← two_mul, ← pow_succ']
    congr 1
    omega
  unfold storedSignificand
  unfold Format.significandBits at hstored
  by_cases hexplicit : f.hasExplicitIntegerBit = true
  · rw [if_pos hexplicit] at hstored
    simp only [hexplicit, Bool.true_or, if_true, Nat.or_zero]
    exact ⟨hstored, (h hexplicit).1⟩
  · rw [if_neg hexplicit] at hstored
    by_cases h0 : exponentField f bits = 0
    · simp only [h0, decide_true, Bool.or_true, if_true, Nat.or_zero]
      exact ⟨by omega, fun h => absurd rfl h⟩
    · have hor : significandField f bits ||| 1 <<< (f.precision - 1) =
          2^(f.precision - 1) + significandField f bits := by
        rw [Nat.or_comm, ← Nat.shiftLeft_add_eq_or_of_lt hstored, Nat.shiftLeft_eq, one_mul]
      simp only [hexplicit, h0, decide_false, Bool.or_self, Bool.false_eq_true, if_false, hor]
      exact ⟨by omega, fun _ => by omega⟩

/-- A canonical encoding gives a canonical number. -/
theorem fromBits_canonical (f : Format) (h : CanonicalBits f bits) : (Float.fromBits f bits).Canonical := by
  obtain ⟨hp8, hp113⟩ := f.precision_bounds
  obtain ⟨hm15, hm⟩ := f.maxExponent_bounds
  have hmin : f.minExponent = 1 - f.maxExponent := rfl
  have hbias : (2 : ℤ)^f.exponentBits = 2 * f.maxExponent + 2 := by cases f <;> decide
  have hfield : exponentField f bits < 2^f.exponentBits := by
    rw [exponentField, Nat.shiftLeft_eq, one_mul, Nat.and_two_pow_sub_one_eq_mod]
    exact Nat.mod_lt _ (Nat.two_pow_pos _)
  have hfield' : ((exponentField f bits : ℕ) : ℤ) < 2 * f.maxExponent + 2 := by
    rw [← hbias]
    exact_mod_cast hfield
  have hones : (((1 <<< f.exponentBits) - 1 : ℕ) : ℤ) = 2 * f.maxExponent + 1 := by
    have h1 : (1 <<< f.exponentBits) - 1 + 1 = 2^f.exponentBits := by
      rw [Nat.shiftLeft_eq, one_mul]
      have := Nat.two_pow_pos f.exponentBits
      omega
    have h2 : (((1 <<< f.exponentBits) - 1 + 1 : ℕ) : ℤ) = 2 * f.maxExponent + 2 := by
      rw [h1, ← hbias]
      push_cast
      rfl
    push_cast at h2
    omega
  obtain ⟨hlt, hfull⟩ := storedSignificand_spec h
  rw [fromBits_eq]
  generalize storedSignificand f bits = significand at *
  by_cases h1 : exponentField f bits = (1 <<< f.exponentBits) - 1
  · rw [if_pos h1]
    split_ifs
    · simp
    · trivial
  · rw [if_neg h1]
    by_cases h0 : significand = 0
    · rw [if_pos h0]
      simp
    · rw [if_neg h0]
      refine ⟨Nat.pos_of_ne_zero h0, hlt, ?_, ?_, ?_⟩
      all_goals
        dsimp only
        split_ifs with hz
      · exact le_rfl
      · omega
      · omega
      · omega
      · exact Or.inl rfl
      · exact Or.inr (hfull hz)

end Rucc.Base
