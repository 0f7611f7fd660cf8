import Rucc.Base.FloatProduced
import Rucc.Builtins.ConvertCorrect
import Rucc.Builtins.FloatCorrect
import Rucc.Builtins.QuadCorrect

/-!
# What is folded is what runs

An expression that `float/arith.rs` folds at translation time and the same one run by the program, in the routines of
`rucc-builtins`, have to agree in the last bit. A software float and a pattern meet where a format of the one and an
interchange format of the other are the same (`Same`): a pattern is read as a number of its sign and magnitude
(`Same.read`), and there is one such number, so two answers that are both the nearest are one (`Same.toBits_rounds`).
-/

namespace Rucc.Builtins.Folded

open Rounding Base Base.Float

/-- A format that is folded in and one that is run in are the same, and so is what is no finite number in them. -/
structure Same (f : Base.Format) (g : Interchange) : Prop where
  implied : f.hasExplicitIntegerBit = false
  precision : f.precision = g.fraction + 1
  significandBits : f.significandBits = g.fraction
  exponentBits : f.exponentBits = g.exponent
  maxExponent : f.maxExponent = g.bias
  grid : f.grid = g.grid
  toBits_zero : ∀ s, (Base.Float.zero f s).toBits = if s then g.sign else 0
  toBits_infinity : ∀ s, (Base.Float.infinity f s).toBits = g.infinity (if s then g.sign else 0)
  toBits_nan : (Base.Float.nan f).toBits = g.empty

theorem same_single : Same .single Float.single := ⟨rfl, rfl, rfl, rfl, rfl, rfl, by decide, by decide, rfl⟩

theorem same_double : Same .double Convert.double := ⟨rfl, rfl, rfl, rfl, rfl, rfl, by decide, by decide, rfl⟩

theorem same_quad : Same .quad Quad.quad := ⟨rfl, rfl, rfl, rfl, rfl, rfl, by decide, by decide, rfl⟩

/-! ## Reading patterns -/

namespace Same

variable {f : Base.Format} {g : Interchange} {b l r : ℕ} (h : Same f g)

include h

theorem pattern_iff : g.Pattern b ↔ b < 2^f.width := by
  rw [f.width_pos, h.significandBits, h.exponentBits, Interchange.Pattern, Interchange.sign, pow_succ',
    add_comm g.fraction]

/-- A number that is read is written down as it was. -/
theorem toBits_fromBits (hp : g.Pattern b) : (fromBits f b).toBits = b :=
  toBits_fromBits_of_implied h.implied (h.pattern_iff.1 hp)

/-- Reading a pattern reads its fields. -/
theorem fromBits_eq (hp : g.Pattern b) : fromBits f b =
    if g.Finite b then
      if g.significand b = 0 then zero f (decide (g.Negative b))
      else ⟨f, .finite, decide (g.Negative b), g.scale b + f.precision - 1, g.significand b⟩
    else if g.fractionOf b = 0 then infinity f (decide (g.Negative b))
    else ⟨f, .nan, decide (g.Negative b), 0, g.fractionOf b⟩ := by
  have hp' := h.precision
  have hm := h.maxExponent
  have hsign : signField f b = decide (g.Negative b) := by
    rw [signField, Format.width_eq, h.significandBits, h.exponentBits, ← g.testBit_sign hp, add_comm,
      Nat.testBit_eq_decide_div_mod_eq, Nat.shiftRight_eq_div_pow, Nat.and_one_is_mod]
  have hstored : exponentField f b = g.stored b := by
    rw [exponentField_eq, h.significandBits, h.exponentBits]
    rfl
  have hfraction : significandField f b = g.fractionOf b := by
    rw [significandField_eq, h.significandBits]
    rfl
  have htop : allOnesField f = g.top := by
    rw [allOnesField, h.exponentBits, Nat.shiftLeft_eq, one_mul]
    rfl
  have hpre : f.precision - 1 = g.fraction := by omega
  have hlow : g.fractionOf b < 2^g.fraction := g.fractionOf_lt b
  have hsig : (g.fractionOf b ||| if (false || decide (g.stored b = 0)) = true then 0
      else 1 <<< g.fraction) = g.significand b := by
    unfold Interchange.significand Interchange.implicit
    by_cases h0 : g.stored b = 0
    · simp [h0]
    · simp [h0, or_leading hlow, add_comm]
  have hexp : (if g.stored b = 0 then f.minExponent else g.stored b - f.maxExponent) =
      g.scale b + f.precision - 1 := by
    unfold Format.minExponent Interchange.scale Interchange.smallest
    split_ifs <;> omega
  rw [fromBits_eq_fromFields, hsign, hstored, hfraction, fromFields, htop, hpre, h.implied, hsig, hexp,
    Nat.mod_eq_of_lt hlow]
  by_cases hfin : g.Finite b
  · rw [if_neg hfin, if_pos hfin]
  · rw [if_pos (not_not.1 hfin), if_neg hfin]

/-- A pattern that is a number is read as one of its sign and magnitude. -/
theorem read (hp : g.Pattern b) (hn : ¬g.NaN b) : IsNumber f (decide (g.Negative b)) (fromBits f b) ∧
    (fromBits f b).magnitude = if g.Finite b then some (g.magnitude b) else none := by
  have hcanon := @fromBits_canonical b f fun hi => absurd (h.implied.symm.trans hi) (by simp)
  rw [h.fromBits_eq hp] at hcanon ⊢
  by_cases hfin : g.Finite b
  · rw [if_pos hfin] at hcanon ⊢
    rw [if_pos hfin]
    by_cases h0 : g.significand b = 0
    · rw [if_pos h0, g.magnitude_eq_zero.2 h0]
      exact ⟨⟨rfl, rfl, ⟨rfl, rfl⟩, by simp [zero]⟩, rfl⟩
    · rw [if_neg h0] at hcanon ⊢
      have hscale : g.scale b + f.precision - 1 - f.precision + 1 = g.scale b := by omega
      refine ⟨⟨rfl, rfl, hcanon, by simp⟩, ?_⟩
      rw [Base.Float.magnitude, Base.Float.scale, hscale, Interchange.magnitude]
  · have h0 : g.fractionOf b = 0 := of_not_not fun h0 => hn ⟨not_not.1 hfin, h0⟩
    rw [if_neg hfin, if_neg hfin, if_pos h0]
    exact ⟨⟨rfl, rfl, ⟨rfl, rfl⟩, by simp [infinity]⟩, rfl⟩

/-- What is no nan and no infinity is read as its value. -/
theorem value (hp : g.Pattern b) (hn : ¬g.NaN b) (hi : ¬g.Infinite b) :
    (fromBits f b).value = some (g.value b) := by
  obtain ⟨hx, hm⟩ := h.read hp hn
  rw [Base.Float.value, hm, if_pos (g.finite_of_not hn hi), hx.sign, Option.map_some, signed,
    Interchange.value]
  simp only [decide_eq_true_eq]

/-- A pattern is read as an infinity, as a zero or as a number between them. -/
theorem forms (hp : g.Pattern b) (hn : ¬g.NaN b) :
    (g.Infinite b ∧ g.value b ≠ 0 ∧ (fromBits f b).category = .infinite ∧ (fromBits f b).significand = 0) ∨
      (¬g.Infinite b ∧ g.value b = 0 ∧ (fromBits f b).category = .zero ∧ (fromBits f b).significand = 0) ∨
      (¬g.Infinite b ∧ g.value b ≠ 0 ∧ (fromBits f b).category = .finite) := by
  rw [h.fromBits_eq hp, ne_eq, g.value_eq_zero]
  by_cases hi : g.Infinite b
  · have hfin : ¬g.Finite b := not_not.2 hi.1
    have hpos : (0 : ℚ) < 2^(g.bias + 1) := by positivity
    rw [if_neg hfin, if_pos hi.2, ← g.magnitude_eq_zero, g.magnitude_infinite hi]
    exact Or.inl ⟨hi, hpos.ne', rfl, rfl⟩
  · rw [if_pos (g.finite_of_not hn hi)]
    by_cases h0 : g.significand b = 0
    · rw [if_pos h0]
      exact Or.inr (Or.inl ⟨hi, h0, rfl, rfl⟩)
    · rw [if_neg h0]
      exact Or.inr (Or.inr ⟨hi, h0, rfl⟩)

/-- A pattern with its sign flipped is read as the number negated. -/
theorem negated (hp : g.Pattern b) : fromBits f (b ^^^ g.sign) = (fromBits f b).negated := by
  obtain ⟨hp', hst, hfr, hneg⟩ := g.flip_fields hp
  obtain ⟨hsig, hscale⟩ := g.significand_flip hp
  have hfin : g.Finite (b ^^^ g.sign) ↔ g.Finite b := by
    unfold Interchange.Finite
    rw [hst]
  rw [h.fromBits_eq hp', h.fromBits_eq hp, hfr, hsig, hscale, decide_eq_decide.2 hneg, decide_not]
  simp only [hfin]
  split_ifs <;> rfl

/-! ## Answers -/

/-- Two answers that are both the nearest are one, if a zero that is exact has no sign. -/
theorem toBits_rounds {e : ℚ} {s : Bool} {x : Base.Float} {st : Status}
    (hx : CorrectlyRounded f e s x st) (hb : g.RoundsTo e b) (hs : e = 0 → s = false) : x.toBits = b := by
  obtain ⟨hread, hmag⟩ := h.read hb.pattern hb.number
  have hsign : (if e = 0 then s else decide (e < 0)) = decide (g.Negative b) := by
    by_cases h0 : e = 0
    · have hneg : ¬g.Negative b := fun hn => absurd h0 (hb.negative.1 hn).ne
      rw [if_pos h0, hs h0, decide_eq_false hneg]
    · rw [if_neg h0, decide_eq_decide, hb.negative]
  have hrounds := hx.rounds
  rw [h.grid] at hrounds
  have hsame := g.grid.rounds_unique (abs_nonneg e) hrounds hb.rounds
  rw [hx.toIsNumber.ext (hsign ▸ hread) (hsame.trans hmag.symm), h.toBits_fromBits hb.pattern]

/-- A zero is not what something past half of the smallest number rounds to. -/
theorem toBits_zero_ne {e : ℚ} (s : Bool) (hb : g.RoundsTo e b) (he : f.grid.unit f.leastScale / 2 < |e|) :
    (zero f s).toBits ≠ b := by
  intro hz
  have hzero : fromBits f (zero f s).toBits = zero f s := (encodable_zero f s).fromBits_toBits
  have hrounds := hb.rounds
  rw [← (h.read hb.pattern hb.number).2, ← hz, hzero, magnitude_zero, ← h.grid] at hrounds
  exact f.grid.not_rounds_zero he hrounds

section Operands

variable (hl : g.Pattern l) (hr : g.Pattern r) (hnl : ¬g.NaN l) (hnr : ¬g.NaN r)

include hl hr hnl hnr

/-- The sign of a product, on either side. -/
theorem signs : (if (fromBits f l).sign = (fromBits f r).sign then 0 else g.sign) = g.mixed l r := by
  simp only [(h.read hl hnl).1.sign, (h.read hr hnr).1.sign, decide_eq_decide, Interchange.mixed]

/-- A sum that is folded is the one that runs. -/
theorem sum (hb : g.Adds l r b) :
    ∃ x st, (fromBits f l).sum (fromBits f r) = some (x, st) ∧ x.toBits = b := by
  have hxl := (h.read hl hnl).1
  have hxr := (h.read hr hnr).1
  have hfl := hxl.format
  have hfr := hxr.format
  unfold Interchange.Adds at hb
  rw [if_neg hnl, if_neg hnr] at hb
  have hround : ¬g.Infinite l → ¬g.Infinite r → ¬(g.value l = 0 ∧ g.value r = 0) →
      ∃ x st, (fromBits f l).sum (fromBits f r) = some (x, st) ∧ x.toBits = b := by
    intro hil hir hz
    rw [if_neg hil, if_neg hir, if_neg hz] at hb
    obtain ⟨x, st, heq, hx⟩ := sum_spec hxl.canonical hxr.canonical (hfl.trans hfr.symm) (h.value hl hnl hil)
      (h.value hr hnr hir)
    rw [hfl] at hx
    refine ⟨x, st, heq, h.toBits_rounds hx hb fun h0 => ?_⟩
    rw [hxl.sign, hxr.sign, Bool.and_eq_false_iff, decide_eq_false_iff_not, decide_eq_false_iff_not]
    -- Two negative numbers do not cancel.
    by_contra hboth
    rw [not_or, not_not, not_not] at hboth
    have hml := g.magnitude_nonneg l
    have hmr := g.magnitude_nonneg r
    rw [Interchange.value, Interchange.value, if_pos hboth.1, if_pos hboth.2] at h0 hz
    exact hz ⟨by linarith, by linarith⟩
  rcases h.forms hl hnl with ⟨hil, h0l, hcl, -⟩ | ⟨hil, h0l, hcl, -⟩ | ⟨hil, h0l, hcl⟩ <;>
    rcases h.forms hr hnr with ⟨hir, h0r, hcr, -⟩ | ⟨hir, h0r, hcr, -⟩ | ⟨hir, h0r, hcr⟩
  case inr.inl.inr.inr => exact hround hil hir fun hz => h0r hz.2
  case inr.inr.inr.inl => exact hround hil hir fun hz => h0l hz.1
  case inr.inr.inr.inr => exact hround hil hir fun hz => h0l hz.1
  all_goals
    simp only [hil, hir, h0l, h0r, ↓reduceIte, true_and, false_and, and_self, ite_not] at hb
    simp only [Base.Float.sum, total, guard, hfl, hfr, ↓reduceIte, Option.pure_def, propagatedNan, isNan, hcl,
      hcr, reduceCtorEq, decide_false, Bool.false_eq_true, Bool.or_self, Option.bind_eq_bind,
      Option.bind_some]
  case inl.inl =>
    rw [hxl.sign, hxr.sign]
    simp only [decide_eq_decide]
    split_ifs at hb ⊢
    · exact ⟨_, _, rfl, (h.toBits_fromBits hl).trans hb.symm⟩
    · exact ⟨_, _, rfl, h.toBits_nan.trans hb.symm⟩
  case inr.inl.inr.inl =>
    simp [h.toBits_zero, hxl.sign, hxr.sign, hb]
  all_goals simp [hb, h.toBits_fromBits, hl, hr]

/-- A product that is folded is the one that runs exactly when it is not lost. -/
theorem product (hb : g.Multiplies l r b) :
    ∃ x st, (fromBits f l).product (fromBits f r) = some (x, st) ∧
      (x.toBits = b ↔ ¬LosesProduct (fromBits f l) (fromBits f r) |g.value l * g.value r|) := by
  have hxl := (h.read hl hnl).1
  have hxr := (h.read hr hnr).1
  have hfl := hxl.format
  have hfr := hxr.format
  have hs := h.signs hl hr hnl hnr
  unfold Interchange.Multiplies at hb
  rw [if_neg hnl, if_neg hnr] at hb
  rcases h.forms hl hnl with ⟨hil, h0l, hcl, hzl⟩ | ⟨hil, h0l, hcl, hzl⟩ | ⟨hil, h0l, hcl⟩ <;>
    rcases h.forms hr hnr with ⟨hir, h0r, hcr, hzr⟩ | ⟨hir, h0r, hcr, hzr⟩ | ⟨hir, h0r, hcr⟩
  case inr.inr.inr.inr =>
    have hvl := h.value hl hnl hil
    have hvr := h.value hr hnr hir
    rw [if_neg (by tauto), if_neg (by tauto)] at hb
    by_cases hlost : LosesProduct (fromBits f l) (fromBits f r) |g.value l * g.value r|
    · have hle := hxl.canonical.isFinite hcl
      have hri := hxr.canonical.isFinite hcr
      rw [hfl] at hle
      rw [hfr] at hri
      have habs : |g.value l * g.value r| = (fromBits f l).significand * 2^(fromBits f l).scale *
          ((fromBits f r).significand * 2^(fromBits f r).scale) := by
        have hpos := mul_pos hle.magnitude_pos hri.magnitude_pos
        rw [hle.value_eq, Option.some.injEq] at hvl
        rw [hri.value_eq, Option.some.injEq] at hvr
        rw [← hvl, ← hvr, signed_mul]
        cases (fromBits f l).sign != (fromBits f r).sign <;> simp [abs_of_pos hpos]
      obtain ⟨st, heq⟩ := product_finite_loses hle hri (habs ▸ hlost)
      refine ⟨_, st, heq, iff_of_false (h.toBits_zero_ne _ hb ?_) (not_not.2 hlost)⟩
      have hlow := hlost.2.1
      rwa [hfl] at hlow
    · obtain ⟨x, st, heq, hx⟩ := (product_spec hxl.canonical hxr.canonical (hfl.trans hfr.symm) hvl hvr).2 hlost
      rw [hfl] at hx
      exact ⟨x, st, heq, iff_of_true (h.toBits_rounds hx hb fun h0 => absurd h0 (mul_ne_zero h0l h0r))
        hlost⟩
  all_goals
    simp only [hil, hir, h0l, h0r, or_self, or_false, or_true, ↓reduceIte] at hb
    -- What is no finite number has no significand, and is not lost.
    simp [*, Base.Float.product, guard, propagatedNan, isNan, h.toBits_zero, h.toBits_infinity, h.toBits_nan,
      LosesProduct]

/-- A quotient that is folded is the one that runs. -/
theorem quotient (hb : g.Divides l r b) :
    ∃ x st, (fromBits f l).quotient (fromBits f r) = some (x, st) ∧ x.toBits = b := by
  have hxl := (h.read hl hnl).1
  have hxr := (h.read hr hnr).1
  have hfl := hxl.format
  have hfr := hxr.format
  have hs := h.signs hl hr hnl hnr
  unfold Interchange.Divides at hb
  rw [if_neg hnl, if_neg hnr] at hb
  rcases h.forms hl hnl with ⟨hil, h0l, hcl, -⟩ | ⟨hil, h0l, hcl, -⟩ | ⟨hil, h0l, hcl⟩ <;>
    rcases h.forms hr hnr with ⟨hir, h0r, hcr, -⟩ | ⟨hir, h0r, hcr, -⟩ | ⟨hir, h0r, hcr⟩
  case inr.inr.inr.inr =>
    rw [if_neg hil, if_neg hir, if_neg h0r, if_neg h0l] at hb
    obtain ⟨x, st, heq, hx⟩ := quotient_spec hxl.canonical hxr.canonical (hfl.trans hfr.symm) (h.value hl hnl hil)
      (h.value hr hnr hir) h0r
    rw [hfl] at hx
    exact ⟨x, st, heq, h.toBits_rounds hx hb fun h0 => absurd h0 (div_ne_zero h0l h0r)⟩
  all_goals
    simp only [hil, hir, h0l, h0r, ↓reduceIte] at hb
    simp [Base.Float.quotient, guard, propagatedNan, isNan, hfl, hfr, hcl, hcr, h.toBits_zero, h.toBits_infinity,
      h.toBits_nan, hs, hb]

end Operands

end Same

/-- What IEEE 754 says of the answer to an operation on patterns that are no nans. -/
def Answers (g : Interchange) : Operation → ℕ → ℕ → ℕ → Prop
  | .sum => g.Adds
  | .difference => fun l r => g.Adds l (r ^^^ g.sign)
  | .product => g.Multiplies
  | .quotient => g.Divides

/-- An operation that is folded is the one that runs exactly when it is no product that is lost. -/
theorem Same.operation {f : Base.Format} {g : Interchange} {l r b : ℕ} (h : Same f g) (op : Operation)
    (hl : g.Pattern l) (hr : g.Pattern r) (hnl : ¬g.NaN l) (hnr : ¬g.NaN r) (hb : Answers g op l r b) :
    ∃ x st, op.apply (fromBits f l) (fromBits f r) = some (x, st) ∧ (x.toBits = b ↔
      ¬(op = .product ∧ LosesProduct (fromBits f l) (fromBits f r) |g.value l * g.value r|)) := by
  cases op with
  | sum =>
    obtain ⟨x, st, heq, hx⟩ := h.sum hl hr hnl hnr hb
    exact ⟨x, st, heq, iff_of_true hx (by simp)⟩
  | difference =>
    obtain ⟨hp, hst, hfr, -⟩ := g.flip_fields hr
    have hnf : ¬g.NaN (r ^^^ g.sign) := by
      unfold Interchange.NaN
      rwa [hst, hfr]
    obtain ⟨x, st, heq, hx⟩ := h.sum hl hp hnl hnf hb
    rw [h.negated hr] at heq
    exact ⟨x, st, heq, iff_of_true hx (by simp)⟩
  | product =>
    obtain ⟨x, st, heq, hx⟩ := h.product hl hr hnl hnr hb
    exact ⟨x, st, heq, by simpa using hx⟩
  | quotient =>
    obtain ⟨x, st, heq, hx⟩ := h.quotient hl hr hnl hnr hb
    exact ⟨x, st, heq, iff_of_true hx (by simp)⟩

/-- The routine for an operation, of the four of a format. -/
def run (add : ℕ → ℕ → Option ℕ) (negated : ℕ → ℕ) (multiply divide : ℕ → ℕ → Option ℕ) :
    Operation → ℕ → ℕ → Option ℕ
  | .sum => add
  | .difference => fun l r => add l (negated r)
  | .product => multiply
  | .quotient => divide

/-- Where each routine answers as IEEE 754 says, the one for every operation does. -/
theorem run_answers {g : Interchange} {add multiply divide : ℕ → ℕ → Option ℕ} {negated : ℕ → ℕ} {l r : ℕ}
    (op : Operation) (hr : g.Pattern r) (hneg : negated r = r ^^^ g.sign)
    (hadd : ∀ {r}, g.Pattern r → ∃ b, add l r = some b ∧ g.Adds l r b)
    (hmul : ∃ b, multiply l r = some b ∧ g.Multiplies l r b)
    (hdiv : ∃ b, divide l r = some b ∧ g.Divides l r b) :
    ∃ b, run add negated multiply divide op l r = some b ∧ Answers g op l r b := by
  cases op with
  | sum => exact hadd hr
  | difference =>
    obtain ⟨b, hb, hadds⟩ := hadd (g.flip_fields hr).1
    exact ⟨b, (congrArg (add l) hneg).trans hb, hadds⟩
  | product => exact hmul
  | quotient => exact hdiv

/-! ## Single precision and quads -/

/-- `__addsf3`, `__subsf3`, `__mulsf3` and `__divsf3`. -/
def runSingle : Operation → ℕ → ℕ → Option ℕ := run Float.add Float.negated Float.multiply Float.divide

/-- An operation on numbers of single precision gives the bits where it is folded that it gives where it runs. -/
theorem single_folded (op : Operation) {l r : ℕ} (hl : l < 2^32) (hr : r < 2^32) (hnl : ¬Float.single.NaN l)
    (hnr : ¬Float.single.NaN r) : ∃ x st, op.apply (fromBits .single l) (fromBits .single r) = some (x, st) ∧
      runSingle op l r = some x.toBits := by
  have hpl := Float.pattern_iff.2 hl
  have hpr := Float.pattern_iff.2 hr
  obtain ⟨b, hrun, hb⟩ := run_answers op hpr (Float.negated_eq hnr)
    (fun hp => ⟨_, Float.add_eq' hl (Float.pattern_iff.1 hp), Float.single.add_spec (by decide) hpl hp⟩)
    ⟨_, Float.multiply_eq hl hr, Float.single.multiply_spec l r⟩
    ⟨_, Float.divide_eq hl hr, Float.single.divide_spec (by decide) l r⟩
  obtain ⟨x, st, heq, hx⟩ := same_single.operation op hpl hpr hnl hnr hb
  refine ⟨x, st, heq, hrun.trans (congrArg some (hx.2 ?_).symm)⟩
  -- Two significands of 24 bits do not fill a word.
  rintro ⟨-, hlong, -⟩
  have hmul := Nat.mul_lt_mul'' (same_single.read hpl hnl).1.significand_lt (same_single.read hpr hnr).1.significand_lt
  exact absurd (hlong.trans_lt hmul) (by decide)

/-- A third, of the smallest subnormals. -/
theorem single_folded_third : ∃ x st, Operation.quotient.apply (fromBits .single 1) (fromBits .single 3) =
    some (x, st) ∧ runSingle .quotient 1 3 = some x.toBits :=
  single_folded .quotient (by norm_num) (by norm_num) (by decide) (by decide)

/-- `__addtf3`, `__subtf3`, `__multf3` and `__divtf3`. -/
def runQuad : Operation → ℕ → ℕ → Option ℕ := run Quad.add Quad.negated Quad.multiply Quad.divide

/-- An operation on quads gives the bits where it is folded that it gives where it runs, but for a product that is
lost where it is folded. -/
theorem quad_folded (op : Operation) {l r : ℕ} (hl : l < 2^128) (hr : r < 2^128) (hnl : ¬Quad.quad.NaN l)
    (hnr : ¬Quad.quad.NaN r) : ∃ x st b, op.apply (fromBits .quad l) (fromBits .quad r) = some (x, st) ∧
      runQuad op l r = some b ∧ (x.toBits = b ↔ ¬(op = .product ∧
        LosesProduct (fromBits .quad l) (fromBits .quad r) |Quad.quad.value l * Quad.quad.value r|)) := by
  have hpl := Quad.pattern_iff.2 hl
  have hpr := Quad.pattern_iff.2 hr
  obtain ⟨b, hrun, hb⟩ := run_answers op hpr ((Quad.negated_eq r).trans (if_neg hnr))
    (fun hp => ⟨_, Quad.add_eq' hl (Quad.pattern_iff.1 hp), Quad.quad.add_spec (by decide) hpl hp⟩)
    ⟨_, Quad.multiply_eq hl hr, Quad.quad.multiply_spec l r⟩
    ⟨_, Quad.divide_eq hl hr, Quad.quad.divide_spec (by decide) l r⟩
  obtain ⟨x, st, heq, hx⟩ := same_quad.operation op hpl hpr hnl hnr hb
  exact ⟨x, st, b, heq, hrun, hx⟩

/-- The smallest subnormal, doubled. -/
theorem quad_folded_smallest : ∃ x st b, Operation.sum.apply (fromBits .quad 1) (fromBits .quad 1) = some (x, st) ∧
    runQuad .sum 1 1 = some b ∧ x.toBits = b := by
  obtain ⟨x, st, b, heq, hrun, hx⟩ := quad_folded .sum (l := 1) (r := 1) (by norm_num) (by norm_num) (by decide)
    (by decide)
  exact ⟨x, st, b, heq, hrun, hx.2 (by simp)⟩

/-! ## Integers -/

/-- The conversion of an integer that is folded is the nearest number. -/
theorem Same.toBits_fromSigned {f : Base.Format} {g : Interchange} {b : ℕ} (h : Same f g) {z : ℤ}
    (hz : z.natAbs < 2^128) (hb : g.RoundsTo z b) :
    ∃ x st, fromSigned z f = some (x, st) ∧ some b = some x.toBits := by
  obtain ⟨x, st, heq, hx⟩ := fromSigned_spec f hz
  exact ⟨x, st, heq, congrArg some (h.toBits_rounds hx hb fun _ => rfl).symm⟩

/-- An integer of 128 bits becomes the same bits where it is folded and where it is converted as the program runs. -/
theorem integer_folded :
    (∀ n < 2^128, (∃ x st, fromUnsigned n .single = some (x, st) ∧
        Convert.fromUnsigned n Convert.SINGLE = some x.toBits) ∧
      ∃ x st, fromUnsigned n .double = some (x, st) ∧ Convert.fromUnsigned n Convert.DOUBLE = some x.toBits) ∧
    ∀ z : ℤ, -2^127 ≤ z → z < 2^128 → ∃ x st, fromSigned z .quad = some (x, st) ∧
      Quad.quadFromInteger (if z < 0 then Quad.SIGN else 0) z.natAbs = some x.toBits := by
  refine ⟨fun n hn => ?_, fun z hlo hhi => ?_⟩
  · obtain ⟨_, hs, hb⟩ := Convert.fromUnsigned_rounds Convert.small_single hn
    obtain ⟨_, hd, hb'⟩ := Convert.fromUnsigned_rounds Convert.small_double hn
    obtain ⟨x, st, hx, heq⟩ := same_single.toBits_fromSigned (z := n) hn hb
    obtain ⟨x', st', hx', heq'⟩ := same_double.toBits_fromSigned (z := n) hn hb'
    rw [← fromUnsigned_eq_fromSigned] at hx hx'
    exact ⟨⟨x, st, hx, hs.trans heq⟩, x', st', hx', hd.trans heq'⟩
  · obtain ⟨_, hq, hb⟩ := Quad.quadFromInteger_spec hlo hhi
    obtain ⟨x, st, hx, heq⟩ := same_quad.toBits_fromSigned (by omega) hb
    exact ⟨x, st, hx, hq.trans heq⟩

end Rucc.Builtins.Folded
