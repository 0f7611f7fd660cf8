import Rucc.Opt.RangeBitwise
import Rucc.Opt.RangeShifts

/-!
# The range domain is sound

`Built` is every range the constructors and the operations of the module can build, and every one of
them is well formed. `Meets` says what is asked of a pair of them: each operation returns a
well-formed range that holds the results of the operation on the values of its operands. It is met
unless a shift left loses a value to its sign (`LosesSign`).
-/

namespace Rucc.Opt

open Intervals Checked Range Ops

variable {b r a : Range}

/-! ## Everything the module builds -/

/-- The ranges the constructors and the operations build. An operation on ranges of different widths
stops the program, so its operands have one width. -/
inductive Built : Range → Prop
  | empty (width : ℕ) : Built (Range.empty width)
  | full (width : ℕ) : Built (Range.full width)
  | exactly (value width : ℕ) : Built (Range.exactly value width)
  | between (lo hi width : ℕ) : Built (Range.between lo hi width)
  | signedBetween (lo hi : ℤ) (width : ℕ) : Built (Range.signedBetween lo hi width)
  | otherThan (value width : ℕ) : Built (Range.otherThan value width)
  | fromPairs (pairs : List (ℕ × ℕ)) (width : ℕ) : Built (Range.fromPairs pairs width)
  | narrow {a : Range} (ha : Built a) (bits : Bits) : Built (a.narrow bits)
  | union {a b : Range} (ha : Built a) (hb : Built b) (hab : a.width = b.width) : Built (a.union b)
  | intersect {a b : Range} (ha : Built a) (hb : Built b) (hab : a.width = b.width) :
    Built (a.intersect b)
  | invert {a : Range} (ha : Built a) : Built a.invert
  | add {a b : Range} (ha : Built a) (hb : Built b) (hab : a.width = b.width) (flags : Flags) :
    Built (Ops.add a b flags)
  | sub {a b : Range} (ha : Built a) (hb : Built b) (hab : a.width = b.width) (flags : Flags) :
    Built (Ops.sub a b flags)
  | neg {a : Range} (ha : Built a) (flags : Flags) : Built (Ops.neg a flags)
  | mul {a b : Range} (ha : Built a) (hb : Built b) (hab : a.width = b.width) (flags : Flags) :
    Built (Ops.mul a b flags)
  | and {a b : Range} (ha : Built a) (hb : Built b) (hab : a.width = b.width) :
    Built (Ops.and a b)
  | or {a b : Range} (ha : Built a) (hb : Built b) (hab : a.width = b.width) : Built (Ops.or a b)
  | xor {a b : Range} (ha : Built a) (hb : Built b) (hab : a.width = b.width) :
    Built (Ops.xor a b)
  | not {a : Range} (ha : Built a) : Built (Ops.not a)
  | shl {a b : Range} (ha : Built a) (hb : Built b) (flags : Flags) : Built (Ops.shl a b flags)
  | lshr {a b : Range} (ha : Built a) (hb : Built b) (flags : Flags) : Built (Ops.lshr a b flags)
  | ashr {a b : Range} (ha : Built a) (hb : Built b) (flags : Flags) : Built (Ops.ashr a b flags)
  | trunc {a : Range} (ha : Built a) (target : ℕ) : Built (Ops.trunc a target)
  | zext {a : Range} (ha : Built a) (target : ℕ) : Built (Ops.zext a target)
  | sext {a : Range} (ha : Built a) (target : ℕ) : Built (Ops.sext a target)
  | narrowFor {a b : Range} (ha : Built a) (hb : Built b) (hab : a.width = b.width)
    (pred : IntPred) : Built (Ops.narrowFor pred a b)
  | backward {a b : Range} (ha : Built a) (hb : Built b) (hab : a.width = b.width) (undo : Undo) :
    Built (Ops.backward undo a b)

theorem allowed_wellFormed {pred : IntPred} (hb : b.WellFormed) {ul uh : ℕ}
    {sl sh : ℤ} {width : ℕ} (h : allowed pred b ul uh sl sh width = some r) : r.WellFormed := by
  cases pred <;> simp only [allowed, Option.some.injEq] at h
  · exact h ▸ hb
  · obtain ⟨value, -, rfl⟩ := Option.map_eq_some_iff.mp h
    exact otherThan_wellFormed _ _
  · rw [← h]
    split_ifs
    · exact empty_wellFormed _
    · exact between_wellFormed _ _ _
  · exact h ▸ between_wellFormed _ _ _
  · rw [← h]
    split_ifs
    · exact empty_wellFormed _
    · exact between_wellFormed _ _ _
  · exact h ▸ between_wellFormed _ _ _
  all_goals exact h ▸ signedBetween_wellFormed _ _ _

theorem narrowFor_wellFormed (ha : a.WellFormed) (hb : b.WellFormed)
    (pred : IntPred) : (narrowFor pred a b).WellFormed := by
  unfold narrowFor
  split
  · split_ifs
    · exact empty_wellFormed _
    · split
      · rename_i hallowed
        exact (intersect_spec ha (allowed_wellFormed hb hallowed)).1
      · exact ha
  · exact empty_wellFormed _

theorem backward_wellFormed (ha : a.WellFormed) (hb : b.WellFormed)
    (hab : a.width = b.width) (undo : Undo) : (backward undo a b).WellFormed := by
  cases undo with
  | addLeft => exact (sub_sound a b _ ha hb hab).1
  | subRight => exact (sub_sound b a _ hb ha hab.symm).1
  | subLeft => exact (add_sound a b _ ha hb hab).1
  | neg => exact (neg_sound ha _).1
  | not => exact (not_sound ha).1
  | xor => exact (xor_sound ha hb hab).1
  | zext source =>
    have hext := (zext_sound (full_wellFormed source) a.width).1
    exact (trunc_sound (intersect_spec ha hext).1 source).1
  | sext source =>
    have hext := (sext_sound (full_wellFormed source) a.width).1
    exact (trunc_sound (intersect_spec ha hext).1 source).1
  | uDiv divisor =>
    unfold backward
    dsimp only
    split_ifs
    · exact full_wellFormed _
    · exact fromPairs_wellFormed _ _

/-- Every range the module builds is well formed. -/
theorem Built.wellFormed (h : Built r) : r.WellFormed := by
  induction h with
  | empty width => exact empty_wellFormed _
  | full width => exact full_wellFormed _
  | exactly value width => exact exactly_wellFormed _ _
  | between lo hi width => exact between_wellFormed _ _ _
  | signedBetween lo hi width => exact signedBetween_wellFormed _ _ _
  | otherThan value width => exact otherThan_wellFormed _ _
  | fromPairs pairs width => exact fromPairs_wellFormed _ _
  | narrow _ bits ha => exact narrow_wellFormed ha bits
  | union _ _ hab ha hb => exact (union_spec ha hb hab).1
  | intersect _ _ _ ha hb => exact (intersect_spec ha hb).1
  | invert => exact invert_wellFormed _
  | add _ _ hab flags ha hb => exact (add_sound _ _ flags ha hb hab).1
  | sub _ _ hab flags ha hb => exact (sub_sound _ _ flags ha hb hab).1
  | neg _ flags ha => exact (neg_sound ha flags).1
  | mul _ _ hab flags ha hb => exact (mul_sound _ _ flags ha hb hab).1
  | and _ _ _ ha hb => exact (and_sound ha hb).1
  | or _ _ hab ha hb => exact (or_sound ha hb hab).1
  | xor _ _ hab ha hb => exact (xor_sound ha hb hab).1
  | not _ ha => exact (not_sound ha).1
  | shl _ _ flags ha hb => exact (shl_form ha hb flags).1
  | lshr _ _ flags ha hb => exact (lshr_sound ha hb flags).1
  | ashr _ _ flags ha hb => exact (ashr_sound ha hb flags).1
  | trunc _ target ha => exact (trunc_sound ha target).1
  | zext _ target ha => exact (zext_sound ha target).1
  | sext _ target ha => exact (sext_sound ha target).1
  | narrowFor _ _ _ pred ha hb => exact narrowFor_wellFormed ha hb pred
  | backward _ _ hab undo ha hb => exact backward_wellFormed ha hb hab undo

/-! ## What is asked of the domain -/

/-- The range is well formed, has the width and holds the values. -/
def Holds (r : Range) (width : ℕ) (values : Set ℕ) : Prop :=
  r.WellFormed ∧ r.width = width ∧ ∀ v ∈ values, v ∈ r

/-- The patterns of an operation's results on the values that keep the promises. -/
def results (a b : Range) (flags : Flags) (exact : ℤ → ℤ → ℤ) : Set ℕ :=
  {v | ∃ x ∈ a, ∃ y ∈ b,
    Promised flags a.width (exact (signedValue a.width x) (signedValue a.width y)) (exact x y) ∧
    v = pattern a.width (exact x y)}

/-- What is asked of the operations on a pair of ranges, the second also as a shift count. -/
structure Meets (a b : Range) (flags : Flags) : Prop where
  union : a.width = b.width → Holds (a.union b) a.width {v | v ∈ a ∨ v ∈ b}
  intersect : a.width = b.width → Holds (a.intersect b) a.width {v | v ∈ a ∧ v ∈ b}
  narrow : ∀ bits, Holds (a.narrow bits) a.width {v | v ∈ a ∧ bits.allows v = true}
  unsignedBounds : ∀ v ∈ a, ∃ lo hi, a.unsignedBounds = some (lo, hi) ∧ lo ≤ v ∧ v ≤ hi
  signedBounds : ∀ v ∈ a, ∃ lo hi, a.signedBounds = some (lo, hi) ∧
    lo ≤ signedValue a.width v ∧ signedValue a.width v ≤ hi
  add : a.width = b.width → Holds (Ops.add a b flags) a.width (results a b flags (· + ·))
  sub : a.width = b.width → Holds (Ops.sub a b flags) a.width (results a b flags (· - ·))
  neg : Holds (Ops.neg a flags) a.width {v | ∃ x ∈ a,
    Promised flags a.width (0 - signedValue a.width x) (0 - x) ∧ v = pattern a.width (-x)}
  mul : a.width = b.width → Holds (Ops.mul a b flags) a.width (results a b flags (· * ·))
  and : a.width = b.width → Holds (Ops.and a b) a.width {v | ∃ x ∈ a, ∃ y ∈ b, v = x &&& y}
  or : a.width = b.width → Holds (Ops.or a b) a.width {v | ∃ x ∈ a, ∃ y ∈ b, v = x ||| y}
  xor : a.width = b.width → Holds (Ops.xor a b) a.width {v | ∃ x ∈ a, ∃ y ∈ b, v = x ^^^ y}
  not : Holds (Ops.not a) a.width {v | ∃ x ∈ a, v = 2^a.width - 1 - x}
  shl : Holds (Ops.shl a b flags) a.width {v | ∃ x ∈ a, ∃ c ∈ b, c < a.width ∧
    Promised flags a.width (signedValue a.width x * 2^c) (x * 2^c) ∧
    v = pattern a.width (x * 2^c)}
  lshr : Holds (Ops.lshr a b flags) a.width {v | ∃ x ∈ a, ∃ c ∈ b, c < a.width ∧ v = x >>> c}
  ashr : Holds (Ops.ashr a b flags) a.width {v | ∃ x ∈ a, ∃ c ∈ b, c < a.width ∧
    v = pattern a.width (signedValue a.width x >>> c)}
  trunc : ∀ target, Holds (Ops.trunc a target) (clamp target) {v | ∃ x ∈ a, v = x % 2^clamp target}
  zext : ∀ target, Holds (Ops.zext a target) (clamp target) {v | ∃ x ∈ a, v = x % 2^clamp target}
  sext : ∀ target, Holds (Ops.sext a target) (clamp target)
    {v | ∃ x ∈ a, v = pattern (clamp target) (signedValue a.width x)}

theorem holds_of_sound {transfer : Range → Range → Flags → Range} {exact : ℤ → ℤ → ℤ}
    (h : Sound transfer exact) {flags : Flags} (ha : a.WellFormed)
    (hb : b.WellFormed) (hab : a.width = b.width) :
    Holds (transfer a b flags) a.width (results a b flags exact) := by
  obtain ⟨h₁, h₂, h₃⟩ := h a b flags ha hb hab
  refine ⟨h₁, h₂, ?_⟩
  rintro v ⟨x, hx, y, hy, hpromised, rfl⟩
  exact h₃ x hx y hy hpromised

/-- The domain is sound on every pair of ranges it can build, unless a shift left loses the sign. -/
theorem Built.meets {a b : Range} (ha : Built a) (hb : Built b) {flags : Flags}
    (hkeeps : ¬ LosesSign a b flags) : Meets a b flags := by
  have ha' := ha.wellFormed
  have hb' := hb.wellFormed
  exact {
    union := fun hab => union_spec ha' hb' hab
    intersect := fun _ => by
      obtain ⟨h₁, h₂, h₃⟩ := intersect_spec ha' hb'
      exact ⟨h₁, h₂, fun v hv => h₃ v hv.1 hv.2⟩
    narrow := fun bits => by
      obtain ⟨h₁, h₂, h₃⟩ := narrow_spec ha' bits
      exact ⟨h₁, h₂, fun v hv => h₃ v hv.1 hv.2⟩
    unsignedBounds := fun v hv => by
      obtain ⟨lo, hi, hsome, hlo, hhi, -⟩ := unsignedBounds_spec ha' hv
      exact ⟨lo, hi, hsome, hlo, hhi⟩
    signedBounds := fun v hv => by
      obtain ⟨lo, hi, hsome, hlo, hhi, -⟩ := signedBounds_spec ha' hv
      exact ⟨lo, hi, hsome, hlo, hhi⟩
    add := fun hab => holds_of_sound add_sound ha' hb' hab
    sub := fun hab => holds_of_sound sub_sound ha' hb' hab
    neg := by
      obtain ⟨h₁, h₂, h₃⟩ := neg_sound ha' flags
      refine ⟨h₁, h₂, ?_⟩
      rintro v ⟨x, hx, hpromised, rfl⟩
      exact h₃ x hx hpromised
    mul := fun hab => holds_of_sound mul_sound ha' hb' hab
    and := fun _ => by
      obtain ⟨h₁, h₂, h₃⟩ := and_sound ha' hb'
      refine ⟨h₁, h₂, ?_⟩
      rintro v ⟨x, hx, y, hy, rfl⟩
      exact h₃ x hx y hy
    or := fun hab => by
      obtain ⟨h₁, h₂, h₃⟩ := or_sound ha' hb' hab
      refine ⟨h₁, h₂, ?_⟩
      rintro v ⟨x, hx, y, hy, rfl⟩
      exact h₃ x hx y hy
    xor := fun hab => by
      obtain ⟨h₁, h₂, h₃⟩ := xor_sound ha' hb' hab
      refine ⟨h₁, h₂, ?_⟩
      rintro v ⟨x, hx, y, hy, rfl⟩
      exact h₃ x hx y hy
    not := by
      obtain ⟨h₁, h₂, h₃⟩ := not_sound ha'
      refine ⟨h₁, h₂, ?_⟩
      rintro v ⟨x, hx, rfl⟩
      exact h₃ x hx
    shl := by
      obtain ⟨h₁, h₂⟩ := shl_form ha' hb' flags
      refine ⟨h₁, h₂, ?_⟩
      rintro v ⟨x, hx, c, hc, hlt, hpromised, rfl⟩
      exact shl_sound ha' hb' hkeeps hx hc hlt hpromised
    lshr := by
      obtain ⟨h₁, h₂, h₃⟩ := lshr_sound ha' hb' flags
      refine ⟨h₁, h₂, ?_⟩
      rintro v ⟨x, hx, c, hc, hlt, rfl⟩
      exact h₃ x hx c hc hlt
    ashr := by
      obtain ⟨h₁, h₂, h₃⟩ := ashr_sound ha' hb' flags
      refine ⟨h₁, h₂, ?_⟩
      rintro v ⟨x, hx, c, hc, hlt, rfl⟩
      exact h₃ x hx c hc hlt
    trunc := fun target => by
      obtain ⟨h₁, h₂, h₃⟩ := trunc_sound ha' target
      refine ⟨h₁, h₂, ?_⟩
      rintro v ⟨x, hx, rfl⟩
      exact h₃ x hx
    zext := fun target => by
      obtain ⟨h₁, h₂, h₃⟩ := zext_sound ha' target
      refine ⟨h₁, h₂, ?_⟩
      rintro v ⟨x, hx, rfl⟩
      exact h₃ x hx
    sext := fun target => by
      obtain ⟨h₁, h₂, h₃⟩ := sext_sound ha' target
      refine ⟨h₁, h₂, ?_⟩
      rintro v ⟨x, hx, rfl⟩
      exact h₃ x hx }

/-- Five shifted by three. -/
theorem meets_five_three : Meets (exactly 5 8) (exactly 3 8) ⟨true, false⟩ :=
  Built.meets (.exactly 5 8) (.exactly 3 8) (fun h => absurd h.2.2.1.2 (by decide))

/-- Minus one shifted by seven in eight bits is minus 128, and the answer is empty. -/
theorem not_meets_minus_one : Built (exactly 0xff 8) ∧ Built (exactly 7 8) ∧
    ¬ Meets (exactly 0xff 8) (exactly 7 8) ⟨true, false⟩ := by
  refine ⟨.exactly 0xff 8, .exactly 7 8, fun h => ?_⟩
  have hmem : (0x80 : ℕ) ∈ Ops.shl (exactly 0xff 8) (exactly 7 8) ⟨true, false⟩ := by
    apply h.shl.2.2
    refine ⟨0xff, by decide, 7, by decide, by decide, ⟨fun _ => by decide, fun h => by cases h⟩, ?_⟩
    decide
  exact absurd hmem.2 (by decide)

end Rucc.Opt
