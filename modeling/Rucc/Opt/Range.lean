import Mathlib.Data.List.Sort
import Rucc.Lib.Intervals
import Rucc.Lib.U128

/-!
# What values an integer can hold

The ranges of `rucc-opt`'s `range.rs`: at most `PAIRS` closed intervals over the unsigned reading of
a bit pattern, and the bits that are known, at a width from 1 to 128.

The intervals are a list, where the source keeps an array and a count. `Bits` carries the canonical
form its constructors keep. What a range needs beyond that is `Range.WellFormed`, which
`Rucc/Opt/RangeSpec.lean` and `Rucc/Opt/RangeSound.lean` prove of everything the module builds.
-/

namespace Rucc.Opt

open KnownBits Intervals U128

variable {width v : ℕ}

/-- How many intervals a range holds before the rest collapse to their hull. -/
def PAIRS : ℕ := 3

/-- The widest integer a range is about. -/
def MAX_BITS : ℕ := 128

/-- Every bit of that width set. -/
def mask (width : ℕ) : ℕ := if width ≥ MAX_BITS then MAX else (1 <<< width) - 1

/-- The lowest bit pattern that reads as negative at that width. -/
def signBit (width : ℕ) : ℕ := 1 <<< (width - 1)

/-- The bit pattern read as a signed number: up to the top of the word and back down again. -/
def signed (value width : ℕ) : ℤ := toI128 (shiftLeft value (MAX_BITS - width)) >>> (MAX_BITS - width)

/-- The least and greatest signed numbers of that width. -/
def signedLimits (width : ℕ) : ℤ × ℤ :=
  if width ≥ MAX_BITS then (-2^127, 2^127 - 1)
  else (-(1 <<< (width - 1) : ℕ), (1 <<< (width - 1) : ℕ) - 1)

/-- A width a range can have. -/
def clamp (width : ℕ) : ℕ :=
  if width = 0 then 1 else if width > MAX_BITS then MAX_BITS else width

theorem mask_eq (h : width ≤ 128) : mask width = 2^width - 1 := by
  unfold mask MAX_BITS MAX
  split_ifs with hw
  · rw [show width = 128 by omega]
  · rw [Nat.one_shiftLeft]

theorem mask_le (width : ℕ) : mask width ≤ MAX := by
  unfold mask MAX_BITS
  split_ifs with hw
  · exact le_rfl
  · rw [Nat.one_shiftLeft]
    exact Nat.sub_le_sub_right (Nat.pow_le_pow_right (by norm_num) (by omega)) 1

theorem mask_lt (width : ℕ) : mask width < 2^128 := by
  have := mask_le width
  unfold MAX at this
  omega

theorem and_mask (h : width ≤ 128) (v : ℕ) : v &&& mask width = v % 2^width := by
  rw [mask_eq h, Nat.and_two_pow_sub_one_eq_mod]

theorem and_mask_le (v width : ℕ) : v &&& mask width ≤ mask width := Nat.and_le_right

theorem le_mask_iff (h : width ≤ 128) : v ≤ mask width ↔ v < 2^width := by
  have hpos : 0 < 2^width := by positivity
  rw [mask_eq h]
  omega

theorem and_mask_of_le (hw : width ≤ 128) (h : v ≤ mask width) : v &&& mask width = v := by
  rw [and_mask hw, Nat.mod_eq_of_lt ((le_mask_iff hw).mp h)]

theorem clamp_bounds (width : ℕ) : 1 ≤ clamp width ∧ clamp width ≤ 128 := by
  unfold clamp MAX_BITS
  split_ifs <;> omega

theorem clamp_of_bounds (h₁ : 1 ≤ width) (h₂ : width ≤ 128) : clamp width = width := by
  unfold clamp MAX_BITS
  split_ifs <;> omega

@[simp]
theorem clamp_clamp (width : ℕ) : clamp (clamp width) = clamp width :=
  clamp_of_bounds (clamp_bounds width).1 (clamp_bounds width).2

/-! ## Known bits -/

/-- Which bits of a value are known, and what they are. A bit set in `unknown` could be either, and
is clear in `value`. -/
structure Bits where
  value : ℕ
  unknown : ℕ
  value_lt : value < 2^128
  unknown_lt : unknown < 2^128
  canonical : value &&& unknown = 0
  deriving DecidableEq

namespace Bits

/-- Nothing known at this width. This is the source's `Bits::unknown`. -/
def nothing (width : ℕ) : Bits := ⟨0, mask width, by norm_num, mask_lt width, Nat.zero_and _⟩

/-- Every bit known, and these are they. -/
def exactly (value width : ℕ) : Bits :=
  ⟨value &&& mask width, 0, Nat.and_lt_two_pow _ (mask_lt width), by norm_num, Nat.and_zero _⟩

/-- The bits that are known, as a mask. -/
def known (b : Bits) (width : ℕ) : ℕ := complement b.unknown &&& mask width

/-- The smallest value these bits allow. -/
def min (b : Bits) : ℕ := b.value

/-- The largest. -/
def max (b : Bits) : ℕ := b.value ||| b.unknown

/-- Whether this value is one these bits allow. -/
def allows (b : Bits) (value : ℕ) : Bool := value &&& complement b.unknown == b.value

/-- Bits from a value and a mask of which of them mean nothing. -/
def fromParts (value unknown width : ℕ) : Bits :=
  ⟨value &&& mask width &&& complement (unknown &&& mask width), unknown &&& mask width,
    Nat.and_lt_two_pow _ (complement_lt _), Nat.and_lt_two_pow _ (mask_lt width),
    and_complement_and _ (Nat.and_lt_two_pow _ (mask_lt width))⟩

/-- How many low bits are known to be zero. -/
def lowZeros (b : Bits) : ℕ := trailingZeros (b.value ||| b.unknown)

/-- Everything both of these know, or nothing when they contradict each other. -/
def meet (b other : Bits) : Option Bits :=
  let both := b.known MAX_BITS &&& other.known MAX_BITS
  if b.value &&& both ≠ other.value &&& both then none
  else some ⟨(b.value ||| other.value) &&& complement (b.unknown &&& other.unknown),
    b.unknown &&& other.unknown, Nat.and_lt_two_pow _ (complement_lt _),
    Nat.and_lt_two_pow _ other.unknown_lt,
    and_complement_and _ (Nat.and_lt_two_pow _ other.unknown_lt)⟩

/-- The bits that are unknown in either, or known and different. -/
def joinUnknown (b other : Bits) : ℕ := b.unknown ||| other.unknown ||| (b.value ^^^ other.value)

theorem joinUnknown_lt (b other : Bits) : b.joinUnknown other < 2^128 :=
  Nat.or_lt_two_pow (Nat.or_lt_two_pow b.unknown_lt other.unknown_lt)
    (Nat.xor_lt_two_pow b.value_lt other.value_lt)

/-- Only what both of these agree on. -/
def join (b other : Bits) : Bits :=
  ⟨b.value &&& complement (b.joinUnknown other), b.joinUnknown other,
    Nat.and_lt_two_pow _ (complement_lt _), b.joinUnknown_lt other,
    and_complement_and _ (b.joinUnknown_lt other)⟩

/-- The bits at and below the highest one where the two ends of an interval differ. -/
def below (lo hi : ℕ) : ℕ := if lo ^^^ hi = 0 then 0 else MAX >>> leadingZeros (lo ^^^ hi)

/-- The bits every value in this interval agrees on, which is the prefix the two ends share. -/
def ofInterval (lo hi width : ℕ) : Bits :=
  ⟨lo &&& complement (below lo hi &&& mask width), below lo hi &&& mask width,
    Nat.and_lt_two_pow _ (complement_lt _), Nat.and_lt_two_pow _ (mask_lt width),
    and_complement_and _ (Nat.and_lt_two_pow _ (mask_lt width))⟩

/-- No bit past the width is known to be set or unknown. -/
def Inside (b : Bits) (width : ℕ) : Prop := b.value < 2^width ∧ b.unknown < 2^width

end Bits

/-! ## Ranges -/

/-- What an integer value can be. -/
structure Range where
  pairs : List (ℕ × ℕ)
  width : ℕ
  bits : Bits
  deriving DecidableEq

namespace Range

/-- Nothing at all. -/
def empty (width : ℕ) : Range := ⟨[], clamp width, ⟨0, 0, by norm_num, by norm_num, by norm_num⟩⟩

/-- Every value of this width. -/
def full (width : ℕ) : Range := ⟨[(0, mask (clamp width))], clamp width, Bits.nothing (clamp width)⟩

/-- One value. -/
def exactly (value width : ℕ) : Range :=
  let width := clamp width
  let value := value &&& mask width
  ⟨[(value, value)], width, Bits.exactly value width⟩

/-- Whether nothing is in it. -/
def isEmpty (r : Range) : Bool := r.pairs.isEmpty

/-- Whether everything is in it. -/
def isFull (r : Range) : Bool :=
  match r.pairs with
  | [(0, hi)] => hi == mask r.width
  | _ => false

/-- The bits every interval agrees on. -/
def bitsOfPairs (pairs : List (ℕ × ℕ)) (width : ℕ) : Bits :=
  match pairs with
  | [] => ⟨0, 0, by norm_num, by norm_num, by norm_num⟩
  | (lo, hi) :: rest =>
    rest.foldl (fun had p => had.join (Bits.ofInterval p.1 p.2 width)) (Bits.ofInterval lo hi width)

/-- The intervals with one more, which starts no lower than any of them: what overlaps or touches is
merged, and so is everything past the last interval there is room for. -/
def push (pairs : List (ℕ × ℕ)) (next : ℕ × ℕ) : List (ℕ × ℕ) :=
  match pairs.getLast? with
  | none => [next]
  | some last =>
    if next.1 ≤ saturatingAdd last.2 1 ∨ pairs.length = PAIRS then
      pairs.dropLast ++ [(last.1, max last.2 next.2)]
    else pairs ++ [next]

/-- The range of intervals that are in bounds and in order. -/
def merged (sorted : List (ℕ × ℕ)) (width : ℕ) : Range :=
  let pairs := sorted.foldl push []
  ⟨pairs, width, bitsOfPairs pairs width⟩

/-- The order the source sorts intervals in. -/
def Before (p q : ℕ × ℕ) : Prop := p.1 < q.1 ∨ (p.1 = q.1 ∧ p.2 ≤ q.2)

instance : DecidableRel Before := fun _ _ => inferInstanceAs (Decidable (_ ∨ _))

/-- The intervals cut to the width, without the ones that come out backwards. -/
def inBounds (pairs : List (ℕ × ℕ)) (width : ℕ) : List (ℕ × ℕ) :=
  (pairs.map (fun p => (p.1 &&& mask width, p.2 &&& mask width))).filter (fun p => p.1 ≤ p.2)

/-- A range from intervals that need not be sorted, disjoint or in bounds. The source sorts on the
stack up to nine of them and on the heap beyond, to the same effect. -/
def fromPairs (pairs : List (ℕ × ℕ)) (width : ℕ) : Range :=
  let width := clamp width
  let masked := inBounds pairs width
  if masked.IsChain Before then merged masked width
  else merged (masked.insertionSort Before) width

/-- Every bit pattern from one bound to the other, wrapping if the low bound is above the high. -/
def between (lo hi width : ℕ) : Range :=
  let width := clamp width
  let lo := lo &&& mask width
  let hi := hi &&& mask width
  if lo ≤ hi then fromPairs [(lo, hi)] width else fromPairs [(0, hi), (lo, mask width)] width

/-- Every value from one signed bound to the other. -/
def signedBetween (lo hi : ℤ) (width : ℕ) : Range :=
  let width := clamp width
  let low := (signedLimits width).1
  let high := (signedLimits width).2
  if lo > hi ∨ lo > high ∨ hi < low then empty width
  else between (fromI128 (max lo low)) (fromI128 (min hi high)) width

/-- Every value except this one. -/
def otherThan (value width : ℕ) : Range :=
  let width := clamp width
  let value := value &&& mask width
  fromPairs ((if value > 0 then [(0, value - 1)] else []) ++
    (if value < mask width then [(value + 1, mask width)] else [])) width

/-- The interval cut to the bounds the bits allow. -/
def clip (bits : Bits) (p : ℕ × ℕ) : ℕ × ℕ := (max p.1 bits.min, min p.2 bits.max)

/-- The ends moved inwards to multiples of a power of two, or nothing when there is none above. -/
def roundTo (step : ℕ) (p : ℕ × ℕ) : Option (ℕ × ℕ) := do
  let lo ← checkedAdd p.1 (step - 1)
  some (lo &&& complement (step - 1), p.2 &&& complement (step - 1))

/-- The power of two every value with these bits is a multiple of. -/
def step (bits : Bits) (width : ℕ) : ℕ :=
  if bits.lowZeros = 0 ∨ bits.lowZeros ≥ width then 1 else 1 <<< bits.lowZeros

/-- The intervals with their ends moved in to the nearest values the bits allow. -/
def pulledIn (bits : Bits) (width : ℕ) (pairs : List (ℕ × ℕ)) : List (ℕ × ℕ) :=
  (((pairs.map (clip bits)).filter (fun p => p.1 ≤ p.2)).filterMap
    (roundTo (step bits width))).filter (fun p => p.1 ≤ p.2)

/-- The intervals pulled in to bits that are known, with the bits recomputed from what survived. -/
def walked (r : Range) (bits : Bits) : Range :=
  let range := fromPairs (pulledIn bits r.width r.pairs) r.width
  match range.bits.meet bits with
  | some bits => { range with bits }
  | none => empty r.width

/-- The same intervals with these bits also known. -/
def narrow (r : Range) (bits : Bits) : Range :=
  match r.bits.meet bits with
  | none => empty r.width
  | some bits =>
    if r.isEmpty then r
    else if bits.unknown = 0 then
      if r.pairs.any (fun p => p.1 ≤ bits.value && bits.value ≤ p.2) then
        exactly bits.value r.width
      else empty r.width
    else if bits = r.bits ∧ r.isFull then r
    else r.walked bits

/-- Every value in it, or nothing when there are more than that many. -/
def list (r : Range) (limit : ℕ) : Option (List ℕ) :=
  r.pairs.foldlM (fun values p =>
    if p.2 - p.1 ≥ limit then none
    else if values.length + (p.2 - p.1 + 1) > limit then none
    else some (values ++ (List.range' p.1 (p.2 - p.1 + 1)))) []

/-- The one value in it, if there is exactly one. -/
def singleton (r : Range) : Option ℕ :=
  match r.pairs with
  | [(lo, hi)] => if lo = hi then some lo else none
  | _ => none

/-- Whether this value is in it. -/
def contains (r : Range) (value : ℕ) : Bool :=
  let value := value &&& mask r.width
  r.bits.allows value && r.pairs.any (fun p => p.1 ≤ value && value ≤ p.2)

/-- The least and greatest, read as unsigned. -/
def unsignedBounds (r : Range) : Option (ℕ × ℕ) := do
  some ((← r.pairs.head?).1, (← r.pairs.getLast?).2)

/-- The least value read as signed: the first at or above the sign boundary, or the first of all. -/
def signedLeast (r : Range) (first : ℕ × ℕ) : ℤ :=
  match r.pairs.find? (fun p => decide (signBit r.width ≤ p.2)) with
  | some p => signed (max p.1 (signBit r.width)) r.width
  | none => signed first.1 r.width

/-- The greatest value read as signed: the last below the sign boundary, or the last of all. -/
def signedGreatest (r : Range) (last : ℕ × ℕ) : ℤ :=
  match r.pairs.reverse.find? (fun p => decide (p.1 < signBit r.width)) with
  | some p => signed (min p.2 (signBit r.width - 1)) r.width
  | none => signed last.2 r.width

/-- The least and greatest, read as signed at this width. -/
def signedBounds (r : Range) : Option (ℤ × ℤ) := do
  some (r.signedLeast (← r.pairs.head?), r.signedGreatest (← r.pairs.getLast?))

/-- Everything in either of them. -/
def union (r other : Range) : Range :=
  if r.isEmpty then other
  else if other.isEmpty then r
  else (fromPairs (r.pairs ++ other.pairs) r.width).narrow (r.bits.join other.bits)

/-- The overlaps of the intervals of one with the intervals of the other. -/
def overlaps (pairs others : List (ℕ × ℕ)) : List (ℕ × ℕ) :=
  pairs.flatMap (fun p => (others.map (fun q => (max p.1 q.1, min p.2 q.2))).filter
    (fun p => p.1 ≤ p.2))

/-- Everything in both of them. -/
def intersect (r other : Range) : Range :=
  ((fromPairs (overlaps r.pairs other.pairs) r.width).narrow r.bits).narrow other.bits

/-- The gaps between the intervals from `next` up. -/
def gaps (top : ℕ) : List (ℕ × ℕ) → ℕ → List (ℕ × ℕ)
  | [], next => if next ≤ top then [(next, top)] else []
  | (lo, hi) :: rest, next =>
    (if lo > next then [(next, lo - 1)] else []) ++
      -- Nothing is above an interval that ends at the largest word.
      match checkedAdd hi 1 with
      | none => []
      | some after => gaps top rest after

/-- Everything of this width that is not in it. -/
def invert (r : Range) : Range := fromPairs (gaps (mask r.width) r.pairs 0) r.width

/-- A value of the range's width that is in the range. -/
instance : Membership ℕ Range := ⟨fun r v => v < 2^r.width ∧ r.contains v = true⟩

instance (v : ℕ) (r : Range) : Decidable (v ∈ r) :=
  inferInstanceAs (Decidable (v < 2^r.width ∧ r.contains v = true))

/-- At most `PAIRS` intervals, ascending, disjoint, not touching and inside the width, and bits
inside the width. -/
structure WellFormed (r : Range) : Prop where
  one_le_width : 1 ≤ r.width
  width_le : r.width ≤ 128
  length_le : r.pairs.length ≤ PAIRS
  separated : Separated r.pairs
  inside : Inside (mask r.width) r.pairs
  bits_inside : r.bits.Inside r.width

end Range

end Rucc.Opt
