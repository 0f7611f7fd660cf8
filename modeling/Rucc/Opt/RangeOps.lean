import Rucc.Lib.Checked
import Rucc.Opt.Range

/-!
# What an operation does to a range

The table of `rucc-opt`'s `range/ops.rs`: the forward transfers, and the two inverses the query over
branches uses. The assertions on equal widths are hypotheses of the theorems about them.

The source's `expect` on the signed bounds of one interval is a default here, which is never taken:
an interval that is not empty has bounds.
-/

namespace Rucc.Opt

open U128 Checked Range

/-- The promises an instruction carries about overflow. -/
structure Flags where
  nsw : Bool
  nuw : Bool
  deriving DecidableEq

/-- No promise. -/
def Flags.NONE : Flags := ⟨false, false⟩

/-- How many values of a shift count are worth walking one at a time. -/
def COUNTS : ℕ := 16

namespace Ops

/-! ## One pairing of intervals -/

/-- How many values wide a result is, or nothing when that is all of them. -/
def span (a b width : ℕ) : Option ℕ :=
  match checkedAdd a b with
  | some span => if span < mask width then some span else none
  | none => none

/-- Every interval of one against every interval of the other, unioned. -/
def perPair (a b : Range) (each : ℕ × ℕ → ℕ × ℕ → Range) : Range :=
  if a.isEmpty || b.isEmpty then empty a.width
  else a.pairs.foldl (fun out left =>
    b.pairs.foldl (fun out right => out.union (each left right)) out) (empty a.width)

/-- The interval that starts here and runs that far, wrapping round if it has to. -/
def wrapping (lo : ℕ) (span : Option ℕ) (width : ℕ) : Range :=
  match span with
  | none => full width
  | some span =>
    let lo := lo &&& mask width
    between lo (wrappingAdd lo span &&& mask width) width

/-- The least and greatest signed values in that interval of bit patterns. -/
def asSigned (interval : ℕ × ℕ) (width : ℕ) : ℤ × ℤ :=
  ((between interval.1 interval.2 width).signedBounds).getD (0, 0)

/-- The answer for one pairing without what a signed promise says did not happen. A window is the
operation done in the integers rather than in the type. -/
def clampedSigned (wrapped : Range) (a b : ℕ × ℕ) (flags : Flags) (width : ℕ)
    (window : ℤ × ℤ → ℤ × ℤ → ℤ × ℤ) : Range :=
  if flags.nsw then
    let bounds := window (asSigned a width) (asSigned b width)
    wrapped.intersect (signedBetween bounds.1 bounds.2 width)
  else wrapped

/-- The answer for one pairing without what an unsigned promise says did not happen. -/
def clampedUnsigned (range : Range) (a b : ℕ × ℕ) (flags : Flags) (width : ℕ)
    (window : ℕ × ℕ → ℕ × ℕ → Option (ℕ × ℕ)) : Range :=
  if flags.nuw then
    match window a b with
    | some (lo, hi) =>
      if lo ≤ mask width then range.intersect (between lo (min hi (mask width)) width)
      else empty width
    -- The pairing overflowed however it came out.
    | none => empty width
  else range

/-- The wrapping answer for one pairing, narrowed by whichever overflow promises are made. -/
def clamped (wrapped : Range) (a b : ℕ × ℕ) (flags : Flags) (width : ℕ)
    (signedWindow : ℤ × ℤ → ℤ × ℤ → ℤ × ℤ)
    (unsignedWindow : ℕ × ℕ → ℕ × ℕ → Option (ℕ × ℕ)) : Range :=
  clampedUnsigned (clampedSigned wrapped a b flags width signedWindow) a b flags width
    unsignedWindow

/-! ## Arithmetic -/

/-- The sum, modulo the width, and narrowed by whatever the flags promise. -/
def add (a b : Range) (flags : Flags) : Range :=
  perPair a b fun left right =>
    clamped
      (wrapping (wrappingAdd left.1 right.1) (span (left.2 - left.1) (right.2 - right.1) a.width)
        a.width)
      left right flags a.width
      (fun a b => (saturated 128 (a.1 + b.1), saturated 128 (a.2 + b.2)))
      -- The smallest sum already leaving the type means every sum does.
      (fun p q =>
        match checkedAdd p.1 q.1 with
        | some lo => if lo ≤ mask a.width then some (lo, saturatingAdd p.2 q.2) else none
        | none => none)

/-- The difference, modulo the width, and narrowed by whatever the flags promise. -/
def sub (a b : Range) (flags : Flags) : Range :=
  perPair a b fun left right =>
    clamped
      (wrapping (wrappingSub left.1 right.2) (span (left.2 - left.1) (right.2 - right.1) a.width)
        a.width)
      left right flags a.width
      (fun a b => (saturated 128 (a.1 - b.2), saturated 128 (a.2 - b.1)))
      -- Only the largest difference going below zero rules the pairing out.
      (fun p q =>
        match checkedSub p.2 q.1 with
        | some hi => some (p.1 - q.2, hi)
        | none => none)

/-- Zero minus it, modulo the width, and narrowed by whatever the flags promise. -/
def neg (a : Range) (flags : Flags) : Range := sub (exactly 0 a.width) a flags

/-- The low bits of a product: those that are zero in either operand, whatever the top of it did. -/
def lowOfProduct (a b : Range) : Bits :=
  let zeros := min (a.bits.lowZeros + b.bits.lowZeros) a.width
  if zeros ≥ a.width then Bits.exactly 0 a.width
  else Bits.fromParts 0 (shiftLeft (mask a.width) zeros) a.width

/-- The product of two intervals when the largest product fits, and everything when it does not. -/
def checkedProduct (p q : ℕ × ℕ) (width : ℕ) : Range :=
  match checkedMul p.1 q.1, checkedMul p.2 q.2 with
  | some low, some high => if high ≤ mask width then between low high width else full width
  | _, _ => full width

/-- The product of two intervals modulo the width. One value times one value is one value, whatever
the top of it did. -/
def wrappedProduct (p q : ℕ × ℕ) (width : ℕ) : Range :=
  if p.1 = p.2 ∧ q.1 = q.2 then exactly (wrappingMul p.1 q.1) width else checkedProduct p q width

/-- The least and greatest product of the ends of two signed intervals. -/
def corners (a b : ℤ × ℤ) : ℤ × ℤ :=
  let c₁ := saturated 128 (a.1 * b.1)
  let c₂ := saturated 128 (a.1 * b.2)
  let c₃ := saturated 128 (a.2 * b.1)
  let c₄ := saturated 128 (a.2 * b.2)
  (min (min c₁ c₂) (min c₃ c₄), max (max c₁ c₂) (max c₃ c₄))

/-- The products of two intervals in the integers, or nothing when all of them leave the type. -/
def productWindow (width : ℕ) (p q : ℕ × ℕ) : Option (ℕ × ℕ) :=
  match checkedMul p.1 q.1 with
  | some lo => if lo ≤ mask width then some (lo, saturatingMul p.2 q.2) else none
  | none => none

/-- The product, modulo the width, and narrowed by whatever the flags promise. -/
def mul (a b : Range) (flags : Flags) : Range :=
  if a.isEmpty || b.isEmpty then empty a.width
  else
    (perPair a b fun left right =>
      clamped (wrappedProduct left right a.width) left right flags a.width corners
        (productWindow a.width)).narrow (lowOfProduct a b)

/-! ## Bitwise operations -/

/-- The bits known to be one. -/
def ones (a : Range) : ℕ := a.bits.value

/-- The bits known to be zero. -/
def zeros (a : Range) (width : ℕ) : ℕ :=
  complement a.bits.value &&& complement a.bits.unknown &&& mask width

/-- The bitwise and, which is no larger than either operand. -/
def and (a b : Range) : Range :=
  match a.unsignedBounds, b.unsignedBounds with
  | some (_, ah), some (_, bh) =>
    let ones := ones a &&& ones b
    let zeros := zeros a a.width ||| zeros b a.width
    let bits := Bits.fromParts ones (mask a.width &&& complement ones &&& complement zeros) a.width
    (between 0 (min ah bh) a.width).narrow bits
  | _, _ => empty a.width

/-- The bitwise or, which is no smaller than either operand. -/
def or (a b : Range) : Range :=
  match a.unsignedBounds, b.unsignedBounds with
  | some (al, _), some (bl, _) =>
    let ones := ones a ||| ones b
    let zeros := zeros a a.width &&& zeros b a.width
    let bits := Bits.fromParts ones (mask a.width &&& complement ones &&& complement zeros) a.width
    (between (max al bl) (mask a.width) a.width).narrow bits
  | _, _ => empty a.width

/-- The bitwise exclusive or, known where both operands are. -/
def xor (a b : Range) : Range :=
  if a.isEmpty || b.isEmpty then empty a.width
  else
    let known := complement a.bits.unknown &&& complement b.bits.unknown
    let value := (a.bits.value ^^^ b.bits.value) &&& known
    (full a.width).narrow (Bits.fromParts value (mask a.width &&& complement known) a.width)

/-- The bitwise complement, which reverses each interval. -/
def not (a : Range) : Range :=
  fromPairs (a.pairs.map (fun p => (mask a.width - p.2, mask a.width - p.1))) a.width

/-! ## Shifts -/

/-- Which way a shift goes and what comes in behind it. -/
inductive Kind where
  | left
  | logical
  | arithmetic
  deriving DecidableEq

/-- The shift by one count. -/
def oneShift (a : Range) (amount : ℕ) (flags : Flags) (kind : Kind) (width : ℕ) : Range :=
  match kind with
  -- A shift left is a multiply by a power of two, flags included.
  | .left => mul a (exactly (shiftLeft 1 amount) width) flags
  | .logical => fromPairs (a.pairs.map (fun p => (p.1 >>> amount, p.2 >>> amount))) width
  | .arithmetic =>
    match a.signedBounds with
    | some (lo, hi) => signedBetween (lo >>> amount) (hi >>> amount) width
    | none => empty width

/-- What holds for every count from this one up. -/
def coarse (a : Range) (low width : ℕ) (kind : Kind) : Range :=
  match kind with
  | .left => (full width).narrow (Bits.fromParts 0 (shiftLeft (mask width) low) width)
  | .logical => between 0 (mask width >>> low) width
  | .arithmetic =>
    match a.signedBounds with
    | some (lo, hi) => signedBetween (min lo 0) (max hi (-1)) width
    | none => empty width

/-- The shifts by the counts of a list, unioned, or everything when a count is too large. -/
def listedShift (a : Range) (flags : Flags) (kind : Kind) : List ℕ → Range → Range
  | [], range => range
  | amount :: counts, range =>
    if amount ≥ a.width then full a.width
    else listedShift a flags kind counts (range.union (oneShift a amount flags kind a.width))

/-- The shift with too many counts to walk: what holds for all of them, and the ends when no count
can push a bit off the top. -/
def coarseShift (a count : Range) (low : ℕ) (kind : Kind) : Range :=
  let range := coarse a low a.width kind
  match a.unsignedBounds, count.unsignedBounds with
  | some (lo, hi), some (_, most) =>
    if most < a.width then
      match kind with
      | .left =>
        if most = 0 ∨ hi >>> (a.width - most) = 0 then
          range.intersect (between (shiftLeft lo low) (shiftLeft hi most) a.width)
        else range
      | .logical => range.intersect (between (lo >>> most) (hi >>> low) a.width)
      | .arithmetic => range
    else range
  | _, _ => range

/-- The shift, walking the counts one at a time where there are few enough of them. -/
def shift (a count : Range) (flags : Flags) (kind : Kind) : Range :=
  if a.isEmpty || count.isEmpty then empty a.width
  else
    match count.unsignedBounds with
    | none => empty a.width
    | some (low, _) =>
      -- A count at or above the width has no defined answer, so nothing is ruled out.
      if low ≥ a.width then full a.width
      else
        match count.list COUNTS with
        | some counts => listedShift a flags kind counts (empty a.width)
        | none => coarseShift a count low kind

/-- The value shifted left by the count, modulo the width. -/
def shl (a count : Range) (flags : Flags) : Range := shift a count flags .left

/-- The value shifted right by the count with zeroes coming in. -/
def lshr (a count : Range) (flags : Flags) : Range := shift a count flags .logical

/-- The value shifted right by the count with the sign bit coming in. -/
def ashr (a count : Range) (flags : Flags) : Range := shift a count flags .arithmetic

/-! ## Casts -/

/-- An interval cut to the low bits, which is one interval or wraps round into two. -/
def cut (target : ℕ) (p : ℕ × ℕ) : List (ℕ × ℕ) :=
  let lo := p.1 &&& mask target
  let hi := p.2 &&& mask target
  if lo ≤ hi then [(lo, hi)] else [(0, hi), (lo, mask target)]

/-- The low bits of it, at the narrower width. -/
def trunc (a : Range) (target : ℕ) : Range :=
  let target := clamp target
  if a.pairs.any (fun p => p.2 - p.1 ≥ mask target) then full target
  else fromPairs (a.pairs.flatMap (cut target)) target

/-- It at the wider width with zeroes on top. -/
def zext (a : Range) (target : ℕ) : Range :=
  let target := clamp target
  if target ≤ a.width then trunc a target
  else (fromPairs a.pairs target).narrow (Bits.fromParts 0 (mask a.width) target)

/-- An interval split at the sign boundary, the part above it lifted to the top of the wider type. -/
def lifted (boundary lift : ℕ) (p : ℕ × ℕ) : List (ℕ × ℕ) :=
  (if p.1 < boundary then [(p.1, min p.2 (boundary - 1))] else []) ++
    (if p.2 ≥ boundary then [(max p.1 boundary + lift, p.2 + lift)] else [])

/-- It at the wider width with the sign bit on top. -/
def sext (a : Range) (target : ℕ) : Range :=
  let target := clamp target
  if target ≤ a.width then trunc a target
  else fromPairs (a.pairs.flatMap (lifted (signBit a.width) (mask target - mask a.width))) target

/-! ## Inverses -/

/-- A comparison of integers. -/
inductive IntPred where
  | eq | ne | ult | ule | ugt | uge | slt | sle | sgt | sge
  deriving DecidableEq

/-- What the left operand of a comparison that holds with a right operand of these bounds can be.
`none` is the one comparison that rules nothing out. -/
def allowed (pred : IntPred) (b : Range) (ul uh : ℕ) (sl sh : ℤ) (width : ℕ) : Option Range :=
  let low := (signedLimits width).1
  let high := (signedLimits width).2
  match pred with
  | .eq => some b
  | .ne => b.singleton.map (fun value => otherThan value width)
  | .ult => some (if uh = 0 then empty width else between 0 (uh - 1) width)
  | .ule => some (between 0 uh width)
  | .ugt => some (if ul = mask width then empty width else between (ul + 1) (mask width) width)
  | .uge => some (between ul (mask width) width)
  | .slt => some (signedBetween low (saturated 128 (sh - 1)) width)
  | .sle => some (signedBetween low sh width)
  | .sgt => some (signedBetween (saturated 128 (sl + 1)) high width)
  | .sge => some (signedBetween sl high width)

/-- What the left operand can be given that the comparison holds. -/
def narrowFor (pred : IntPred) (a b : Range) : Range :=
  match b.unsignedBounds, b.signedBounds with
  | some (ul, uh), some (sl, sh) =>
    if a.isEmpty then empty a.width
    else
      match allowed pred b ul uh sl sh a.width with
      | some allowed => a.intersect allowed
      | none => a
  | _, _ => empty a.width

/-- Which operation an inverse is being asked for. -/
inductive Undo where
  | addLeft | subRight | subLeft | neg | not | xor
  | zext (source : ℕ)
  | sext (source : ℕ)
  | uDiv (divisor : ℕ)

/-- The operands an unsigned division by a constant takes into an interval of quotients. -/
def dividends (divisor top : ℕ) (p : ℕ × ℕ) : ℕ × ℕ :=
  (p.1 * divisor, min (saturatingAdd (p.2 * divisor) (divisor - 1)) top)

/-- What the operand must have been for the operation to have produced this. -/
def backward (undo : Undo) (result other : Range) : Range :=
  match undo with
  | .addLeft => sub result other Flags.NONE
  | .subRight => sub other result Flags.NONE
  | .subLeft => add result other Flags.NONE
  | .neg => neg result Flags.NONE
  | .not => not result
  | .xor => xor result other
  | .zext source => trunc (result.intersect (zext (full source) result.width)) source
  | .sext source => trunc (result.intersect (sext (full source) result.width)) source
  | .uDiv divisor =>
    if divisor = 0 then full result.width
    else
      let fits := result.intersect (between 0 (mask result.width / divisor) result.width)
      fromPairs (fits.pairs.map (dividends divisor (mask result.width))) result.width

end Ops

end Rucc.Opt
