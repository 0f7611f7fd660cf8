import Rucc.Builtins.Wide
import Rucc.Lib.InterchangeBits

/-!
# Quad precision in integers

`runtime/rucc-builtins/src/quad.rs`: each operand is taken apart into an exact integer and the power of
two its lowest bit is worth, the two are combined exactly in a `Wide`, and the one rounding happens at
the end. Below that are the order of two quads and the conversions to and from integers.

A quad is its pattern, a number below `2^128`. Words are the numbers they hold and an exponent is an
integer; what would stop a build with overflow checks, a shift by the width or more, and a bit that a
`Wide` would lose, is `none`.
-/

namespace Rucc.Builtins.Quad

open Checked Words

/-- How many bits of the significand the format writes down. -/
def FRACTION : ℕ := 112

/-- What is added to an exponent before it is stored. -/
def BIAS : ℤ := 16383

/-- The stored exponent of an infinity and of a not a number. -/
def TOP : ℕ := 32767

def SIGN : ℕ := 2^127

def IMPLICIT : ℕ := 2^FRACTION

def FRACTION_MASK : ℕ := IMPLICIT - 1

/-- The top bit of the fraction, which tells a quiet not a number from a signalling one. -/
def QUIET : ℕ := 2^(FRACTION - 1)

/-- The not a number an operation with no answer produces. -/
def EMPTY_NAN : ℕ := (TOP <<< FRACTION) ||| QUIET

/-- What the lowest bit of the smallest subnormal is worth. -/
def SMALLEST : ℤ := 1 - BIAS - FRACTION

/-- How far apart two exponents have to be before the smaller operand cannot reach the answer. -/
def TOO_FAR : ℤ := 128

/-- How many bits of quotient the division makes sure of. -/
def QUOTIENT_BITS : ℕ := 128

/-- Every bit of a pattern the other way. -/
def complement (bits : ℕ) : ℕ := U128.complement bits

/-- A quad's magnitude taken apart: it is `significand * 2^scale`. -/
structure Parts where
  significand : ℕ
  scale : ℤ
  deriving DecidableEq, Repr

/-- The bits of a quad as the parts the arithmetic works on. -/
def parts (bits : ℕ) : Option Parts := do
  let stored := (bits >>> FRACTION) &&& TOP
  let fraction := bits &&& FRACTION_MASK
  if stored = 0 then some ⟨fraction, SMALLEST⟩
  else do
    let unbiased ← checked 32 (stored - BIAS)
    let scale ← checked 32 (unbiased - FRACTION)
    some ⟨fraction ||| IMPLICIT, scale⟩

def isNan (bits : ℕ) : Bool := (bits >>> FRACTION) &&& TOP = TOP ∧ bits &&& FRACTION_MASK ≠ 0

def isInfinite (bits : ℕ) : Bool := (bits >>> FRACTION) &&& TOP = TOP ∧ bits &&& FRACTION_MASK = 0

def isZero (bits : ℕ) : Bool := bits &&& complement SIGN = 0

def quiet (bits : ℕ) : ℕ := bits ||| QUIET

def infinity (sign : ℕ) : ℕ := sign ||| (TOP <<< FRACTION)

/-! ## Rounding -/

/-- Where the lowest bit of the answer has to sit: a fraction below the leading one while that is inside the
normal range, and at the bottom of the format below it. -/
def lowestBit (leading : ℤ) : Option ℤ :=
  if 1 - BIAS ≤ leading then checked 32 (leading - FRACTION) else some SMALLEST

/-- The integer kept of a magnitude once `drop` bits below it are rounded away. -/
def rounded (magnitude : Wide) (drop : ℤ) (above : Bool) : Option Wide := do
  if drop ≤ 0 then
    let up ← checked 32 (-drop)
    magnitude.shiftedUp (asU32 up)
  else if 256 ≤ drop then
    -- Everything is below the lowest bit of the answer.
    some Wide.ZERO
  else do
    let below := magnitude.lowBits drop.toNat
    let tie ← (Wide.narrow 1).shiftedUp (drop.toNat - 1)
    let kept := magnitude.shiftedDown drop.toNat
    if tie.lt below ∨ below = tie ∧ (above = true ∨ kept.low &&& 1 = 1) then
      kept.plus (Wide.narrow 1)
    else some kept

/-- The pattern of a rounded integer whose lowest bit is worth `lowest`. -/
def packed (sign : ℕ) (kept : Wide) (lowest : ℤ) : Option ℕ :=
  if kept.isZero then some sign
  else if kept.low < IMPLICIT then
    -- A subnormal, whose stored exponent is zero and whose fraction is the whole significand.
    some (sign ||| kept.low)
  else do
    let sum ← checked 32 (lowest + FRACTION)
    let stored ← checked 32 (sum + BIAS)
    if TOP ≤ stored then some (infinity sign)
    else do
      let exponent ← shl 128 stored.toNat FRACTION
      some (sign ||| exponent ||| (kept.low &&& FRACTION_MASK))

/-- The quad nearest `magnitude * 2^scale`, with `sign` for its sign bit. `above` says that the value is a
little more than that. -/
def roundFrom (sign : ℕ) (magnitude : Wide) (scale : ℤ) (above : Bool) : Option ℕ :=
  if magnitude.isZero then some sign
  else do
    -- Which power of two the highest set bit is worth.
    let past ← checked 32 (scale + magnitude.bits)
    let leading ← checked 32 (past - 1)
    let lowest ← lowestBit leading
    let drop ← checked 32 (lowest - scale)
    let kept ← rounded magnitude drop above
    if FRACTION + 1 < kept.bits then do
      -- The rounding carried out of the top.
      let lowest ← checked 32 (lowest + 1)
      packed sign (kept.shiftedDown 1) lowest
    else packed sign kept lowest

/-! ## The operations -/

/-- The sum of two quads that are finite and not zero, the larger pattern first. -/
def addParts (larger smaller left right : ℕ) : Option ℕ := do
  let opposite := (left ^^^ right) &&& SIGN ≠ 0
  let big ← parts larger
  let small ← parts smaller
  let sign := larger &&& SIGN
  let apart ← checked 32 (big.scale - small.scale)
  if TOO_FAR < apart then some larger
  else do
    let aligned ← (Wide.narrow big.significand).shiftedUp (asU32 apart)
    let other := Wide.narrow small.significand
    if opposite then
      if aligned = other then some 0
      else do
        let difference ← aligned.minus other
        roundFrom sign difference small.scale false
    else do
      let sum ← aligned.plus other
      roundFrom sign sum small.scale false

/-- The sum of two quads, which is also the difference once the caller flips a sign. -/
def add (left right : ℕ) : Option ℕ :=
  if isNan left then some (quiet left)
  else if isNan right then some (quiet right)
  else if isInfinite left then
    if isInfinite right ∧ (left ^^^ right) &&& SIGN ≠ 0 then some EMPTY_NAN else some left
  else if isInfinite right then some right
  else if isZero left ∧ isZero right then some (left &&& right &&& SIGN)
  else if isZero left then some right
  else if isZero right then some left
  else if right &&& complement SIGN ≤ left &&& complement SIGN then addParts left right left right
  else addParts right left left right

/-- The right operand of a subtraction: its sign flipped, except for a not a number. -/
def negated (right : ℕ) : ℕ := if isNan right then right else right ^^^ SIGN

/-- The product of two quads, exact before it is rounded. -/
def multiply (left right : ℕ) : Option ℕ :=
  if isNan left then some (quiet left)
  else if isNan right then some (quiet right)
  else
    let sign := (left ^^^ right) &&& SIGN
    if isInfinite left ∨ isInfinite right then
      if isZero left ∨ isZero right then some EMPTY_NAN else some (infinity sign)
    else if isZero left ∨ isZero right then some sign
    else do
      let left ← parts left
      let right ← parts right
      let product ← wideProduct left.significand right.significand
      let scale ← checked 32 (left.scale + right.scale)
      roundFrom sign product scale false

/-- The quotient of two quads, to a hundred and twenty eight bits and a remainder that says whether there was
anything after them. -/
def divide (left right : ℕ) : Option ℕ :=
  if isNan left then some (quiet left)
  else if isNan right then some (quiet right)
  else
    let sign := (left ^^^ right) &&& SIGN
    if isInfinite left then
      if isInfinite right then some EMPTY_NAN else some (infinity sign)
    else if isInfinite right then some sign
    else if isZero right then
      if isZero left then some EMPTY_NAN else some (infinity sign)
    else if isZero left then some sign
    else do
      let left ← parts left
      let right ← parts right
      let wide ← Words.add 32 QUOTIENT_BITS (leadingZeros 128 left.significand)
      let up ← checkedSub wide (leadingZeros 128 right.significand)
      let dividend ← (Wide.narrow left.significand).shiftedUp up
      let (quotient, above) ← divideWide dividend right.significand
      let apart ← checked 32 (left.scale - right.scale)
      let scale ← checked 32 (apart - up)
      roundFrom sign quotient scale above

/-! ## Order -/

/-- The comparison of two magnitudes that are not zero: which power of two the highest bit of each is worth,
and where those agree the two significands with their highest bits in the same place. -/
def orderParts (left right : Parts) : Option Ordering := do
  let leftPlace ← checked 32 (127 - leadingZeros 128 left.significand)
  let leftTop ← checked 32 (left.scale + leftPlace)
  let rightPlace ← checked 32 (127 - leadingZeros 128 right.significand)
  let rightTop ← checked 32 (right.scale + rightPlace)
  let leftLined ← shl 128 left.significand (leadingZeros 128 left.significand)
  let rightLined ← shl 128 right.significand (leadingZeros 128 right.significand)
  some ((compare leftTop rightTop).then (compare leftLined rightLined))

/-- The comparison of two quads that are numbers. -/
def order (left right : ℕ) : Option Ordering := do
  let leftParts ← parts left
  let rightParts ← parts right
  let leftNegative := left &&& SIGN ≠ 0
  let rightNegative := right &&& SIGN ≠ 0
  if leftParts.significand = 0 ∧ rightParts.significand = 0 then some .eq
  else if leftParts.significand = 0 then some (if rightNegative then .gt else .lt)
  else if rightParts.significand = 0 then some (if leftNegative then .lt else .gt)
  else if leftNegative ↔ rightNegative then do
    let magnitudes ← orderParts leftParts rightParts
    some (if leftNegative then magnitudes.swap else magnitudes)
  else some (if leftNegative then .lt else .gt)

/-! ## Integers -/

/-- The quad nearest an integer, with the sign handed in separately. -/
def quadFromInteger (sign magnitude : ℕ) : Option ℕ :=
  roundFrom sign (Wide.narrow magnitude) 0 false

/-- The integer side of a quad, as a sign and a magnitude, and nothing where the magnitude is past the power
of two `widest`. -/
def integerFromQuad (bits : ℕ) (widest : ℤ) : Option (Option (ℕ × ℕ)) := do
  if (bits >>> FRACTION) &&& TOP = TOP then some none
  else do
    let sign := bits &&& SIGN
    let parts ← parts bits
    if parts.significand = 0 then some (some (sign, 0))
    else do
      let leading ← checked 32 (parts.scale + parts.significand.log2)
      if widest < leading then some none
      else if 0 ≤ parts.scale then do
        let magnitude ← shl 128 parts.significand parts.scale.toNat
        some (some (sign, magnitude))
      else do
        let down ← checked 32 (-parts.scale)
        if 128 ≤ down then some (some (sign, 0))
        else do
          let magnitude ← shr 128 parts.significand down.toNat
          some (some (sign, magnitude))

/-- The integer part held to the bounds of a signed type. `bound` is the largest magnitude that the type holds
going down, and one more than the largest it holds going up. -/
def truncate (bits bound : ℕ) : Option (Option ℤ) := do
  if bound = 0 then none
  else do
    match ← integerFromQuad bits bound.log2 with
    | none => some none
    | some (sign, magnitude) =>
      let negative := sign ≠ 0 ∧ magnitude ≠ 0
      let largest := if negative then bound else bound - 1
      if largest < magnitude then some none
      else some (some (if negative then U128.toI128 (U128.wrappingSub 0 magnitude)
        else U128.toI128 magnitude))

/-- The integer part held to the bounds of an unsigned type, whose largest value is `bound`. -/
def truncateUnsigned (bits bound : ℕ) : Option (Option ℕ) := do
  if bound = 0 then none
  else do
    match ← integerFromQuad bits bound.log2 with
    | none => some none
    | some (sign, magnitude) =>
      if sign ≠ 0 ∧ magnitude ≠ 0 then some none
      else if bound < magnitude then some none
      else some (some magnitude)

end Rucc.Builtins.Quad
