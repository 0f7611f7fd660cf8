import Rucc.Lib.InterchangeBits
import Rucc.Lib.Words

/-!
# Single precision in integers

`runtime/rucc-builtins/src/float.rs`: each operand is taken apart into an exact integer and the power
of two its lowest bit is worth, the two are combined exactly, and the one rounding happens at the end.

A float is its pattern, a number below `2^32`. Words are the numbers they hold and an exponent is an
integer; what would stop a build with overflow checks, or a shift by the width or more, is `none`.
-/

namespace Rucc.Builtins.Float

open Checked Words

/-- How many bits of the significand the format writes down. -/
def FRACTION : ℕ := 23

/-- What is added to an exponent before it is stored. -/
def BIAS : ℤ := 127

/-- The stored exponent of an infinity and of a not a number. -/
def TOP : ℕ := 255

def SIGN : ℕ := 0x80000000

def IMPLICIT : ℕ := 0x00800000

def FRACTION_MASK : ℕ := 0x007fffff

/-- The top bit of the fraction, which tells a quiet not a number from a signalling one. -/
def QUIET : ℕ := 0x00400000

/-- The not a number an operation with no answer produces. -/
def EMPTY_NAN : ℕ := 0x7fc00000

/-- What the lowest bit of the smallest subnormal is worth. -/
def SMALLEST : ℤ := 1 - BIAS - FRACTION

/-- How far apart two exponents have to be before the smaller operand cannot reach the answer. -/
def TOO_FAR : ℤ := 40

/-- How many bits of quotient the division makes sure of. -/
def QUOTIENT_BITS : ℕ := 40

/-- Every bit of a pattern the other way, as far as the masks below need it. -/
def complement (bits : ℕ) : ℕ := 2^32 - 1 - bits

/-- A float's magnitude taken apart: it is `significand * 2^scale`. -/
structure Parts where
  significand : ℕ
  scale : ℤ
  deriving DecidableEq, Repr

/-- The bits of a float as the parts the arithmetic works on. -/
def parts (bits : ℕ) : Option Parts := do
  let stored := (bits >>> FRACTION) &&& TOP
  let fraction := bits &&& FRACTION_MASK
  if stored = 0 then some ⟨fraction, SMALLEST⟩
  else do
    let unbiased ← checked 32 (stored - BIAS)
    let scale ← checked 32 (unbiased - FRACTION)
    some ⟨fraction ||| IMPLICIT, scale⟩

def isNan (bits : ℕ) : Bool := (bits >>> FRACTION) &&& TOP = TOP ∧ bits &&& FRACTION_MASK ≠ 0

def isInfinite (bits : ℕ) : Bool := (bits >>> FRACTION) &&& TOP = TOP ∧ bits &&& FRACTION_MASK = 0

def isZero (bits : ℕ) : Bool := bits &&& complement SIGN = 0

def quiet (bits : ℕ) : ℕ := bits ||| QUIET

def infinity (sign : ℕ) : ℕ := sign ||| (TOP <<< FRACTION)

/-- The integer kept of a magnitude once `drop` bits below it are rounded away. -/
def rounded (magnitude : ℕ) (drop : ℤ) (above : Bool) : Option ℕ := do
  if drop ≤ 0 then
    let up ← checked 32 (-drop)
    shl 128 magnitude (asU32 up)
  else if 128 ≤ drop then
    -- Everything is below the lowest bit of the answer.
    some 0
  else do
    let power ← shl 128 1 drop.toNat
    let mask ← checkedSub power 1
    let below := magnitude &&& mask
    let tie ← shl 128 1 (drop - 1).toNat
    let kept ← shr 128 magnitude drop.toNat
    if tie < below ∨ below = tie ∧ (above = true ∨ kept &&& 1 = 1) then Words.add 128 kept 1
    else some kept

/-- The pattern of a rounded integer whose lowest bit is worth `lowest`. -/
def packed (sign kept : ℕ) (lowest : ℤ) : Option ℕ :=
  if kept = 0 then some sign
  else if kept < IMPLICIT then
    -- A subnormal, whose stored exponent is zero and whose fraction is the whole significand.
    some (sign ||| kept % 2^32)
  else do
    let sum ← checked 32 (lowest + FRACTION)
    let stored ← checked 32 (sum + BIAS)
    if TOP ≤ stored then some (infinity sign)
    else do
      let exponent ← shl 32 (asU32 stored) FRACTION
      some (sign ||| exponent ||| (kept % 2^32 &&& FRACTION_MASK))

/-- Where the lowest bit of the answer has to sit: a fraction below the leading one while that is inside the
normal range, and at the bottom of the format below it. -/
def lowestBit (leading : ℤ) : Option ℤ :=
  if 1 - BIAS ≤ leading then checked 32 (leading - FRACTION) else some SMALLEST

/-- The float nearest `magnitude * 2^scale`, with `sign` for its sign bit. `above` says that the value is
a little more than that. -/
def roundFrom (sign magnitude : ℕ) (scale : ℤ) (above : Bool) : Option ℕ :=
  if magnitude = 0 then some sign
  else do
    -- Which power of two the highest set bit is worth.
    let place ← checked 32 (127 - leadingZeros 128 magnitude)
    let leading ← checked 32 (scale + place)
    let lowest ← lowestBit leading
    let drop ← checked 32 (lowest - scale)
    let kept ← rounded magnitude drop above
    if kept >>> (FRACTION + 1) ≠ 0 then do
      -- The rounding carried out of the top.
      let lowest ← checked 32 (lowest + 1)
      packed sign (kept >>> 1) lowest
    else packed sign kept lowest

/-- The sum of two floats that are finite and not zero, the larger pattern first. -/
def addParts (larger smaller left right : ℕ) : Option ℕ := do
  let opposite := (left ^^^ right) &&& SIGN ≠ 0
  let big ← parts larger
  let small ← parts smaller
  let sign := larger &&& SIGN
  let apart ← checked 32 (big.scale - small.scale)
  if TOO_FAR < apart then some larger
  else do
    let aligned ← shl 128 big.significand (asU32 apart)
    let other := small.significand
    if opposite then
      if aligned = other then some 0
      else do
        let difference ← checkedSub aligned other
        roundFrom sign difference small.scale false
    else do
      let sum ← Words.add 128 aligned other
      roundFrom sign sum small.scale false

/-- The sum of two floats, which is also the difference once the caller flips a sign. -/
def add (left right : ℕ) : Option ℕ :=
  if isNan left then some (quiet left)
  else if isNan right then some (quiet right)
  else if isInfinite left then
    if isInfinite right ∧ (left ^^^ right) &&& SIGN ≠ 0 then some EMPTY_NAN else some left
  else if isInfinite right then some right
  else if isZero left ∧ isZero right then some (left &&& right &&& SIGN)
  else if isZero left then some right
  else if isZero right then some left
  else if right &&& complement SIGN ≤ left &&& complement SIGN then addParts left right left right
  else addParts right left left right

/-- The right operand of a subtraction: its sign flipped, except for a not a number. -/
def negated (right : ℕ) : ℕ := if isNan right then right else right ^^^ SIGN

/-- The product of two floats, exact before it is rounded. -/
def multiply (left right : ℕ) : Option ℕ :=
  if isNan left then some (quiet left)
  else if isNan right then some (quiet right)
  else
    let sign := (left ^^^ right) &&& SIGN
    if isInfinite left ∨ isInfinite right then
      if isZero left ∨ isZero right then some EMPTY_NAN else some (infinity sign)
    else if isZero left ∨ isZero right then some sign
    else do
      let left ← parts left
      let right ← parts right
      let product ← mul 64 left.significand right.significand
      let scale ← checked 32 (left.scale + right.scale)
      roundFrom sign product scale false

/-- The quotient of two floats, to forty bits and a remainder that says whether there was anything after
them. -/
def divide (left right : ℕ) : Option ℕ :=
  if isNan left then some (quiet left)
  else if isNan right then some (quiet right)
  else
    let sign := (left ^^^ right) &&& SIGN
    if isInfinite left then
      if isInfinite right then some EMPTY_NAN else some (infinity sign)
    else if isInfinite right then some sign
    else if isZero right then
      if isZero left then some EMPTY_NAN else some (infinity sign)
    else if isZero left then some sign
    else do
      let left ← parts left
      let right ← parts right
      let wide ← Words.add 32 QUOTIENT_BITS (leadingZeros 64 left.significand)
      let up ← checkedSub wide (leadingZeros 64 right.significand)
      let dividend ← shl 64 left.significand up
      if right.significand = 0 then none
      else do
        let quotient := dividend / right.significand
        let above := dividend % right.significand != 0
        let apart ← checked 32 (left.scale - right.scale)
        let scale ← checked 32 (apart - up)
        roundFrom sign quotient scale above

end Rucc.Builtins.Float
