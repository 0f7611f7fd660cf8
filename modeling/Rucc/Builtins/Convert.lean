import Rucc.Lib.InterchangeBits
import Rucc.Lib.Words

/-!
# Converting between a 128-bit integer and a float

`runtime/rucc-builtins/src/convert.rs`: a float is built out of its bits around the highest set bit of the
integer, and an integer out of the fields of a float, for the two formats the file has.

A float is its pattern. Words are the numbers they hold; what would stop a build with overflow checks, or a
shift by the width or more, is `none`.
-/

namespace Rucc.Builtins.Convert

open Checked Words Interchange

/-- A binary float format, as the widths of the two fields it stores. -/
structure Format where
  mantissa : ℕ
  exponent : ℕ

/-- `f32`, as the format. -/
def SINGLE : Format := ⟨23, 8⟩

/-- `f64`, as the format. -/
def DOUBLE : Format := ⟨52, 11⟩

namespace Format

/-- What is added to an exponent to store it. -/
def bias (format : Format) : ℤ := 2^(format.exponent - 1) - 1

/-- The largest exponent a finite value of this format has. -/
def top (format : Format) : ℤ := format.bias

/-- The bit pattern of an infinity of this format, without the sign. -/
def infinity (format : Format) : Option ℕ := do
  let power ← shl 64 1 format.exponent
  let ones ← checkedSub power 1
  shl 64 ones format.mantissa

end Format

/-- The bits of an integer the format keeps, and whether what it drops rounds them up. -/
def significand (value : ℕ) (highest wanted : ℤ) : Option (ℕ × Bool) :=
  if wanted < highest then do
    let apart ← checked 32 (highest - wanted)
    let kept ← shr 128 value (asU32 apart)
    let power ← shl 128 1 (asU32 apart)
    let mask ← checkedSub power 1
    let dropped := value &&& mask
    let below ← checkedSub (asU32 apart) 1
    let half ← shl 128 1 below
    -- Ties go to whichever neighbour has an even significand.
    some (kept, decide (half < dropped ∨ dropped = half ∧ kept &&& 1 = 1))
  else do
    let apart ← checked 32 (wanted - highest)
    let mantissa ← shl 128 value (asU32 apart)
    some (mantissa, false)

/-- The significand rounded, and the exponent, one higher when the rounding carried out of it. -/
def carried (format : Format) (mantissa : ℕ) (up : Bool) (exponent : ℤ) : Option (ℕ × ℤ) :=
  if up then do
    let mantissa ← Words.add 128 mantissa 1
    let beyond ← shr 128 mantissa (format.mantissa + 1)
    if beyond ≠ 0 then do
      let exponent ← checked 32 (exponent + 1)
      some (mantissa >>> 1, exponent)
    else some (mantissa, exponent)
  else some (mantissa, exponent)

/-- The pattern of a significand with its leading bit in place. -/
def assembled (format : Format) (mantissa : ℕ) (exponent : ℤ) : Option ℕ :=
  if format.top < exponent then format.infinity
  else do
    let stored ← checked 32 (exponent + format.bias)
    let power ← shl 128 1 format.mantissa
    let mask ← checkedSub power 1
    let high ← shl 64 (stored % 2^64).toNat format.mantissa
    some (high ||| (mantissa &&& mask) % 2^64)

/-- The bit pattern of the float of this format nearest to `value`, ties to even. -/
def fromUnsigned (value : ℕ) (format : Format) : Option ℕ :=
  if value = 0 then some 0
  else do
    let highest ← checked 32 (127 - leadingZeros 128 value)
    let (mantissa, up) ← significand value highest format.mantissa
    let (mantissa, exponent) ← carried format mantissa up highest
    assembled format mantissa exponent

/-- A significand whose lowest bit is worth a power of two, without what lies below one. -/
def scaled (mantissa : ℕ) (apart : ℤ) : Option ℕ :=
  if 0 ≤ apart then shl 128 mantissa (asU32 apart)
  else do
    let down ← checked 32 (-apart)
    if 128 ≤ down then some 0 else shr 128 mantissa (asU32 down)

/-- The value of the float `bits` stands for, truncated towards zero, or zero where there is no value to
speak of. -/
def toUnsigned (bits : ℕ) (format : Format) : Option ℕ := do
  let sign ← shr 64 bits (format.mantissa + format.exponent)
  let field ← shr 64 bits format.mantissa
  let width ← shl 64 1 format.exponent
  let ones ← checkedSub width 1
  let stored := field &&& ones
  let low ← shl 64 1 format.mantissa
  let mask ← checkedSub low 1
  let fraction := bits &&& mask
  if sign &&& 1 = 1 ∨ stored = 0 ∨ stored = ones then some 0
  else do
    let exponent ← checked 32 (stored - format.bias)
    if 128 ≤ exponent then some 0
    else if exponent < 0 then some 0
    else do
      let implicit ← shl 128 1 format.mantissa
      let apart ← checked 32 (exponent - format.mantissa)
      scaled (implicit ||| fraction) apart

end Rucc.Builtins.Convert
