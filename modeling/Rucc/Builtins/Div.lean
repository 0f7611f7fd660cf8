import Rucc.Lib.Checked
import Rucc.Lib.LongDivision
import Rucc.Lib.U128

/-!
# Dividing an integer the machine has no instruction for

`runtime/rucc-builtins/src/div.rs`: long division in base 2^32, four digits of a dividend against four
digits of a divisor, with the normalization step and the add-back that make an estimate of each digit
of the quotient safe.

A digit is the number it holds and an array of digits a list, lowest first. A program that would
stop is `none`: a sum or a product past the width it is made at, a shift by the width or more, an
index past the end, a division by zero.
-/

namespace Rucc.Builtins.Div

open Checked U128

/-- How many base 2^32 digits a 128-bit value takes. -/
def DIGITS : ℕ := 4

/-- The base. -/
def BASE : ℕ := 2^32

/-- The digits of `value`, lowest first. -/
def split (value : ℕ) : List ℕ :=
  (List.range DIGITS).map fun at_ => value >>> (32 * at_) % BASE

/-- The value those digits stand for. -/
def join (digits : List ℕ) : ℕ :=
  digits.zipIdx.foldl (fun out digit => out ||| U128.shiftLeft digit.1 (32 * digit.2)) 0

/-- The loop of `used`, from `n` digits down. -/
def usedFrom (digits : List ℕ) : ℕ → Option ℕ
  | 0 => some 0
  | n + 1 => do
    let digit ← digits[n]?
    if digit = 0 then usedFrom digits n else some (n + 1)

/-- How many digits are significant: the index of the highest nonzero one plus one, and zero for a
value of zero. -/
def used (digits : List ℕ) : Option ℕ := usedFrom digits DIGITS

/-- The high bits of a digit that are clear. -/
def leadingZeros (digit : ℕ) : ℕ := 32 - digit.size

/-- The loop of `shift_up`, with the bits that the digit below gave up. -/
def shiftUpFrom (by_ : ℕ) : List ℕ → ℕ → List ℕ
  | [], carry => [carry]
  | digit :: digits, carry =>
    ((digit <<< by_) % BASE ||| carry) ::
      shiftUpFrom by_ digits (if by_ = 0 then 0 else digit >>> (32 - by_))

/-- `digits` shifted up by `by_` bits, into one more digit than it came in. -/
def shiftUp (digits : List ℕ) (by_ : ℕ) : Option (List ℕ) :=
  if by_ < 32 then some (shiftUpFrom by_ digits 0) else none

/-- The low `DIGITS` digits of `digits` shifted back down by `by_` bits, as a value. -/
def shiftDown (digits : List ℕ) (by_ : ℕ) : Option ℕ :=
  if by_ < 32 then
    some (join (List.zipWith
      (fun digit next => digit >>> by_ ||| if by_ = 0 then 0 else (next <<< (32 - by_)) % BASE)
      digits digits.tail))
  else none

/-- The loop for a divisor of one digit: the digits of the quotient, and the rest. Each step is a
two-digit number divided by a one-digit number. -/
def divideDigit (by_ : ℕ) : List ℕ → Option (List ℕ × ℕ)
  | [] => some ([], 0)
  | digit :: digits => do
    let (quotient, rest) ← divideDigit by_ digits
    let here := (rest <<< 32) % 2^64 ||| digit
    if by_ = 0 then none else some (here / by_ % BASE :: quotient, here % by_)

/-- The test of Knuth's correction, on the second digit of the divisor and the third of what is
left. Past its first half the product fits. -/
def tooBig (second third guess rest : ℕ) : Option Bool :=
  if BASE ≤ guess then some true
  else do
    let product ← checkedWord (guess * second)
    some (decide ((rest <<< 32) % 2^64 ||| third < product))

/-- Knuth's correction, which brings an estimate that is one or two too big back down. Every turn of the
loop takes one off the estimate. -/
def correct (first second third : ℕ) : ℕ → ℕ → Option ℕ
  | 0, rest => do
    let above ← tooBig second third 0 rest
    if above then none else some 0
  | guess + 1, rest => do
    let above ← tooBig second third (guess + 1) rest
    if above then
      let rest ← checkedWord (rest + first)
      if BASE ≤ rest then some guess else correct first second third guess rest
    else some (guess + 1)

/-- One digit of the divisor times the estimate, off what is left: the digits, the carry of the product
and the borrow of the difference. -/
def takeOff (guess : ℕ) (v : List ℕ) (j : ℕ) (state : List ℕ × ℕ × ℤ) (at_ : ℕ) :
    Option (List ℕ × ℕ × ℤ) := do
  let (u, carry, borrow) := state
  let digit ← v[at_]?
  let product ← checkedWord (guess * digit + carry)
  let left ← u[at_ + j]?
  let diff ← checked 64 ((left : ℤ) - (product % BASE : ℕ) + borrow)
  some (u.set (at_ + j) (diff % 2^32).toNat, product >>> 32, diff >>> (32 : ℕ))

/-- One digit of the divisor put back on what is left. -/
def putBack (v : List ℕ) (j : ℕ) (state : List ℕ × ℕ) (at_ : ℕ) : Option (List ℕ × ℕ) := do
  let (u, carry) := state
  let left ← u[at_ + j]?
  let digit ← v[at_]?
  let sum ← checkedWord (left + digit + carry)
  some (u.set (at_ + j) (sum % BASE), sum >>> 32)

/-- The divisor times the estimate, off the top of what is left. When that went below zero the estimate was
one too big after all, and the divisor is added back. -/
def settle (v : List ℕ) (n j guess : ℕ) (u : List ℕ) : Option (List ℕ × ℕ) := do
  let (u, carry, borrow) ← (List.range n).foldlM (takeOff guess v j) (u, 0, 0)
  let left ← u[j + n]?
  let diff ← checked 64 ((left : ℤ) - carry + borrow)
  let u := u.set (j + n) (diff % 2^32).toNat
  if diff >>> (32 : ℕ) ≠ 0 then do
    let guess ← checkedSub guess 1
    let (u, carry) ← (List.range n).foldlM (putBack v j) (u, 0)
    let left ← u[j + n]?
    some (u.set (j + n) ((left + carry) % BASE), guess)
  else some (u, guess)

/-- One digit of the quotient, the one at place `j`, for a divisor of `n` digits. -/
def step (v : List ℕ) (n : ℕ) (state : List ℕ × List ℕ) (j : ℕ) :
    Option (List ℕ × List ℕ) := do
  let (u, quotient) := state
  -- The estimate: the top two digits of what is left over the top digit of the divisor.
  let top ← u[j + n]?
  let next ← u[j + n - 1]?
  let first ← v[n - 1]?
  let here := (top <<< 32) % 2^64 ||| next
  if first = 0 then none
  else do
    let second ← v[n - 2]?
    let third ← u[j + n - 2]?
    let guess ← correct first second third (here / first) (here % first)
    let (u, guess) ← settle v n j guess u
    some (u, quotient.set j (guess % BASE))

/-- The quotient and the remainder of `top` divided by `bottom`. -/
def divide (top bottom : ℕ) : Option (ℕ × ℕ) := do
  let a := split top
  let b := split bottom
  let m ← used a
  let n ← used b
  if n = 0 then some (0, 0)
  else if n = 1 then do
    let by_ ← b[0]?
    let (quotient, rest) ← divideDigit by_ a
    some (join quotient, rest)
  else if m < n then some (0, top)
  else do
    -- Shift both until the top digit of the divisor has its high bit set.
    let high ← b[n - 1]?
    let by_ := leadingZeros high
    let u ← shiftUp a by_
    let v ← shiftUp b by_
    let (u, quotient) ←
      (List.range (m - n + 1)).reverse.foldlM (step v n) (u, List.replicate DIGITS 0)
    let rest ← shiftDown u by_
    some (join quotient, rest)

/-- The size of a signed value as an unsigned one: the most negative value has no positive of its own. -/
def magnitude (value : ℤ) : ℕ :=
  if value < 0 then U128.wrappingSub 0 (U128.fromI128 value) else U128.fromI128 value

/-- The quotient and the remainder of two signed values. -/
def divideSigned (top bottom : ℤ) : Option (ℤ × ℤ) := do
  let (quotient, rest) ← divide (magnitude top) (magnitude bottom)
  let quotient :=
    if decide (top < 0) = decide (bottom < 0) then U128.toI128 quotient
    else U128.toI128 (U128.wrappingSub 0 quotient)
  let rest := if top < 0 then U128.toI128 (U128.wrappingSub 0 rest) else U128.toI128 rest
  some (quotient, rest)

end Rucc.Builtins.Div
