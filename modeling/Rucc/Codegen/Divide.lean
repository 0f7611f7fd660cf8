import Rucc.Lib.U128
import Rucc.Lib.Words

/-!
# A division by a constant, as a multiply and a shift

`crates/rucc-codegen/src/divide.rs`: `programAt` writes the rewrite of one division or remainder by a
constant as a short list of steps, and the steps are run the way its tests run them, with the width of
every operand checked on the way.

A step's constant is an integer, as the `i128` of the source is, and the value a step gives is a pattern of
so many bits. What the source leaves as a `div`, and what would stop a build with overflow checks, is
`none`. The opcodes are the ones a program writes.
-/

namespace Rucc.Codegen

open Checked Words

inductive Opcode where
  | add
  | sub
  | mul
  | and
  | uMulHigh
  | sMulHigh
  | lShr
  | aShr
  | zExt
  | sExt
  | trunc
  deriving DecidableEq, Repr

/-- What the dividend is known to hold. -/
inductive Range where
  /-- Something from zero up to, but not including, two to the power of this. -/
  | unsigned (bits : ℕ)
  /-- Something a signed integer of this many bits holds. -/
  | signed (bits : ℕ)
  deriving DecidableEq, Repr

/-- One division or remainder by a constant. -/
structure Division where
  /-- Whether it reads its operands as signed. -/
  signed : Bool
  /-- Whether the answer is the remainder rather than the quotient. -/
  remainder : Bool
  /-- Whether the program promised the division leaves nothing over. -/
  exact : Bool
  /-- The width it is done at. -/
  width : ℕ
  /-- What the dividend holds. -/
  range : Range
  /-- The divisor, read the way the division reads it. -/
  divisor : ℤ
  deriving DecidableEq, Repr

/-- One instruction of a rewrite. Value zero is the dividend, and value `i + 1` is what step `i` gives. -/
inductive Step where
  | const (value : ℤ) (bits : ℕ)
  | op (opcode : Opcode) (lhs rhs bits : ℕ)
  deriving DecidableEq, Repr

/-- A rewrite, in the order it is written. -/
structure Program where
  /-- The width of the dividend and of the answer. -/
  width : ℕ
  /-- The width of a register. -/
  register : ℕ
  /-- The steps, the last of which is the answer. -/
  steps : List Step
  deriving DecidableEq, Repr

/-- The dividend, which every program starts from. -/
def DIVIDEND : ℕ := 0

/-- Those bits read as a signed number of that width. -/
def signedAt (bits width : ℕ) : ℤ := (bits : ℤ).bmod (2^width)

/-! ## Writing the steps -/

namespace Program

def new (width register : ℕ) : Program := ⟨width, register, []⟩

def push (program : Program) (step : Step) : Program × ℕ :=
  ({ program with steps := program.steps ++ [step] }, (program.steps ++ [step]).length)

def constant (program : Program) (value : ℤ) (bits : ℕ) : Program × ℕ := program.push (.const value bits)

def op (program : Program) (opcode : Opcode) (lhs rhs bits : ℕ) : Program × ℕ :=
  program.push (.op opcode lhs rhs bits)

/-- An operation over two values of `bits` bits, with the second a constant. -/
def by_ (program : Program) (opcode : Opcode) (value : ℕ) (constant : ℤ) (bits : ℕ) : Program × ℕ :=
  let (program, constant) := program.constant constant bits
  program.op opcode value constant bits

/-- The value shifted right that way by that much, or the value as it is for a shift of none. -/
def shifted (program : Program) (opcode : Opcode) (value count : ℕ) : Program × ℕ :=
  if count = 0 then (program, value) else program.by_ opcode value count program.width

def convert (program : Program) (opcode : Opcode) (value bits : ℕ) : Program × ℕ :=
  program.op opcode value value bits

/-- The dividend at sixty four bits, where the product is taken. -/
def widened (program : Program) (extend : Opcode) : Program × ℕ :=
  if program.width = 64 then (program, DIVIDEND) else program.convert extend DIVIDEND 64

/-- A value of sixty four bits back at the width of the division. -/
def narrowed (program : Program) (value : ℕ) : Program × ℕ :=
  if program.width = 64 then (program, value) else program.convert .trunc value program.width

/-- Zero minus the value. -/
def negated (program : Program) (value : ℕ) : Program × ℕ :=
  let (program, lhs) := program.constant 0 program.width
  program.op .sub lhs value program.width

/-- The dividend less the quotient times the divisor, which is the remainder. -/
def leftOver (program : Program) (quotient : ℕ) (divisor : ℤ) : Program × ℕ :=
  let (program, back) := program.by_ .mul quotient divisor program.width
  program.op .sub DIVIDEND back program.width

end Program

/-! ## Magic numbers -/

/-- Both bounds halved for as long as they stay apart and there is a shift to take out. -/
def halved (low high : ℕ) : ℕ → ℕ × ℕ
  | 0 => (high, 0)
  | shift + 1 => if low / 2 < high / 2 then halved (low / 2) (high / 2) shift else (high, shift + 1)

/-- The magic number for dividing by `divisor` a value of `bits` bits whose top `bits - precision` bits are
known to be clear, and the shift that goes after the multiply. -/
def multiplier (divisor bits precision : ℕ) : Option (ℕ × ℕ) := do
  let before ← checkedSub divisor 1
  let up := 128 - leadingZeros 128 before
  if 128 ≤ bits + up then none
  else do
    let one ← shl 128 1 (bits + up)
    let slack ← checkedSub (bits + up) precision
    let more ← shl 128 1 slack
    let sum ← Words.add 128 one more
    some (halved (one / divisor) (sum / divisor) up)

/-! ## Unsigned dividends -/

/-- The high half of the product of a value with a magic number that fits, shifted down. -/
def highProduct (program : Program) (value magic shift : ℕ) : Program × ℕ :=
  let n := program.register
  let (program, high) := program.by_ .uMulHigh value (signedAt magic n) n
  program.shifted .lShr high shift

/-- The magic number of an even divisor once its power of two is out, where that one fits. -/
def reduced (divisor n bits : ℕ) : Option (Option (ℕ × ℕ)) :=
  let power := U128.trailingZeros divisor
  if 0 < power ∧ power < bits then
    (multiplier (divisor >>> power) n (bits - power)).map fun (magic, shift) =>
      if magic < 2^n then some (magic, shift) else none
  else some none

/-- The number goes in without its top bit and the dividend is added back to the high half, the difference
halved first. -/
def addedBack (program : Program) (magic shift : ℕ) : Option (Program × ℕ) :=
  let n := program.register
  let (program, high) := program.by_ .uMulHigh DIVIDEND (signedAt (magic - 2^n) n) n
  let (program, difference) := program.op .sub DIVIDEND high n
  let (program, half) := program.by_ .lShr difference 1 n
  let (program, sum) := program.op .add half high n
  (checkedSub shift 1).map fun shift => program.shifted .lShr sum shift

/-- The quotient of a dividend of a register's width that is never negative, from the high half of its
product with the magic number. -/
def unsignedHigh (program : Program) (divisor bits : ℕ) : Option (Program × ℕ) := do
  let n := program.register
  if program.width ≠ n ∨ n < bits ∨ 2^(n - 1) < divisor then none
  else do
    let (magic, shift) ← multiplier divisor n bits
    if magic < 2^n then some (highProduct program DIVIDEND magic shift)
    else do
      match ← reduced divisor n bits with
      | some (magic, shift) =>
        let (program, value) := program.by_ .lShr DIVIDEND (U128.trailingZeros divisor) n
        some (highProduct program value magic shift)
      | none => addedBack program magic shift

/-- The product of the widened dividend with the magic number, shifted down. -/
def unsignedProduct (program : Program) (wide magic shift bits : ℕ) : Program × ℕ :=
  if magic < 2^bits ∨ bits < 32 then
    let (program, product) := program.by_ .mul wide magic 64
    program.by_ .lShr product (bits + shift : ℕ) 64
  else
    let (program, product) := program.by_ .mul wide (magic - 2^32 : ℕ) 64
    let (program, high) := program.by_ .lShr product 32 64
    let (program, sum) := program.op .add high wide 64
    if shift = 0 then (program, sum) else program.by_ .lShr sum shift 64

/-- The quotient of a dividend that is never negative and fits in `bits` bits, by a positive divisor. -/
def unsigned (program : Program) (divisor bits : ℕ) : Option (Program × ℕ) :=
  if 128 ≤ bits ∨ 2^bits ≤ divisor then none
  else if divisor.isPowerOfTwo then
    some (program.by_ .lShr DIVIDEND (U128.trailingZeros divisor) program.width)
  else if 32 < bits ∨ program.register = 32 then unsignedHigh program divisor bits
  else do
    let (magic, shift) ← multiplier divisor bits bits
    let (program, wide) := program.widened .zExt
    let (program, shifted) := unsignedProduct program wide magic shift bits
    some (program.narrowed shifted)

/-! ## Signed dividends -/

/-- The quotient of a signed dividend of a register's width by the size of the divisor, rounded towards minus
infinity, from the high half of its product with the magic number. -/
def signedHigh (program : Program) (size bits : ℕ) : Option (Program × ℕ) := do
  let n := program.register
  if program.width ≠ n ∨ n < bits then none
  else do
    let (magic, shift) ← multiplier size n (bits - 1)
    let (program, high) := program.by_ .sMulHigh DIVIDEND (signedAt magic n) n
    let (program, high) :=
      if magic < 2^(n - 1) then (program, high) else program.op .add high DIVIDEND n
    some (program.shifted .aShr high shift)

/-- The quotient rounded towards minus infinity, from a product of sixty four bits. -/
def signedProduct (program : Program) (size bits : ℕ) : Option (Program × ℕ) := do
  let (magic, shift) ← multiplier size bits (bits - 1)
  let (program, wide) := program.widened .sExt
  let (program, product) := program.by_ .mul wide magic 64
  let (program, shifted) := program.by_ .aShr product (bits + shift : ℕ) 64
  some (program.narrowed shifted)

/-- The quotient rounded towards minus infinity, from the product that the dividend has room for. -/
def roundedDown (program : Program) (size bits : ℕ) : Option (Program × ℕ) :=
  if 32 < bits ∨ program.register = 32 then signedHigh program size bits
  else signedProduct program size bits

/-- The quotient of a signed dividend of `bits` bits by a divisor that is not a power of two, rounded
towards zero. -/
def rounded (program : Program) (divisor : ℤ) (bits : ℕ) : Option (Program × ℕ) := do
  let width := program.width
  let size := divisor.natAbs
  let places ← checkedSub bits 1
  let most ← shl 128 1 places
  if most < size then none
  else do
    let (program, low) ← roundedDown program size bits
    let (program, sign) := program.by_ .aShr DIVIDEND (width - 1 : ℕ) width
    some (if 0 < divisor then program.op .sub low sign width else program.op .sub sign low width)

/-- What is added to a negative dividend before the shift: the divisor less one. -/
def bias (program : Program) (power : ℕ) : Program × ℕ :=
  let width := program.width
  if power = 1 then program.by_ .lShr DIVIDEND (width - 1 : ℕ) width
  else
    let (program, sign) := program.by_ .aShr DIVIDEND (width - 1 : ℕ) width
    program.by_ .lShr sign (width - power : ℕ) width

/-- A signed division or remainder by a power of two or the negative of one. -/
def biased (program : Program) (divisor : ℤ) (remainder : Bool) : Program × ℕ :=
  let width := program.width
  let power := U128.trailingZeros divisor.natAbs
  let (program, bias) := bias program power
  let (program, sum) := program.op .add DIVIDEND bias width
  if remainder then
    let (program, low) := program.by_ .and sum (2^power - 1) width
    program.op .sub low bias width
  else
    let (program, quotient) := program.by_ .aShr sum power width
    if divisor < 0 then program.negated quotient else (program, quotient)

/-! ## Exact divisions -/

/-- The inverse of an odd number modulo two to the `width`, by Newton's iteration. -/
def inverse (odd : ℤ) (width : ℕ) : ℕ :=
  let odd := U128.fromI128 odd
  (fun inverse => U128.wrappingMul inverse (U128.wrappingSub 2 (U128.wrappingMul odd inverse)))^[6] odd
    % 2^width

/-- A division the program promised is exact, as a shift and a multiply by the inverse of what is left of the
divisor. -/
def exactly (program : Program) (signed : Bool) (divisor : ℤ) : Program × ℕ :=
  let width := program.width
  let power := U128.trailingZeros (U128.fromI128 divisor)
  let (program, value) := if 0 < power then
      program.by_ (if signed then .aShr else .lShr) DIVIDEND power width
    else (program, DIVIDEND)
  let odd := divisor >>> power
  if odd ≠ 1 then program.by_ .mul value (signedAt (inverse odd width) width) width
  else (program, value)

/-! ## The rewrite -/

/-- The answer from a dividend that is never negative. -/
def unsignedAnswer (program : Program) (divisor : ℤ) (bits : ℕ) (remainder : Bool) : Option Program := do
  let width := program.width
  let size := divisor.natAbs
  let (program, quotient) ← unsigned program size bits
  if remainder then
    if size.isPowerOfTwo then some (program.by_ .and DIVIDEND (size - 1 : ℕ) width).1
    else some (program.leftOver quotient size).1
  else if divisor < 0 then some (program.negated quotient).1
  else some program

/-- The answer from a dividend that a signed integer of `bits` bits holds. -/
def signedAnswer (program : Program) (divisor : ℤ) (bits : ℕ) (remainder : Bool) : Option Program :=
  if divisor.natAbs.isPowerOfTwo then some (biased program divisor remainder).1
  else do
    let (program, quotient) ← rounded program divisor bits
    if remainder then some (program.leftOver quotient divisor).1 else some program

/-- The rewrite for one division on a machine whose registers are `register` bits wide, or `none` where the
`div` is left. -/
def programAt (division : Division) (register : ℕ) : Option Program :=
  let ⟨signed, remainder, exact, width, range, divisor⟩ := division
  if (width ≠ 8 ∧ width ≠ 16 ∧ width ≠ 32 ∧ width ≠ 64) ∨ divisor = 0 ∨ divisor = 1 ∨
      signed ∧ divisor = -1 then none
  else if register ≠ 32 ∧ register ≠ 64 then none
  -- Wider than a register, only what needs no high multiply.
  else if register < width ∧ ¬(exact ∧ ¬remainder) ∧ ¬divisor.natAbs.isPowerOfTwo then none
  else
    let program := Program.new width register
    if exact ∧ ¬remainder then some (exactly program signed divisor).1
    else
      match range with
      | .unsigned bits => unsignedAnswer program divisor bits remainder
      | .signed bits => signedAnswer program divisor bits remainder

/-! ## Running the steps -/

/-- A value of so many bits. -/
structure Word where
  number : ℕ
  bits : ℕ
  deriving DecidableEq, Repr

/-- The low bits of an integer, as a value. -/
def word (bits : ℕ) (z : ℤ) : Word := ⟨(z % 2^bits).toNat, bits⟩

/-- An operation at `bits` bits, or nothing where an operand is not one that it reads there. -/
def Opcode.run (opcode : Opcode) (register bits : ℕ) (a b : Word) : Option Word :=
  match opcode with
  | .zExt => if a.bits < bits then some ⟨a.number, bits⟩ else none
  | .sExt => if a.bits < bits then some (word bits (signedAt a.number a.bits)) else none
  | .trunc => if bits < a.bits then some (word bits a.number) else none
  | _ =>
    if a.bits ≠ bits ∨ b.bits ≠ bits then none
    else
      match opcode with
      | .add => some (word bits (a.number + b.number))
      | .sub => some (word bits (a.number - b.number))
      | .mul => some (word bits (a.number * b.number))
      | .and => some (word bits (a.number &&& b.number : ℕ))
      | .uMulHigh =>
        if bits ≠ register then none else some (word bits ((a.number * b.number) >>> bits : ℕ))
      | .sMulHigh =>
        if bits ≠ register then none
        else some (word bits ((signedAt a.number bits * signedAt b.number bits) / 2^bits))
      | .lShr => if bits ≤ b.number then none else some (word bits (a.number >>> b.number : ℕ))
      | _ => if bits ≤ b.number then none else some (word bits (signedAt a.number bits / 2^b.number))

/-- A step on a machine of registers of `register` bits that does nothing wider than `widest`. -/
def Step.run (step : Step) (register widest : ℕ) (values : List Word) : Option Word :=
  match step with
  | .const value bits => if widest < bits then none else some (word bits value)
  | .op opcode lhs rhs bits => do
    if widest < bits then none
    else do
      let a ← values[lhs]?
      let b ← values[rhs]?
      opcode.run register bits a b

/-- The values of a program, the dividend first. -/
def Program.values (program : Program) (widest : ℕ) (dividend : ℤ) : Option (List Word) :=
  program.steps.foldlM
    (fun values step => (step.run program.register widest values).map fun value => values ++ [value])
    [word program.width dividend]

/-- What a program gives for one dividend, or nothing where a step reads an operand of another width, shifts
by its width or more, or is wider than `widest`. -/
def Program.run (program : Program) (widest : ℕ) (dividend : ℤ) : Option ℕ := do
  let values ← program.values widest dividend
  let answer ← values.getLast?
  if answer.bits = program.width then some answer.number else none

end Rucc.Codegen
