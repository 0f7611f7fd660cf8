import Rucc.Opt.RangeTransfers

/-!
# Constant folding

What an instruction of integer arithmetic on constants works out to: `arithmetic` and `overflowing` of
`rucc-opt`'s `fold.rs`, with the immediates of `rucc-ir`'s `inst.rs`. A type is what the folding asks of one.
The assertions that an immediate's type is an integer are met by the callers, which read no other constants.
-/

namespace Rucc.Opt.Fold

open U128 Checked

/-- A type: whether it is an integer, the bits of a lane and how many lanes there are. -/
structure Ty where
  isInt : Bool
  bits : ℕ
  lanes : ℕ
  deriving DecidableEq

/-- An integer of some width. -/
def Ty.int (bits : ℕ) : Ty := ⟨true, bits, 1⟩

def Ty.isVector (ty : Ty) : Bool := ty.lanes > 1

/-- The bits of a constant. -/
structure Imm where
  bits : ℕ
  deriving DecidableEq

namespace Imm

/-- An integer, with the bits above the type cleared. -/
def int (value : ℤ) (ty : Ty) : Imm := ⟨fromI128 value &&& mask ty.bits⟩

/-- The value read as unsigned. -/
def unsigned (imm : Imm) : ℕ := imm.bits

/-- The value read as signed, with the sign bit of the type extended. -/
def signed (imm : Imm) (ty : Ty) : ℤ := Opt.signed imm.bits ty.bits

end Imm

/-- The operations of integer arithmetic, and any other. -/
inductive Opcode where
  | trunc | sext | zext
  | shl | lshr | ashr
  | add | sub | mul | and | or | xor
  | sdiv | udiv | srem | urem
  | ctlz | cttz | ctpop | bswap | bitreverse
  | icmp | select
  | saddOverflow | uaddOverflow | ssubOverflow | usubOverflow | smulOverflow | umulOverflow
  | other
  deriving DecidableEq

/-- What the folding reads of an instruction. -/
structure InstData where
  opcode : Opcode
  flags : Flags
  intPred : Option Ops.IntPred

/-! ## The bits of a word -/

/-- How many bits of a word are set. -/
def countOnes (a : ℕ) : ℕ := (List.range 128).countP fun i => a.testBit i

/-- A word with its bytes the other way round. -/
def swapBytes (a : ℕ) : ℕ := Nat.ofBits fun i : Fin 128 => a.testBit (8 * (15 - i / 8) + i % 8)

/-- A word with its bits the other way round. -/
def reverseBits (a : ℕ) : ℕ := Nat.ofBits fun i : Fin 128 => a.testBit (127 - i)

/-! ## The operations -/

/-- Whether storing a result would lose something the flags promised would not happen. -/
def overflowed (exact : ℤ) (ty : Ty) (flags : Flags) : Bool :=
  let stored := Imm.int exact ty
  if flags.nsw ∧ stored.signed ty ≠ exact then true
  else flags.nuw ∧ (exact < 0 ∨ stored.unsigned ≠ fromI128 exact)

/-- A widening or a narrowing of a constant. -/
def convert (opcode : Opcode) (value : Imm) (source target : Ty) : Imm :=
  match opcode with
  | .trunc | .sext => Imm.int (value.signed source) target
  | _ => Imm.int (toI128 value.unsigned) target

/-- The result of a shift at 128 bits, where a shift left loses what goes past the top. -/
def shifted (opcode : Opcode) (value : Imm) (source : Ty) (count : ℕ) : Option ℤ :=
  match opcode with
  | .shl =>
    if count < 128 then some (toI128 (shiftLeft (fromI128 (value.signed source)) count)) else none
  | .lshr => some (toI128 (value.unsigned >>> count))
  | _ => some (value.signed source >>> count)

/-- A shift of a constant by a constant. -/
def shift (opcode : Opcode) (value : Imm) (source : Ty) (count : Imm) (countTy target : Ty) (flags : Flags) :
    Option Imm := do
  if count.unsigned ≥ target.bits ∨ count.signed countTy < 0 then none
  else
    let exact ← shifted opcode value source count.unsigned
    if opcode = .shl ∧ overflowed exact target flags then none else some (Imm.int exact target)

/-- The result of an operation on two words at 128 bits, or nothing when it does not fit in them. -/
def combined (opcode : Opcode) (a b : ℤ) : Option ℤ :=
  match opcode with
  | .and => some (toI128 (fromI128 a &&& fromI128 b))
  | .or => some (toI128 (fromI128 a ||| fromI128 b))
  | .xor => some (toI128 (fromI128 a ^^^ fromI128 b))
  | .add => checked 128 (a + b)
  | .sub => checked 128 (a - b)
  | _ => checked 128 (a * b)

/-- An arithmetic or bitwise operation on two constants. -/
def binary (opcode : Opcode) (lhs rhs : Imm) (source target : Ty) (flags : Flags) : Option Imm := do
  let exact ← combined opcode (lhs.signed source) (rhs.signed source)
  if overflowed exact target flags then none else some (Imm.int exact target)

/-- The signed quotient or remainder of two constants, unless the quotient overflows. -/
def divideSigned (opcode : Opcode) (a b : ℤ) (source : Ty) : Option ℤ :=
  let least := if source.bits ≥ 128 then -2^127 else -((1 <<< (source.bits - 1) : ℕ) : ℤ)
  if b = -1 ∧ a = least then none else some (if opcode = .sdiv then a.tdiv b else a.tmod b)

/-- A divide or a remainder of two constants, or nothing for the two cases that are undefined. -/
def divide (opcode : Opcode) (lhs rhs : Imm) (source target : Ty) : Option Imm := do
  if rhs.unsigned = 0 then none
  else
    let answer ← match opcode with
      | .udiv => some (toI128 (lhs.unsigned / rhs.unsigned))
      | .urem => some (toI128 (lhs.unsigned % rhs.unsigned))
      | _ => divideSigned opcode (lhs.signed source) (rhs.signed source) source
    some (Imm.int answer target)

/-- What a comparison of two constants comes out as. -/
def compare (pred : Ops.IntPred) (lhs rhs : Imm) (ty : Ty) : Bool :=
  match pred with
  | .eq => lhs = rhs
  | .ne => lhs ≠ rhs
  | .slt => lhs.signed ty < rhs.signed ty
  | .sle => lhs.signed ty ≤ rhs.signed ty
  | .sgt => lhs.signed ty > rhs.signed ty
  | .sge => lhs.signed ty ≥ rhs.signed ty
  | .ult => lhs.unsigned < rhs.unsigned
  | .ule => lhs.unsigned ≤ rhs.unsigned
  | .ugt => lhs.unsigned > rhs.unsigned
  | .uge => lhs.unsigned ≥ rhs.unsigned

/-- One of the five bit operations on a constant. -/
def count (opcode : Opcode) (value : Imm) (source target : Ty) : Option Imm :=
  let width := source.bits
  if width = 0 ∨ width > 128 then none
  else
    let spare := 128 - width
    let bits := value.unsigned
    match opcode with
    | .ctpop => some (Imm.int (countOnes bits) target)
    | .ctlz => (checkedSub (leadingZeros bits) spare).map fun (answer : ℕ) => Imm.int answer target
    | .cttz => some (Imm.int (min (trailingZeros bits) width : ℕ) target)
    | .bswap => if width % 8 = 0 then some (Imm.int (toI128 (swapBytes bits >>> spare)) target) else none
    | .bitreverse => some (Imm.int (toI128 (reverseBits bits >>> spare)) target)
    | _ => none

section Arithmetic

variable {Value : Type} (operand : Value → Option (Imm × Ty))

/-- What an instruction of integer arithmetic works out to, given a way to read each operand as a constant. -/
def arithmetic (data : InstData) (args : List Value) (ty : Ty) : Option Imm := do
  match data.opcode with
  | .trunc | .sext | .zext =>
    let (value, source) ← operand (← args[0]?)
    some (convert data.opcode value source ty)
  | .shl | .lshr | .ashr =>
    let (value, source) ← operand (← args[0]?)
    let (count, countTy) ← operand (← args[1]?)
    shift data.opcode value source count countTy ty data.flags
  | .add | .sub | .mul | .and | .or | .xor =>
    let (lhs, lhsTy) ← operand (← args[0]?)
    let (rhs, _) ← operand (← args[1]?)
    binary data.opcode lhs rhs lhsTy ty data.flags
  | .sdiv | .udiv | .srem | .urem =>
    let (lhs, source) ← operand (← args[0]?)
    let (rhs, _) ← operand (← args[1]?)
    divide data.opcode lhs rhs source ty
  | .ctlz | .cttz | .ctpop | .bswap | .bitreverse =>
    let (value, source) ← operand (← args[0]?)
    count data.opcode value source ty
  | .icmp =>
    let pred ← data.intPred
    let (lhs, source) ← operand (← args[0]?)
    let (rhs, _) ← operand (← args[1]?)
    some (Imm.int (if compare pred lhs rhs source then 1 else 0) ty)
  | .select =>
    let (then_, _) ← operand (← args[1]?)
    let (other, _) ← operand (← args[2]?)
    if then_.signed ty = other.signed ty then some then_ else none
  | _ => none

end Arithmetic

/-! ## The operations that check for overflow -/

/-- The exact result of a checked operation at 128 signed bits, if it fits in them. -/
def exactSigned (opcode : Opcode) (a b : ℤ) : Option ℤ :=
  match opcode with
  | .saddOverflow => checked 128 (a + b)
  | .ssubOverflow => checked 128 (a - b)
  | _ => checked 128 (a * b)

/-- The exact result of a checked operation at 128 unsigned bits, if it fits in them. -/
def exactUnsigned (opcode : Opcode) (a b : ℕ) : Option ℕ :=
  match opcode with
  | .uaddOverflow => checkedAdd a b
  | .usubOverflow => checkedSub a b
  | _ => checkedMul a b

/-- Whether a checked operation reads its operands as signed, for one that is. -/
def checksSigned : Opcode → Option Bool
  | .saddOverflow | .ssubOverflow | .smulOverflow => some true
  | .uaddOverflow | .usubOverflow | .umulOverflow => some false
  | _ => none

/-- The result of a checked operation at 128 bits, what does not fit lost. -/
def wrapped (opcode : Opcode) (a b : ℕ) : ℕ :=
  match opcode with
  | .saddOverflow | .uaddOverflow => wrappingAdd a b
  | .ssubOverflow | .usubOverflow => wrappingSub a b
  | _ => wrappingMul a b

/-- What a checked operation gives for two constants: the wrapped result and whether the exact one did not
fit. -/
def overflowing (opcode : Opcode) (a b : Imm) (ty : Ty) : Option (Imm × Bool) := do
  let signed ← checksSigned opcode
  if !ty.isInt || ty.isVector then none
  else
    let fits :=
      if signed then
        (exactSigned opcode (a.signed ty) (b.signed ty)).any fun exact => (Imm.int exact ty).signed ty = exact
      else
        (exactUnsigned opcode a.unsigned b.unsigned).any fun exact => ty.bits ≥ 128 || exact >>> ty.bits = 0
    some (⟨wrapped opcode a.unsigned b.unsigned &&& (Imm.int (-1) ty).unsigned⟩, !fits)

end Rucc.Opt.Fold
