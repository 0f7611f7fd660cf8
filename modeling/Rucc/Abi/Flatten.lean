import Rucc.Abi.Describe
import Rucc.CTypes.RecordSound

/-!
# From a C type to what an ABI reads

The functions of the lowering that take a C type apart into its scalars, over the types of `CTypes`. A type
is here without its typedefs and qualifiers. An object of no fixed size goes by reference before any of this
is asked, so that a record is one whose layout is a number.
-/

namespace Rucc.Abi

open CTypes (Field Layout LayoutError RecordKind)

/-- The machines that a type is taken apart differently for. -/
inductive Arch
  | x86_64 | wasm32 | other
  deriving DecidableEq

/-- What flattening asks of the target. -/
structure Target where
  arch : Arch
  windows : Bool
  maxObjectSize : ℕ

/-- The length of an array. -/
inductive ArrayLen
  | fixed (count : ℕ)
  | unknown
  | varying

mutual

/-- A C type. The integers, the enumerations and the pointers are one case, by their layout. -/
inductive CType
  | void
  | incomplete
  | function
  | integer (layout : Layout)
  | bitInt (layout : Layout)
  | float (format : Format) (layout : Layout)
  | complex (part : CType)
  | atomic (inner : CType)
  | array (elem : CType) (len : ArrayLen)
  | vector (elem : CType) (len : ℕ)
  | record (kind : RecordKind) (layout : Layout) (members : Members)

/-- The members of a record, each placed, with its type. -/
inductive Members
  | nil
  | cons (field : Field) (ty : CType) (rest : Members)

end

/-- The members with their types, in a list. -/
def Members.toList : Members → List (Field × CType)
  | nil => []
  | cons field ty rest => (field, ty) :: rest.toList

/-! ## Layouts -/

/-- The size and alignment of a type. -/
def layout (target : Target) : CType → Except LayoutError Layout
  | .void | .incomplete => .error .incomplete
  | .function => .error .function
  | .integer layout | .bitInt layout | .float _ layout => .ok layout
  | .complex part => do
    let part ← layout target part
    return ⟨part.size * 2, part.align⟩
  | .atomic inner => do
    let inner ← layout target inner
    -- an alignment raised to the size, where the target can do a lock free access
    if inner.size.isPowerOfTwo ∧ inner.size ≤ 16 then return ⟨inner.size, max inner.align inner.size⟩
    else return inner
  | .array elem (.fixed count) => do
    let elem ← layout target elem
    if 2^64 ≤ elem.size * count ∨ target.maxObjectSize < elem.size * count then .error .tooLarge
    else return ⟨elem.size * count, elem.align⟩
  | .array _ .varying => .error .varying
  | .array _ .unknown => .error .incomplete
  | .vector elem len => do
    let elem ← layout target elem
    if 2^64 ≤ elem.size * len then .error .tooLarge
    else
      let size := 2^Nat.clog 2 (max (elem.size * len) 1)
      return ⟨size, size⟩
  | .record _ layout _ => .ok layout

/-- The size of a type, as the lowering reads it. -/
def sizeOf (target : Target) (ty : CType) : ℕ :=
  match layout target ty with
  | .ok layout => layout.size
  | .error .incomplete | .error .function => 1
  | .error _ => 0

/-! ## Scalars -/

/-- The scalar a C type is, and nothing for a type that is not one. -/
def scalar : CType → Option Scalar
  | .integer layout | .bitInt layout => some ⟨.integer, layout.size, layout.align⟩
  | .float format layout => some ⟨.float format, layout.size, layout.align⟩
  | .atomic inner => scalar inner
  | _ => none

/-- A vector an ABI reads as one value rather than as its lanes. -/
def wholeVector (target : Target) : CType → Option Scalar
  | .vector elem len =>
    if target.arch ≠ .x86_64 then none
    else match layout target (.vector elem len) with
      | .ok ⟨8, align⟩ => some ⟨.float .double, 8, align⟩
      | .ok ⟨16, align⟩ => some ⟨.float .quad, 16, align⟩
      | _ => none
  | _ => none

/-! ## The walk -/

/-- The most scalars worth flattening out of an object no ABI reads that many of. -/
def ENOUGH : ℕ := 17

/-- The size above which no ABI classifies by what is inside the object. -/
def IN_REGISTERS : ℕ := 16

/-- Whether enough of the object has been taken apart to answer every question about it. -/
def full (capped : Bool) (pieces : List Piece) : Bool := capped && ENOUGH ≤ pieces.length

/-- One thing after another, a stride apart, until there is enough. -/
def pushEach (capped : Bool) (one : ℕ → List Piece → Option (List Piece)) (stride : ℕ) :
    ℕ → ℕ → List Piece → Option (List Piece)
  | 0, _, pieces => some pieces
  | count + 1, at_, pieces => do
    let pieces ← one at_ pieces
    if full capped pieces then return pieces
    else pushEach capped one stride count (at_ + stride) pieces

/-- The integer that holds a bit-field, which an alignment of one keeps out of the way of `packed`. -/
def bitFieldScalar (field : Field) (bits : ℕ) : Scalar := ⟨.integer, (field.bit + bits + 7) / 8, 1⟩

mutual

/-- Everything in one type, at its offset from the start of the object. -/
def push (target : Target) (capped : Bool) : CType → ℕ → List Piece → Option (List Piece)
  | ty, at_, pieces =>
    if full capped pieces then some pieces
    else match (scalar ty).or (wholeVector target ty) with
      | some scalar => some (pieces ++ [⟨at_, scalar⟩])
      | none => match ty with
        | .complex part => do
          let scalar ← scalar part
          return pieces ++ [⟨at_, scalar⟩, ⟨at_ + scalar.size, scalar⟩]
        | .vector elem len => pushEach capped (push target capped elem) (sizeOf target elem) len at_ pieces
        | .array elem (.fixed count) =>
          pushEach capped (push target capped elem) (sizeOf target elem) count at_ pieces
        -- the flexible array member at the end of a record is not part of what a call copies
        | .array _ .unknown => some pieces
        | .array _ .varying => none
        | .record _ _ members => pushMembers target capped members at_ pieces
        | _ => none

/-- Every member of a record, at its offset. -/
def pushMembers (target : Target) (capped : Bool) : Members → ℕ → List Piece → Option (List Piece)
  | .nil, _, pieces => some pieces
  | .cons field ty rest, at_, pieces => do
    let pieces ← (match field.bits with
      | some 0 => some pieces
      | some (bits + 1) => some (pieces ++ [⟨at_ + field.offset, bitFieldScalar field (bits + 1)⟩])
      | none => push target capped ty (at_ + field.offset) pieces : Option (List Piece))
    if full capped pieces then return pieces
    else pushMembers target capped rest at_ pieces

end

/-! ## Questions about a whole type -/

/-- Whether a member has bytes in it, for the two questions that ask for the one member that has. -/
def hasBytes (target : Target) (field : Field) (ty : CType) : Bool :=
  field.bits ≠ some 0 && 0 < sizeOf target ty

/-- Whether no member has bytes in it. -/
def Members.allEmpty (target : Target) : Members → Bool
  | .nil => true
  | .cons field ty rest => !hasBytes target field ty && rest.allEmpty target

mutual

/-- Whether a type is a vector, or a record that is passed as the vector it holds. -/
def singleVector (target : Target) : CType → Bool
  | .vector _ _ => true
  | .array elem (.fixed 1) => singleVector target elem
  | .record _ layout members => onlyVector target layout.size members
  | _ => false

/-- Whether one member is all there is of the record and is such a type itself. -/
def onlyVector (target : Target) (size : ℕ) : Members → Bool
  | .nil => false
  | .cons field ty rest =>
    if hasBytes target field ty then
      rest.allEmpty target && field.bits.isNone && field.offset = 0 && sizeOf target ty = size &&
        singleVector target ty
    else onlyVector target size rest

end

mutual

/-- Whether a type has a floating point machine mode, which a `union` never has. -/
def floatingModeOf (target : Target) : CType → Bool
  | .float _ _ | .complex _ => true
  | .atomic inner => floatingModeOf target inner
  | .array elem (.fixed 1) => floatingModeOf target elem
  | .record kind layout members => kind = .struct && onlyFloating target layout.size members
  | _ => false

/-- Whether one member is all there is of the record and has such a mode itself. -/
def onlyFloating (target : Target) (size : ℕ) : Members → Bool
  | .nil => false
  | .cons field ty rest =>
    if hasBytes target field ty then
      rest.allEmpty target && field.bits.isNone && field.offset = 0 && sizeOf target ty = size &&
        floatingModeOf target ty
    else onlyFloating target size rest

end

/-- A `_BitInt` wider than a register, as the x86-64 psABI reads it. -/
def chunks (target : Target) : CType → Option Shape
  | .bitInt layout =>
    if target.arch ≠ .x86_64 ∨ target.windows ∨ layout.size ≤ 8 then none
    else some {
      size := layout.size
      pieces := (List.range (layout.size / 8)).map fun index => ⟨index * 8, ⟨.integer, 8, 8⟩⟩
      isComplex := false
      floating := false
      vector := false }
  | _ => none

def CType.isComplex : CType → Bool
  | .complex _ => true
  | _ => false

/-- The pieces in offset order, and two that are the same thing in the same place are one. -/
def inOrder (pieces : List Piece) : List Piece :=
  (pieces.insertionSort fun p q => p.offset ≤ q.offset).destutter (· ≠ ·)

/-- Flattens a C type into what an ABI reads, and nothing for one it cannot describe. -/
def shape (target : Target) (ty : CType) : Option Arg :=
  match ty, chunks target ty, scalar ty with
  | .void, _, _ => some .void
  | _, some chunks, _ => some (.aggregate chunks)
  | _, none, some scalar => some (.scalar scalar)
  | _, none, none => do
    let size := sizeOf target ty
    let vector := singleVector target ty
    let capped := IN_REGISTERS < size && !(vector && target.arch = .wasm32)
    let pieces ← push target capped ty 0 []
    return .aggregate {
      size := size
      pieces := inOrder pieces
      isComplex := ty.isComplex
      floating := floatingModeOf target ty
      vector := vector }

end Rucc.Abi
