import Mathlib.Tactic

/-!
# What a classifier is asked about, and the language an ABI is described in

The data of `shape.rs` and `describe.rs`: the scalars of an aggregate at their offsets, the slots it travels
in, and the rules an ABI classifies it by. What only the back end reads of a description is left out.
-/

namespace Rucc.Abi

/-! ## Shapes -/

/-- A floating point format. -/
inductive Format
  | half | bFloat16 | single | double | x87Extended | quad | doubleDouble
  | decimal32 | decimal64 | decimal128
  deriving DecidableEq

/-- The bytes of a value in the format, without padding. -/
def Format.bytes : Format → ℕ
  | half | bFloat16 => 2
  | single | decimal32 => 4
  | double | decimal64 => 8
  | x87Extended => 10
  | quad | doubleDouble | decimal128 => 16

/-- What a scalar is. -/
inductive Kind
  | integer
  | float (format : Format)
  deriving DecidableEq

/-- One scalar. -/
structure Scalar where
  kind : Kind
  size : ℕ
  align : ℕ
  deriving DecidableEq

def Scalar.isFloat (s : Scalar) : Bool :=
  match s.kind with
  | .integer => false
  | .float _ => true

/-- One scalar inside an aggregate, at the offset the layout gave it. -/
structure Piece where
  offset : ℕ
  scalar : Scalar
  deriving DecidableEq

/-- One past the last byte it covers. -/
def Piece.stop (p : Piece) : ℕ := p.offset + if p.scalar.size = 0 then 1 else p.scalar.size

/-- An aggregate. -/
structure Shape where
  size : ℕ
  pieces : List Piece
  /-- Whether it is a `_Complex`. -/
  isComplex : Bool
  /-- Whether the whole object has a floating point machine mode. -/
  floating : Bool
  /-- Whether it is a vector, or holds only one. -/
  vector : Bool
  deriving DecidableEq

/-- Whether it holds at least one scalar and every one of them is this format. -/
def Shape.isAllOf (s : Shape) (format : Format) : Bool :=
  !s.pieces.isEmpty && s.pieces.all fun piece => piece.scalar.kind = .float format

/-- One argument, or one return value. -/
inductive Arg
  | void
  | scalar (s : Scalar)
  | aggregate (s : Shape)
  deriving DecidableEq

/-- One register's worth of an aggregate. -/
inductive Slot
  | integer (offset size : ℕ)
  | float (offset : ℕ) (format : Format)
  | vector (offset size : ℕ)
  deriving DecidableEq

/-- Whether it is a vector register. -/
def Slot.isFloat : Slot → Bool
  | integer _ _ => false
  | float _ _ => true
  | vector _ _ => true

/-- How one value travels. -/
inductive Pass
  | ignore
  | direct
  | pieces (slots : List Slot)
  | reference
  | memory
  deriving DecidableEq

/-! ## Descriptions -/

/-- The registers a call starts with. -/
structure Banks where
  integer : ℕ
  float : ℕ
  /-- Whether the two banks share argument positions. -/
  shared : Bool
  integerWidth : ℕ
  floatWidth : ℕ

/-- How a scalar spends registers. -/
structure Scalars where
  inMemory : Option Format
  wideIntegerIsAllOrNothing : Bool
  wideIntegerStartsEven : Bool
  wideIntegerDrains : Bool
  wideIsByReference : Bool
  wideIntegerReturnsIn : Option Format
  wideIntegerInMemory : Bool
  quadReturnsByReference : Bool

/-- Where the address of a return value in memory travels. -/
inductive ReturnPointer
  | firstArgument | firstArgumentPopped | dedicated
  deriving DecidableEq

/-- What a variadic argument does differently. -/
inductive Variadic
  | sameAsFixed | alwaysMemory | bothBanks | integersOnly | unnamedIntegers
  deriving DecidableEq

/-- What an aggregate has to look like for a rule to apply. -/
inductive Test
  | anything
  | empty
  | sizeOneOf (sizes : List ℕ)
  | sizeAtMost (limit : ℕ)
  | homogeneous (limit : ℕ)
  | floatPair
  | x87Stack
  | loneFloat
  | singleScalar
  | vector
  | wholeVector (limit : ℕ)
  | variadicVector
  | floatingMode
  | complexFloat
  | eightbytes (limit : ℕ)
  deriving DecidableEq

/-- How a value travels when a rule's test matched. -/
inductive Travel
  | ignore | asFound | asIntegers | asOneInteger | byReference | inMemory | inMemoryAndSpend
  deriving DecidableEq

/-- What happens when the registers a rule wanted are not there. -/
inductive Short
  | unchanged | memory | memoryAndDrain | tryNextRule
  deriving DecidableEq

/-- What an aggregate has to look like, how it travels if it does, and what happens when the registers it
wanted are not there. -/
structure Rule where
  when : Test
  travels : Travel
  short : Short := .unchanged
  deriving DecidableEq

/-- One psABI, as far as it decides how a value travels. -/
structure AbiDescription where
  name : String
  banks : Banks
  scalars : Scalars
  returns : List Rule
  arguments : List Rule
  returnPointer : ReturnPointer
  variadic : Variadic

/-- Whether a scalar of this size travels as the address of a copy. -/
def AbiDescription.scalarIsByReference (abi : AbiDescription) (size : ℕ) : Bool :=
  abi.scalars.wideIsByReference && !(size = 1 || size = 2 || size = 4 || size = 8)

/-- Whether a scalar of this size comes back through the address the caller passes. -/
def AbiDescription.scalarReturnsByReference (abi : AbiDescription) (size : ℕ) : Bool :=
  abi.scalarIsByReference size || abi.scalars.quadReturnsByReference && size = 16

end Rucc.Abi
