import Rucc.Lib.Checked

/-!
# How an allocated instance is laid out

The layout of a block (`layout.rs`) and the versions of the lifetime plane (`plane.rs`). A block is an
aux of sixteen bytes for each word of the payload, a header of 32 bytes and the payload. The arithmetic is
that of `usize`, where a sum or a product that does not fit and a difference below zero give nothing.
-/

namespace Rucc.SafeRt

open Checked

/-- How many bytes of memory one version covers. -/
def GRANULE : ℕ := 16

/-- How many bytes the header takes. -/
def HEADER : ℕ := 32

/-- How many bytes of aux one word of payload needs. -/
def AUX_PER_WORD : ℕ := 16

/-- How many payload bytes one aux entry covers. -/
def WORD : ℕ := 8

/-- `usize::div_ceil`. -/
def divCeil (a b : ℕ) : ℕ := (a + b - 1) / b

/-! ## Versions -/

/-- The version of a granule nobody owns. -/
def DEAD : ℕ := 0

/-- The version the `n`th answer of a counter names. -/
def begun (n : ℕ) : ℕ := n * 2 % 2^64

/-- What the plane holds for a range that `version` used to own. -/
def ended (version : ℕ) : ℕ := version + (1 - version % 2)

/-- Whether a slot says that somebody owns the granule now. -/
def owned (slot : ℕ) : Bool := slot != DEAD && slot % 2 == 0

/-- The plane with one version over every granule that `[lo, lo + len)` touches, for an aligned `lo`. -/
def fill (plane : ℕ → ℕ) (lo len version : ℕ) : ℕ → ℕ := fun granule =>
  if lo / GRANULE ≤ granule ∧ granule < lo / GRANULE + divCeil len GRANULE then version else plane granule

/-! ## The header -/

/-- What class of storage an instance is. -/
inductive Class
  | static | automatic | allocated | mapped | mmio | device | function | literal
  deriving DecidableEq

/-- Where an instance is in its life. -/
inductive State
  | live | ended | quarantined | deviceOwned
  deriving DecidableEq

/-- The discriminant of a class. -/
def Class.code : Class → ℕ
  | static => 0 | automatic => 1 | allocated => 2 | mapped => 3
  | mmio => 4 | device => 5 | function => 6 | literal => 7

/-- The discriminant of a state. -/
def State.code : State → ℕ
  | live => 0 | ended => 1 | quarantined => 2 | deviceOwned => 3

/-- Loads are permitted. -/
def READ : ℕ := 1

/-- Stores are permitted. -/
def WRITE : ℕ := 2

/-- The packed word: the class in bits 0 to 3, the permissions in 4 to 6, the state in 7 and 8 and the
instance from bit 21 on. -/
def Meta.new (c : Class) (perm instanceId : ℕ) : ℕ :=
  c.code + perm % 8 * 2^4 + State.live.code * 2^7 + instanceId % 2^43 * 2^21

/-- The class field. -/
def Meta.class (m : ℕ) : ℕ := m % 16

/-- The state field. -/
def Meta.state (m : ℕ) : ℕ := m / 2^7 % 4

/-- The same word with a different state. -/
def Meta.withState (m : ℕ) (state : State) : ℕ := m - Meta.state m * 2^7 + state.code * 2^7

/-- What sits in front of an allocated instance. -/
structure Header where
  ext : ℕ
  ver : ℕ
  info : ℕ
  allocator : ℕ
  slack : ℕ
  deriving DecidableEq

/-- How many bytes the program asked for, which is what an access is held to. -/
def Header.asked (h : Header) : Option ℕ := checkedSub h.ext h.slack

/-! ## The layout of a block -/

/-- The size a payload of `n` bytes occupies. -/
def payload (n : ℕ) : Option ℕ := checkedWord (divCeil n GRANULE * GRANULE)

/-- How many bytes of aux a payload of `n` bytes needs. -/
def aux (n : ℕ) : Option ℕ := do
  let bytes ← payload n
  checkedWord (divCeil bytes WORD * AUX_PER_WORD)

/-- How many bytes an allocator has to obtain to hand back `n`. -/
def block (n : ℕ) : Option ℕ := do
  let front ← checkedWord (HEADER + (← aux n))
  checkedWord (front + (← payload n))

/-- Where the payload is, given the block. -/
def payloadOf (block n : ℕ) : Option ℕ := do
  let header ← checkedWord (block + (← aux n))
  checkedWord (header + HEADER)

/-- Where the block is, given the start of the payload. -/
def blockOf (payload n : ℕ) : Option ℕ := do
  let header ← checkedSub payload HEADER
  checkedSub header (← aux n)

end Rucc.SafeRt
