import Rucc.Abi.Describe
import Rucc.Lib.Checked

/-!
# The classifier

The functions of `classify.rs`. A `Call` is the registers one call has left, and each question about it
answers how a value travels and the call after it. A subtraction below zero and a rule list without a last
rule that matches stop the program, which is `none` here.
-/

namespace Rucc.Abi

open Checked

/-- `u32::try_from(n).unwrap_or(other)`. -/
def word32 (n other : ℕ) : ℕ := if n < 2^32 then n else other

/-- `u64::div_ceil`. -/
def divCeil (a b : ℕ) : ℕ := (a + b - 1) / b

/-! ## Slots -/

/-- A vector of this size as a run of `v128`, the last one holding only what is left. -/
def vectorSlots (size : ℕ) : List Slot :=
  (List.range (divCeil size 16)).map fun index => .vector (index * 16) (word32 (min (size - index * 16) 16) 16)

/-- How many registers of this width a value of this size takes. -/
def registers (size width : ℕ) : ℕ := max (word32 (divCeil size (max width 1)) 1) 1

/-- An object of this size as a run of integer registers, the last one holding only what is left. -/
def integerSlots (size width : ℕ) : List Slot :=
  let width := max width 1
  (List.range (divCeil size width)).map fun index =>
    .integer (index * width) (word32 (min (size - index * width) width) 8)

/-- The vector registers of a homogeneous floating point aggregate. -/
def homogeneous (shape : Shape) (limit : ℕ) : Option (List Slot) := do
  let first ← shape.pieces.head?
  match first.scalar.kind with
  | .integer => none
  | .float format =>
    let count := shape.pieces.length
    if limit < count || shape.pieces.any fun piece => piece.scalar ≠ first.scalar then none
    else if checkedWord (first.scalar.size * count) = some shape.size then
      some (shape.pieces.map fun piece => .float piece.offset format)
    else none

/-- The register one member of a float pair travels in. -/
def pairSlot (integerWidth floatWidth : ℕ) (piece : Piece) : Option Slot :=
  match piece.scalar.kind with
  | .float format => if piece.scalar.size ≤ floatWidth then some (.float piece.offset format) else none
  | .integer =>
    if piece.scalar.size ≤ integerWidth ∧ piece.scalar.size < 2^32 then
      some (.integer piece.offset piece.scalar.size)
    else none

/-- The registers a one or two member aggregate travels in under the RISC-V floating point rule. -/
def floatPair (shape : Shape) (integerWidth floatWidth : ℕ) : Option (List Slot) :=
  let floats := (shape.pieces.filter fun piece => piece.scalar.isFloat).length
  match shape.pieces with
  | [only] => if floats = 1 then do return [← pairSlot integerWidth floatWidth only] else none
  | [first, second] =>
    if 0 < floats then do
      return [← pairSlot integerWidth floatWidth first, ← pairSlot integerWidth floatWidth second]
    else none
  | _ => none

/-- The x87 stack registers a `long double` or a `_Complex long double` comes back in. -/
def x87Stack (shape : Shape) : Option (List Slot) :=
  let oneValue := shape.pieces.length = 1 || shape.pieces.length = 2 && shape.isComplex
  if shape.isAllOf .x87Extended && oneValue then
    some (shape.pieces.map fun piece => .float piece.offset .x87Extended)
  else none

/-- The one floating point slot of an aggregate that is a single `float` or `double`. -/
def loneFloat (shape : Shape) : Option (List Slot) :=
  match shape.pieces with
  | [piece] =>
    match piece.scalar.kind with
    | .float .single => some [.float piece.offset .single]
    | .float .double => some [.float piece.offset .double]
    | _ => none
  | _ => none

/-- Nothing, for a `_Complex` or an aggregate with a floating point mode. -/
def floatingMode (shape : Shape) : Option (List Slot) :=
  if shape.isComplex || shape.floating then some [] else none

/-- The slot that holds one scalar of an aggregate, at its offset. -/
def slot (scalar : Scalar) (offset : ℕ) : Slot :=
  match scalar.kind with
  | .float format => .float offset format
  | .integer => .integer offset (word32 scalar.size 8)

/-- The one scalar of an aggregate that is nothing else. -/
def singleScalar (shape : Shape) : Option (List Slot) :=
  match shape.pieces with
  | [piece] =>
    if shape.isComplex || piece.offset ≠ 0 || piece.scalar.size ≠ shape.size then none
    else some [slot piece.scalar 0]
  | _ => none

/-! ## Eightbytes -/

/-- The class of one eightbyte. -/
inductive Class
  | none | integer | sse | sseUp | x87 | memory
  deriving DecidableEq

/-- Two classes over one eightbyte. -/
def merge (left right : Class) : Class :=
  if left = right then left
  else match left, right with
    | .none, other => other
    | other, .none => other
    | .memory, _ | _, .memory => .memory
    | .x87, _ | _, .x87 => .memory
    | .integer, _ | _, .integer => .integer
    | _, _ => .sse

/-- The class of a scalar. -/
def classOf (scalar : Scalar) : Class :=
  match scalar.kind with
  | .integer => .integer
  | .float .x87Extended => .x87
  | .float _ => .sse

/-- The classes with that of one piece merged into one eightbyte. -/
def mergeAt (first : ℕ) (class_ : Class) (classes : List Class) (at_ : ℕ) : Option (List Class) := do
  let old ← classes[at_]?
  let new := if first < at_ ∧ class_ = .sse then .sseUp else class_
  return classes.set at_ (merge old new)

/-- The classes with that of one piece merged in, unless the piece is away from its alignment. -/
def mergePiece (classes : List Class) (piece : Piece) : Option (List Class) :=
  if 1 < piece.scalar.align ∧ piece.offset % piece.scalar.align ≠ 0 then none
  else
    let first := piece.offset / 8
    (List.range' first ((piece.stop - 1) / 8 + 1 - first)).foldlM (mergeAt first (classOf piece.scalar)) classes

/-- An upper half whose lower half is something else stands on its own. -/
def settleAt (classes : List Class) (index : ℕ) : List Class :=
  let above := 0 < index ∧ (classes[index - 1]? = some .sse ∨ classes[index - 1]? = some .sseUp)
  if classes[index]? = some .sseUp ∧ ¬ above then classes.set index .sse else classes

/-- The slot an eightbyte of this class travels in, or nothing for the upper half of the one below it. -/
def eightbyteSlot (shape : Shape) (classes : List Class) (index : ℕ) (class_ : Class) : Option Slot :=
  let offset := index * 8
  let bytes := min (shape.size - offset) 8
  match class_ with
  | .sseUp => Option.none
  | .sse =>
    if classes[index + 1]? = some .sseUp then some (.float offset .quad)
    else if bytes ≤ 4 then some (.float offset .single)
    else some (.float offset .double)
  | _ => some (.integer offset (word32 bytes 8))

/-- The slots the SysV classification produces, and nothing when the answer is memory. -/
def eightbytes (shape : Shape) (limit : ℕ) : Option (List Slot) :=
  if limit < shape.size then none
  else do
    let classes ← shape.pieces.foldlM mergePiece (List.replicate (divCeil shape.size 8) Class.none)
    if classes.any fun c => c = .memory || c = .x87 then none
    else
      let classes := (List.range classes.length).foldl settleAt classes
      some (classes.zipIdx.filterMap fun c => eightbyteSlot shape classes c.2 c.1)

/-! ## Calls -/

/-- The registers one call has left. -/
structure Call where
  abi : AbiDescription
  integer : ℕ
  float : ℕ
  integersOnly : Bool
  pastDots : Bool

/-- The start of one call. -/
def AbiDescription.call (abi : AbiDescription) : Call := ⟨abi, abi.banks.integer, abi.banks.float, false, false⟩

namespace Call

/-- The same call, to a function whose prototype ends in `...`. -/
def variadic (c : Call) : Call := if c.abi.variadic = .integersOnly then { c with integersOnly := true } else c

/-- Whether a test matches, and the slots it found. -/
def matched (c : Call) (test : Test) (shape : Shape) : Option (List Slot) :=
  match test with
  | .anything => some []
  | .empty => if shape.size = 0 then some [] else none
  | .sizeOneOf sizes => if shape.size ∈ sizes then some [] else none
  | .sizeAtMost limit => if shape.size ≤ limit then some [] else none
  | .homogeneous limit => homogeneous shape limit
  | .floatPair => floatPair shape c.abi.banks.integerWidth c.abi.banks.floatWidth
  | .x87Stack => x87Stack shape
  | .loneFloat => loneFloat shape
  | .floatingMode => floatingMode shape
  | .singleScalar => singleScalar shape
  | .vector =>
    if c.pastDots || !shape.vector then none
    else some (shape.pieces.map fun piece => slot piece.scalar piece.offset)
  | .wholeVector limit =>
    if c.pastDots || !shape.vector || limit < shape.size then none else some (vectorSlots shape.size)
  | .variadicVector => if c.pastDots && shape.vector then some [] else none
  | .complexFloat => if shape.isComplex && shape.isAllOf .single && shape.size = 8 then some [] else none
  | .eightbytes limit => eightbytes shape limit

/-- What a run of slots costs, as general purpose registers and then vector registers. -/
def cost (c : Call) (slots : List Slot) : Option (ℕ × ℕ) :=
  let count := word32 slots.length (2^32 - 1)
  if c.abi.banks.shared then some (count, 0)
  else do
    let float := word32 (slots.filter Slot.isFloat).length (2^32 - 1)
    return (← checkedSub count float, float)

/-- Whether the address of a return value takes the first argument register. -/
def pointerSpends (c : Call) : Bool :=
  c.abi.returnPointer = .firstArgument || c.abi.returnPointer = .firstArgumentPopped

/-- An aggregate in these slots, when the registers may run short. -/
def spend (c : Call) (rule : Rule) (slots : List Slot) (returning : Bool) : Option (Option Pass × Call) :=
  if returning then some (some (.pieces slots), c)
  else do
    let (integer, float) ← c.cost slots
    if integer ≤ c.integer ∧ float ≤ c.float then
      some (some (.pieces slots), { c with integer := c.integer - integer, float := c.float - float })
    else match rule.short with
      | .unchanged =>
        some (some (.pieces slots), { c with integer := c.integer - integer, float := c.float - float })
      | .memory => some (some .memory, c)
      | .memoryAndDrain =>
        some (some .memory,
          { c with
            integer := if c.integer < integer then 0 else c.integer
            float := if c.float < float then 0 else c.float })
      | .tryNextRule => some (none, c)

/-- The pass a matched rule produces, and nothing if it ran short and said to try the next rule. -/
def travel (c : Call) (rule : Rule) (found : List Slot) (shape : Shape) (returning : Bool) :
    Option (Option Pass × Call) :=
  let width := c.abi.banks.integerWidth
  match rule.travels with
  | .ignore => some (some .ignore, c)
  | .inMemory => some (some .memory, c)
  | .inMemoryAndSpend =>
    if returning then some (some .memory, c)
    else some (some .memory, { c with integer := c.integer - registers shape.size width })
  | .byReference =>
    if !returning || c.pointerSpends then some (some .reference, { c with integer := c.integer - 1 })
    else some (some .reference, c)
  | .asFound => c.spend rule found returning
  | .asIntegers => c.spend rule (integerSlots shape.size width) returning
  | .asOneInteger => c.spend rule [.integer 0 (word32 shape.size 8)] returning

/-- The first rule whose test matches, with what it costs applied. -/
def apply (c : Call) (rules : List Rule) (shape : Shape) (returning : Bool) : Option (Pass × Call) :=
  match rules with
  | [] => none
  | rule :: rest =>
    match c.matched rule.when shape with
    | none => c.apply rest shape returning
    | some found =>
      if c.integersOnly && !returning && found.any Slot.isFloat then c.apply rest shape returning
      else do
        match ← c.travel rule found shape returning with
        | (some pass, c) => some (pass, c)
        | (none, c) => c.apply rest shape returning

/-- How the return value comes back, which is asked before anything else. -/
def returns (c : Call) (arg : Arg) : Option (Pass × Call) :=
  match arg with
  | .void => some (.ignore, c)
  | .scalar s =>
    if c.abi.scalarReturnsByReference s.size then
      match s.kind, c.abi.scalars.wideIntegerReturnsIn with
      | .integer, some format => some (.pieces [.float 0 format], c)
      | _, _ => some (.reference, if c.pointerSpends then { c with integer := c.integer - 1 } else c)
    else some (.direct, c)
  | .aggregate shape => c.apply c.abi.returns shape true

/-- How a scalar argument travels, and what it costs. -/
def scalar (c : Call) (s : Scalar) : Option (Pass × Call) :=
  let banks := c.abi.banks
  let scalars := c.abi.scalars
  let want := registers s.size banks.integerWidth
  let inMemory := match s.kind with
    | .float format => decide (some format = scalars.inMemory)
    | .integer => false
  if c.abi.scalarIsByReference s.size then some (.reference, { c with integer := c.integer - 1 })
  else if inMemory then some (.direct, c)
  else if scalars.wideIntegerInMemory ∧ s.kind = .integer ∧ 1 < want then some (.direct, { c with integer := 0 })
  else if c.integersOnly && s.isFloat then
    some (.pieces (integerSlots s.size banks.integerWidth), { c with integer := c.integer - want })
  else if banks.shared then some (.direct, { c with integer := c.integer - 1 })
  else match s.kind with
    | .float _ =>
      if s.size ≤ banks.floatWidth then some (.direct, { c with float := c.float - 1 })
      else some (.direct, { c with integer := c.integer - want })
    | .integer =>
      if scalars.wideIntegerIsAllOrNothing then
        some (.direct, if want ≤ c.integer then { c with integer := c.integer - want } else c)
      else if 1 < want ∧ (scalars.wideIntegerStartsEven ∨ scalars.wideIntegerDrains) then do
        let used ← checkedSub banks.integer c.integer
        let c := if scalars.wideIntegerStartsEven ∧ used % 2 = 1 then { c with integer := c.integer - 1 } else c
        some (.direct,
          if want ≤ c.integer then { c with integer := c.integer - want }
          else if scalars.wideIntegerDrains then { c with integer := 0 } else c)
      else some (.direct, { c with integer := c.integer - want })

/-- How the next fixed argument travels. -/
def argument (c : Call) (arg : Arg) : Option (Pass × Call) :=
  match arg with
  | .void => some (.ignore, c)
  | .scalar s => c.scalar s
  | .aggregate shape => c.apply c.abi.arguments shape false

/-- How the next argument past the `...` travels. -/
def variadicArgument (c : Call) (arg : Arg) : Option (Pass × Call) :=
  match c.abi.variadic with
  | .sameAsFixed | .bothBanks | .integersOnly => do
    let (pass, after) ← { c with pastDots := true }.argument arg
    return (pass, { after with pastDots := false })
  | .unnamedIntegers => do
    let (pass, after) ← { c with integersOnly := true, pastDots := true }.argument arg
    return (pass, { after with pastDots := false, integersOnly := false })
  | .alwaysMemory =>
    match arg with
    | .void => some (.ignore, c)
    | .scalar _ => some (.direct, c)
    | .aggregate shape => do
      let (pass, _) ← { c with integer := 0, float := 0 }.apply c.abi.arguments shape false
      return (pass, c)

end Call

end Rucc.Abi
