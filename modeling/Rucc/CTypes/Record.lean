import Mathlib.Tactic

/-!
# Laying out a record

The model of `record.rs`: `layoutRecord` places the members of a `struct` or a `union` one after another
and then says how large the record is. What `layout.rs` says of a member's type is asked of `Types`. Sums
of machine words stop the program where they overflow, which is `Stop.overflow` here.
-/

namespace Rucc.CTypes

/-- The size and alignment of a complete object type, in bytes. -/
structure Layout where
  size : ℕ
  align : ℕ
  deriving DecidableEq, Repr

/-- Why a type has no layout. -/
inductive LayoutError where
  | incomplete | function | varying | tooLarge
  deriving DecidableEq, Repr

/-- What is known of the types: the layout of each, the alignment of each even where the size is not
known, whether it is an array with no size, and the layout of its element as it was written. -/
structure Types where
  layout : ℕ → Except LayoutError Layout
  align : ℕ → Except LayoutError ℕ
  flexibleArray : ℕ → Bool
  element : ℕ → Except LayoutError Layout

inductive RecordKind where
  | struct | union
  deriving DecidableEq, Repr

/-- The two rules that bit-fields are allocated by. -/
inductive BitFieldStyle where
  | itanium | microsoft
  deriving DecidableEq, Repr

/-- What a record's layout asks of the target. -/
structure TargetInfo where
  bitFieldStyle : BitFieldStyle
  unnamedBitFieldAlignsUnder : BitFieldStyle → Bool
  maxObjectSize : ℕ
  emptyRecordSize : ℕ
  msvc : Bool

/-- One member of a record as the program wrote it. -/
structure FieldDecl where
  name : Option ℕ
  ty : ℕ
  bits : Option ℕ
  align : Option ℕ
  packed : Bool
  deriving DecidableEq, Repr

/-- One member of a record, placed. -/
structure Field where
  name : Option ℕ
  ty : ℕ
  offset : ℕ
  bit : ℕ
  align : ℕ
  bits : Option ℕ
  deriving DecidableEq, Repr

/-- Where the member starts, in bits from the start of the record. -/
def Field.bitOffset (f : Field) : ℕ := f.offset * 8 + f.bit

/-- What the program asked for on the record itself. -/
structure RecordOptions where
  packed : Bool
  align : Option ℕ
  pack : Option ℕ
  bitFields : Option BitFieldStyle
  deriving DecidableEq, Repr

/-- How many bytes something is, where the answer is not a number. -/
inductive Extent where
  | bytes (count : ℕ)
  | member (index : ℕ)
  | sum (parts : List Extent)
  | roundUp (of : Extent) (boundary : ℕ)
  | max (parts : List Extent)

/-- What is left of a record's layout when it depends on something the program computes. -/
structure VariableLayout where
  size : Extent
  offsets : List (Option Extent)

/-- A record, laid out. -/
structure RecordLayout where
  layout : Layout
  fields : List Field
  varying : Option VariableLayout

/-- Why a record has no layout. -/
inductive RecordError where
  | member (index : ℕ) (error : LayoutError)
  | bitFieldTooWide (index width capacity : ℕ)
  | tooLarge
  | variableBitField (index : ℕ)
  deriving DecidableEq, Repr

/-- How the layout ends without a record: in an error, or in a sum that overflows. -/
inductive Stop where
  | record (error : RecordError)
  | overflow
  deriving DecidableEq, Repr

/-- A sum of words of so many bits. -/
def addWords (bits a b : ℕ) : Except Stop ℕ := if a + b < 2^bits then .ok (a + b) else .error .overflow

/-- A number that has to fit a `u64`. -/
def narrow (n : ℕ) : Except Stop ℕ := if n < 2^64 then .ok n else .error (.record .tooLarge)

/-- The next multiple of a boundary that is not zero. -/
def nextMultipleOf (value boundary : ℕ) : ℕ := (value + boundary - 1) / boundary * boundary

/-- The value rounded up to a multiple, where that does not overflow. -/
def roundUp (value boundary : ℕ) : Except Stop ℕ :=
  if boundary ≠ 0 ∧ nextMultipleOf value boundary < 2^128 then .ok (nextMultipleOf value boundary)
  else .error (.record .tooLarge)

namespace Extent

/-- A part of a sum added to what is known and what is not. -/
def addPart (acc : ℕ × List Extent) : Extent → ℕ × List Extent
  | .bytes count => (min (acc.1 + count) (2^64 - 1), acc.2)
  | part => (acc.1, acc.2 ++ [part])

/-- The same for a part that may be a sum itself. -/
def addParts (acc : ℕ × List Extent) : Extent → ℕ × List Extent
  | .sum inner => inner.foldl addPart acc
  | part => addPart acc part

/-- What is known put behind what is not, and a list of one left out. -/
def fold (wrap : List Extent → Extent) (acc : ℕ × List Extent) : Extent :=
  match if acc.1 ≠ 0 ∧ acc.2 ≠ [] then acc.2 ++ [.bytes acc.1] else acc.2 with
  | [] => .bytes acc.1
  | [one] => one
  | rest => wrap rest

/-- The sum of the parts, folded where the parts are numbers. -/
def sumOf (parts : List Extent) : Extent := fold .sum (parts.foldl addParts (0, []))

/-- The largest of the parts, folded where the parts are numbers. -/
def maxOf (parts : List Extent) : Extent :=
  fold .max (parts.foldl (fun acc part => match part with
    | .bytes count => (Nat.max acc.1 count, acc.2)
    | part => (acc.1, acc.2 ++ [part])) (0, []))

/-- The extent rounded up, folded where it is a number. -/
def roundUpTo (e : Extent) (boundary : ℕ) : Except Stop Extent :=
  if boundary ≤ 1 then .ok e
  else match e with
    | .bytes count =>
      if nextMultipleOf count boundary < 2^64 then .ok (.bytes (nextMultipleOf count boundary))
      else .error .overflow
    | e => .ok (.roundUp e boundary)

end Extent

/-- A run of Microsoft bit-fields sharing one piece of storage: where it starts in bits, how large it is
in bytes, and how many of its bits are spoken for. -/
structure BitUnit where
  start : ℕ
  size : ℕ
  used : ℕ
  deriving DecidableEq, Repr

/-- The state of a record being laid out. -/
structure Builder where
  kind : RecordKind
  options : RecordOptions
  /-- The next free bit in a `struct`, and always zero in a `union`. -/
  next : ℕ
  /-- How many bits the record occupies so far. -/
  bits : ℕ
  align : ℕ
  max : ℕ
  empty : ℕ
  /-- The Microsoft bit-field allocation unit that is open, if one is. -/
  unit : Option BitUnit
  fields : List Field
  /-- Where the running position starts from, once a member of no fixed size has gone by. -/
  base : Option Extent
  baseAlign : ℕ
  offsets : List (Option Extent)
  style : BitFieldStyle
  unnamedAligns : Bool
  widest : List Extent

namespace Builder

def new (kind : RecordKind) (options : RecordOptions) (target : TargetInfo) : Builder where
  kind := kind
  options := options
  next := 0
  bits := 0
  align := 1
  max := target.maxObjectSize
  empty := target.emptyRecordSize
  unit := none
  fields := []
  base := none
  baseAlign := 1
  offsets := []
  style := options.bitFields.getD target.bitFieldStyle
  unnamedAligns := target.unnamedBitFieldAlignsUnder (options.bitFields.getD target.bitFieldStyle)
  widest := []

/-- The position so many bytes past where the running position is counted from. -/
def position (s : Builder) (bytes : ℕ) : Extent :=
  match s.base with
  | some base => .sumOf [base, .bytes bytes]
  | none => .bytes bytes

/-- Records one member as placed at so many bits from the start of the record. -/
def push (s : Builder) (decl : FieldDecl) (start : ℕ) (bits : Option ℕ) (align : ℕ) : Except Stop Builder := do
  let offset ← narrow (start / 8)
  return { s with
    fields := s.fields ++ [⟨decl.name, decl.ty, offset, start % 8, align, bits⟩]
    offsets := s.offsets ++ [s.base.map fun _ => s.position offset] }

/-- Closes the open Microsoft allocation unit, if there is one. -/
def closeUnit (s : Builder) : Builder :=
  match s.unit with
  | none => s
  | some unit =>
    let stop := min (unit.start + unit.size * 8) (2^128 - 1)
    { s with
      unit := none
      next := if s.kind = .struct then Nat.max s.next stop else s.next
      bits := Nat.max s.bits stop }

/-- The alignment a member is placed at, after the attributes have had their say. -/
def memberAlign (s : Builder) (decl : FieldDecl) (natural : ℕ) : ℕ :=
  let align := if s.options.packed || decl.packed then 1 else natural
  let align := match decl.align with
    | some asked => Nat.max align asked
    | none => align
  let align := match s.options.pack with
    | some pack => min align pack
    | none => align
  Nat.max align 1

/-- The bit a member of this alignment starts at, once the member before it is placed. -/
def stepTo (s : Builder) (align : ℕ) : Except Stop (ℕ × Builder) :=
  let boundary := align * 8
  match s.base with
  | none => do
    let start ← roundUp s.next boundary
    return (start, s)
  | some base =>
    if align ≤ s.baseAlign ∧ s.next % boundary = 0 then .ok (s.next, s)
    else do
      let bytes ← narrow ((s.next + 7) / 8)
      let base ← (Extent.sumOf [base, .bytes bytes]).roundUpTo align
      return (0, { s with base := some base, baseAlign := align, next := 0, bits := 0 })

/-- Records that a member that starts and ends here has been placed. -/
def advance (s : Builder) (offset size : ℕ) : Builder :=
  let stop := min (offset + size) (2^128 - 1)
  { s with next := if s.kind = .struct then stop else s.next, bits := Nat.max s.bits stop }

/-- The alignment of the record raised to that of a member. -/
def raise (s : Builder) (align : ℕ) : Builder := { s with align := Nat.max s.align align }

/-- Places a member whose length is not known until the program runs. -/
def varying (s : Builder) (types : Types) (index : ℕ) (decl : FieldDecl) : Except Stop Builder :=
  match types.align decl.ty with
  | .error error => .error (.record (.member index error))
  | .ok natural =>
    let align := s.memberAlign decl natural
    if 2^32 ≤ index then .error (.record .tooLarge)
    else
      let s := s.closeUnit
      match s.kind with
      | .struct => do
        let (start, s) ← s.stepTo align
        let bytes ← narrow (start / 8)
        let here := s.position bytes
        let s ← s.push decl start none align
        return { s with
          base := some (Extent.sumOf [here, Extent.member index])
          baseAlign := Nat.max (min align natural) 1
          next := 0
          bits := 0 }.raise align
      | .union => do
        let s ← s.push decl 0 none align
        return { s with widest := s.widest ++ [Extent.member index] }.raise align

/-- Places an ordinary member. -/
def ordinary (s : Builder) (decl : FieldDecl) (member : Layout) (align : ℕ) : Except Stop Builder := do
  let s := s.closeUnit
  let (offset, s) ← (match s.kind with
    | .struct => s.stepTo align
    | .union => .ok (0, s) : Except Stop (ℕ × Builder))
  let s ← s.push decl offset none align
  return (s.advance offset (member.size * 8)).raise align

/-- Whether packing is in play for a member, which is what takes the straddle rule out. -/
def packing (s : Builder) (decl : FieldDecl) : Bool := s.options.packed || decl.packed || s.options.pack.isSome

/-- Places a bit-field by the Itanium rule, and says where it went. -/
def itanium (s : Builder) (decl : FieldDecl) (align capacity width : ℕ) : Except Stop (ℕ × Builder) := do
  let s ← (if s.kind = .struct ∧ decl.align.isSome then
      (s.stepTo align).map fun r => { r.2 with next := r.1 }
    else .ok s : Except Stop Builder)
  let offset ← (match s.kind with
    | .union => .ok 0
    | .struct =>
      if s.packing decl ∨ s.base.isSome then .ok s.next
      else (addWords 128 (s.next % (align * 8)) width).bind fun used =>
        if capacity < used then roundUp s.next (align * 8) else .ok s.next : Except Stop ℕ)
  return (offset, s.advance offset width)

/-- Whether a bit-field of this type size joins the unit that is open. -/
def joins (s : Builder) (member : Layout) (width : ℕ) : Except Stop (Option BitUnit) :=
  match s.unit with
  | none => .ok none
  | some unit =>
    if unit.size = member.size then do
      let used ← addWords 128 unit.used width
      return if used ≤ unit.size * 8 then some unit else none
    else .ok none

/-- Places a bit-field by Microsoft's rule, and says where it went. -/
def microsoft (s : Builder) (member : Layout) (align width : ℕ) : Except Stop (ℕ × Builder) :=
  if s.kind = .union then .ok (0, { s with bits := Nat.max s.bits (member.size * 8) })
  else do
    match ← s.joins member width with
    | some unit =>
      let offset ← addWords 128 unit.start unit.used
      let used ← addWords 32 unit.used width
      let next ← addWords 128 offset width
      return (offset, { s with unit := some { unit with used := used }, next := next })
    | none =>
      let s := s.closeUnit
      let start ← roundUp s.next (align * 8)
      let next ← addWords 128 start width
      let stop ← addWords 128 start (member.size * 8)
      return (start, { s with
        unit := some ⟨start, member.size, width⟩
        next := next
        bits := Nat.max s.bits stop })

/-- Whether a bit-field raises the record's alignment to its own. -/
def contributesAlignment (s : Builder) (target : TargetInfo) (named : Bool) : Bool :=
  if s.kind = .union ∧ s.style = .microsoft ∧ target.msvc then false else named || s.unnamedAligns

/-- Places a bit-field of non-zero width. -/
def bitField (s : Builder) (target : TargetInfo) (index : ℕ) (decl : FieldDecl) (member : Layout)
    (align width : ℕ) : Except Stop Builder := do
  let capacity := min (member.size * 8) (2^32 - 1)
  if capacity < width then .error (.record (.bitFieldTooWide index width capacity))
  else
    let (offset, s) ← (match s.style with
      | .itanium => s.itanium decl align capacity width
      | .microsoft => s.microsoft member align width : Except Stop (ℕ × Builder))
    let s ← s.push decl offset (some width) align
    return if s.contributesAlignment target decl.name.isSome then s.raise align else s

/-- Handles a zero width bit-field, which places nothing and moves the next member on. -/
def zeroWidth (s : Builder) (target : TargetInfo) (decl : FieldDecl) (natural : ℕ) : Except Stop Builder := do
  let s ← (match s.style with
    | .itanium =>
      (if s.kind = .struct then
        (roundUp s.next (Nat.max natural 1 * 8)).map fun next => { s with next := next, bits := Nat.max s.bits next }
      else .ok s).map fun s => if s.contributesAlignment target false then s.raise (Nat.max natural 1) else s
    | .microsoft =>
      if s.unit.isSome ∧ s.kind = .struct then
        let align := s.closeUnit.memberAlign decl (Nat.max natural 1)
        (roundUp s.closeUnit.next (align * 8)).map fun next =>
          { s.closeUnit with next := next, bits := Nat.max s.closeUnit.bits next }.raise align
      else .ok s.closeUnit : Except Stop Builder)
  s.push decl s.next (some 0) (Nat.max natural 1)

/-- The layout a member occupies, which for a flexible array member is none of it. -/
def memberLayout (types : Types) (ty : ℕ) (flexible : Bool) : Except LayoutError Layout :=
  if !flexible then types.layout ty
  else (types.element ty).map fun elem => ⟨0, elem.align⟩

/-- Whether a member is laid out as an array with no size. -/
def flexible (kind : RecordKind) (types : Types) (decl : FieldDecl) (last : Bool) : Bool :=
  (last || kind = .union) && types.flexibleArray decl.ty

/-- Places one member. -/
def place (s : Builder) (types : Types) (target : TargetInfo) (index : ℕ) (decl : FieldDecl) (last : Bool) :
    Except Stop Builder :=
  match memberLayout types decl.ty (flexible s.kind types decl last) with
  | .error .varying => s.varying types index decl
  | .error error => .error (.record (.member index error))
  | .ok member =>
    let align := s.memberAlign decl member.align
    match decl.bits with
    | none => s.ordinary decl member align
    | some width =>
      let unit := if width = 0 then member.align else align
      let loose := width ≠ 0 ∧ s.style = .itanium
      if s.base.isSome ∧ ¬ loose ∧ s.baseAlign < unit then .error (.record (.variableBitField index))
      else if width = 0 then s.zeroWidth target decl member.align
      else s.bitField target index decl member align width

/-- The finished record, where how long it is depends on something the program computes. -/
def finishVariable (s : Builder) (align : ℕ) : Except Stop RecordLayout := do
  let bytes ← narrow ((s.bits + 7) / 8)
  let size := match s.kind with
    | .struct => s.position bytes
    | .union => .maxOf (s.widest ++ [.bytes bytes])
  let rounded ← if align ≤ s.baseAlign ∧ bytes % align = 0 then pure size else size.roundUpTo align
  return ⟨⟨0, align⟩, s.fields, some ⟨rounded, s.offsets⟩⟩

/-- The alignment of the members, raised to what was asked of the record. -/
def wholeAlign (s : Builder) : ℕ :=
  match s.options.align with
  | some asked => Nat.max s.align asked
  | none => s.align

/-- The finished record. -/
def finish (s : Builder) : Except Stop RecordLayout :=
  let align := s.wholeAlign
  if s.base.isSome ∨ s.widest ≠ [] then s.finishVariable align
  else do
    let bytes ← narrow ((s.bits + 7) / 8)
    let size := if s.bits = 0 then s.empty else bytes
    let size ← narrow (nextMultipleOf size align)
    if s.max < size then .error (.record .tooLarge)
    else return ⟨⟨size, align⟩, s.fields, none⟩

/-- The members placed one after another, from one index on. -/
def placeAll (types : Types) (target : TargetInfo) (count : ℕ) :
    ℕ → List FieldDecl → Builder → Except Stop Builder
  | _, [], s => .ok s
  | index, decl :: rest, s => do
    let s ← s.place types target index decl (index + 1 = count)
    placeAll types target count (index + 1) rest s

end Builder

/-- Lays out a `struct` or a `union`. -/
def layoutRecord (types : Types) (kind : RecordKind) (fields : List FieldDecl) (options : RecordOptions)
    (target : TargetInfo) : Except Stop RecordLayout := do
  let s ← Builder.placeAll types target fields.length 0 fields (Builder.new kind options target)
  s.finish

end Rucc.CTypes
