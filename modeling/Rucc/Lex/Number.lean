import Rucc.Base.FloatText

/-!
# Integer constants

`rucc-lex`'s `number.rs`, the half about integers: a spelling becomes a value and a type. A byte of the spelling is the
character it is. The count of the digits is only asked whether it is zero, so it is a natural number, and what the value
is held in has a hundred and twenty-eight bits.
-/

namespace Rucc.Lex

open Base (hexDigit)

/-! ## What a constant may be -/

/-- A version of the language. -/
inductive Std where
  | C89
  | C99
  | C11
  | C17
  | C23
  | C2y
  deriving DecidableEq

/-- The versions are in the order they came out. -/
instance : LT Std := ⟨fun a b => a.ctorIdx < b.ctorIdx⟩

instance (a b : Std) : Decidable (a < b) := inferInstanceAs (Decidable (a.ctorIdx < b.ctorIdx))

/-- A type of integers. -/
inductive IntKind where
  | char
  | sChar
  | uChar
  | short
  | uShort
  | int
  | uInt
  | long
  | uLong
  | longLong
  | uLongLong
  | int128
  | uInt128
  deriving DecidableEq

/-- Whether this type is signed, given what the target says about plain `char`. -/
def IntKind.isSigned (charIsSigned : Bool) : IntKind → Bool
  | .char => charIsSigned
  | .sChar | .short | .int | .long | .longLong | .int128 => true
  | .uChar | .uShort | .uInt | .uLong | .uLongLong | .uInt128 => false

/-- Which of the types of C the machine's words are. -/
inductive DataModel where
  | lp64
  | ilp32
  | llp64
  | ilp32On64
  deriving DecidableEq

/-- The width of `long` in bits. -/
def DataModel.longWidth : DataModel → ℕ
  | .lp64 => 64
  | .ilp32 | .llp64 | .ilp32On64 => 32

/-- What is asked of the target: its data model, and whether it has `__int128`. -/
structure TargetInfo where
  dataModel : DataModel
  hasInt128 : Bool
  deriving DecidableEq

/-- How many bits an integer type has. -/
def intWidth (kind : IntKind) (target : TargetInfo) : ℕ :=
  match kind with
  | .char | .sChar | .uChar => 8
  | .short | .uShort => 16
  | .int | .uInt => 32
  | .long | .uLong => target.dataModel.longWidth
  | .longLong | .uLongLong => 64
  | .int128 | .uInt128 => 128

/-- What is worth saying about a constant, one bit each. -/
structure Remarks where
  bits : ℕ
  deriving DecidableEq

namespace Remarks

def NONE : Remarks := ⟨0⟩
def BINARY : Remarks := ⟨1⟩
def SEPARATORS : Remarks := ⟨2⟩
def BIT_INT : Remarks := ⟨4⟩
def LONG_LONG : Remarks := ⟨8⟩
def UNSIGNED : Remarks := ⟨16⟩
def IMAGINARY : Remarks := ⟨256⟩

/-- One more thing to say. -/
def with_ (r other : Remarks) : Remarks := ⟨r.bits ||| other.bits⟩

end Remarks

/-- The type of an integer constant. -/
inductive IntConstantType where
  | standard (kind : IntKind)
  | bitInt (signed : Bool) (width : ℕ)
  deriving DecidableEq

/-- A suffix that names this type, for a printer putting the constant back. -/
def IntConstantType.suffix : IntConstantType → List Char
  | .standard kind =>
    match kind with
    | .uInt | .uInt128 => ['u']
    | .long => ['l']
    | .uLong => ['u', 'l']
    | .longLong => ['l', 'l']
    | .uLongLong => ['u', 'l', 'l']
    | _ => []
  | .bitInt true _ => ['w', 'b']
  | .bitInt false _ => ['u', 'w', 'b']

/-- A converted integer constant. -/
structure IntConstant where
  value : ℕ
  ty : IntConstantType
  imaginary : Bool
  remarks : Remarks
  deriving DecidableEq

/-- A constant put back, as the printer of the syntax tree writes it. -/
def IntConstant.spelling (c : IntConstant) : List Char := Nat.toDigits 10 c.value ++ c.ty.suffix

/-- Why a preprocessing number is not an integer constant. -/
inductive IntError where
  | floating
  | invalidSuffix
  | invalidOctalDigit
  | noDigits
  | tooLarge
  deriving DecidableEq

/-! ## The digits -/

/-- The base a spelling is written in, and where its digits start. -/
def baseOf : List Char → ℕ × ℕ
  | '0' :: next :: _ =>
    if next = 'x' ∨ next = 'X' then (16, 2)
    else if next = 'b' ∨ next = 'B' then (2, 2)
    -- The zero is a digit of its own, so that a separator may follow it.
    else if next.isDigit ∨ next = '\x27' then (8, 0)
    else (10, 0)
  | _ => (10, 0)

/-- Whether the spelling is a floating constant rather than an integer one. -/
def isFloating (bytes : List Char) (base : ℕ) : Bool :=
  bytes.any fun byte => byte = '.' ∨ byte ∈ if base = 16 then ['p', 'P'] else ['e', 'E']

/-- The value of a digit in the given base. An octal constant reads `8` and `9` as digits. -/
def digit (byte : Char) (base : ℕ) : Option ℕ := (hexDigit byte).filter (· < if base = 8 then 10 else base)

/-- What has been read: the value, how many digits it had, and what there is to say about them. -/
structure Read where
  value : ℕ
  digits : ℕ
  remarks : Remarks
  deriving DecidableEq

/-- Reads the digits, and leaves what is behind them. -/
def readDigits (base : ℕ) (std : Std) : List Char → Read → Except IntError (Read × List Char)
  | [], read => .ok (read, [])
  | byte :: rest, read =>
    if byte = '\x27' then
      -- A separator is only a separator between two digits.
      if read.digits = 0 ∨ (rest.head?.bind (digit · base)).isNone then .error .invalidSuffix
      else
        readDigits base std rest
          { read with remarks := if std < .C23 then read.remarks.with_ .SEPARATORS else read.remarks }
    else
      match digit byte base with
      | none => .ok (read, byte :: rest)
      | some d =>
        if read.value * base + d < 2^128 then
          readDigits base std rest { read with value := read.value * base + d, digits := read.digits + 1 }
        else .error .tooLarge

/-! ## The suffix -/

/-- The length part of a suffix. -/
inductive Length where
  | long
  | longLong
  | bitInt
  deriving DecidableEq

/-- A parsed suffix. -/
structure Suffix where
  unsigned : Bool
  length : Option Length
  imaginary : Bool
  deriving DecidableEq

/-- Reads the suffix, which may hold each part once and in any order. -/
def suffixFrom : List Char → Suffix → Except IntError Suffix
  | [], suffix => if suffix.imaginary ∧ suffix.length = some .bitInt then .error .invalidSuffix else .ok suffix
  | byte :: rest, suffix =>
    if (byte = 'u' ∨ byte = 'U') ∧ !suffix.unsigned then suffixFrom rest { suffix with unsigned := true }
    else if (byte = 'i' ∨ byte = 'j' ∨ byte = 'I' ∨ byte = 'J') ∧ !suffix.imaginary then
      suffixFrom rest { suffix with imaginary := true }
    else if (byte = 'l' ∨ byte = 'L') ∧ suffix.length = none then
      -- The two letters have to agree about case.
      match rest with
      | second :: after =>
        if second = byte then suffixFrom after { suffix with length := some .longLong }
        else suffixFrom (second :: after) { suffix with length := some .long }
      | [] => suffixFrom [] { suffix with length := some .long }
    else if (byte = 'w' ∨ byte = 'W') ∧ suffix.length = none then
      match rest with
      | second :: after =>
        if second = (if byte = 'w' then 'b' else 'B') then suffixFrom after { suffix with length := some .bitInt }
        else .error .invalidSuffix
      | [] => .error .invalidSuffix
    else .error .invalidSuffix

def suffixOf (rest : List Char) : Except IntError Suffix := suffixFrom rest ⟨false, none, false⟩

/-! ## The type -/

/-- The type of a `wb` constant, which is the narrowest one that holds the value. -/
def bitInt (value : ℕ) (unsigned : Bool) : IntConstantType :=
  let used := Nat.size value
  let width := if unsigned then max used 1 else used + 1
  .bitInt (!unsigned) (max width (if unsigned then 1 else 2))

/-- Whether this is one of the standard signed types. -/
def signedStandard (kind : IntKind) : Bool := kind = .int ∨ kind = .long ∨ kind = .longLong

/-- Whether the value fits in a type on this target. -/
def fits (value : ℕ) (kind : IntKind) (target : TargetInfo) : Bool :=
  let width := intWidth kind target
  let bits := if kind.isSigned false then width - 1 else width
  128 ≤ bits ∨ value >>> bits = 0

/-- The candidate list for a base and a suffix, in the order the standard walks it. -/
def candidates (base : ℕ) (suffix : Suffix) (std : Std) : List IntKind :=
  let decimal := base = 10
  let c89 := std = .C89
  match suffix.unsigned, suffix.length with
  | false, none =>
    if decimal ∧ c89 then [.int, .long, .uLong, .int128, .uInt128]
    else if decimal then [.int, .long, .longLong, .int128]
    else if c89 then [.int, .uInt, .long, .uLong, .int128, .uInt128]
    else [.int, .uInt, .long, .uLong, .longLong, .uLongLong, .int128, .uInt128]
  | true, none => if c89 then [.uInt, .uLong, .uInt128] else [.uInt, .uLong, .uLongLong, .uInt128]
  | false, some .long =>
    if decimal ∧ c89 then [.long, .uLong, .int128, .uInt128]
    else if decimal then [.long, .longLong, .int128]
    else if c89 then [.long, .uLong, .int128, .uInt128]
    else [.long, .uLong, .longLong, .uLongLong, .int128, .uInt128]
  | true, some .long => if c89 then [.uLong, .uInt128] else [.uLong, .uLongLong, .uInt128]
  | false, some .longLong =>
    if decimal then [.longLong, .int128] else [.longLong, .uLongLong, .int128, .uInt128]
  | true, some .longLong => [.uLongLong, .uInt128]
  -- A `wb` constant never gets here.
  | _, some .bitInt => []

/-- The constant of a value and a suffix. -/
def constant (base : ℕ) (std : Std) (target : TargetInfo) (value : ℕ) (suffix : Suffix) (remarks : Remarks) :
    Except IntError IntConstant :=
  let remarks := if suffix.length = some .longLong ∧ std = .C89 then remarks.with_ .LONG_LONG else remarks
  let remarks := if suffix.imaginary then remarks.with_ .IMAGINARY else remarks
  if suffix.length = some .bitInt then
    let remarks := if std < .C23 then remarks.with_ .BIT_INT else remarks
    .ok ⟨value, bitInt value suffix.unsigned, false, remarks⟩
  else
    match (candidates base suffix std).find? (fits value · target) with
    | none => .error .tooLarge
    | some kind =>
      let remarks :=
        if base = 10 ∧ !suffix.unsigned ∧ !signedStandard kind then remarks.with_ .UNSIGNED else remarks
      .ok ⟨value, .standard kind, suffix.imaginary, remarks⟩

/-- Converts the spelling of a preprocessing number into an integer constant. -/
def integer (bytes : List Char) (std : Std) (target : TargetInfo) : Except IntError IntConstant :=
  let (base, start) := baseOf bytes
  if isFloating bytes base then .error .floating
  else do
    let remarks := if base = 2 ∧ std < .C23 then Remarks.NONE.with_ .BINARY else .NONE
    let (read, rest) ← readDigits base std (bytes.drop start) ⟨0, 0, remarks⟩
    if read.digits = 0 then .error .noDigits
    else if base = 8 ∧ ((bytes.drop start).take ((bytes.drop start).length - rest.length)).any
        (fun byte => byte = '8' ∨ byte = '9') then
      .error .invalidOctalDigit
    else do
      let suffix ← suffixOf rest
      constant base std target read.value suffix read.remarks

end Rucc.Lex
