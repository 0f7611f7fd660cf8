import Rucc.Abi.Classify

/-!
# The psABIs, as descriptions

The descriptions of `abis.rs`, as far as they decide how a value travels. `DESCRIBED` is all of them. A
description that differs from another one only in who takes the arguments off the stack is the same here,
under its own name.
-/

namespace Rucc.Abi

/-- A scalar that spends registers in no special way. -/
def plainScalars : Scalars where
  inMemory := none
  wideIntegerIsAllOrNothing := false
  wideIntegerStartsEven := false
  wideIntegerDrains := false
  wideIsByReference := false
  wideIntegerReturnsIn := none
  wideIntegerInMemory := false
  quadReturnsByReference := false

def SYSV_AMD64 : AbiDescription where
  name := "SysV AMD64"
  banks := ⟨6, 8, false, 8, 16⟩
  scalars := { plainScalars with inMemory := some .x87Extended, wideIntegerIsAllOrNothing := true }
  returns := [⟨.empty, .ignore, .unchanged⟩, ⟨.x87Stack, .asFound, .unchanged⟩,
    ⟨.eightbytes 16, .asFound, .unchanged⟩, ⟨.anything, .byReference, .unchanged⟩]
  arguments := [⟨.empty, .ignore, .unchanged⟩, ⟨.eightbytes 16, .asFound, .memory⟩,
    ⟨.anything, .inMemory, .unchanged⟩]
  returnPointer := .firstArgument
  variadic := .sameAsFixed

def AAPCS64 : AbiDescription where
  name := "AAPCS64"
  banks := ⟨8, 8, false, 8, 16⟩
  scalars := { plainScalars with wideIntegerStartsEven := true, wideIntegerDrains := true }
  returns := [⟨.empty, .ignore, .unchanged⟩, ⟨.homogeneous 4, .asFound, .unchanged⟩,
    ⟨.sizeAtMost 16, .asIntegers, .unchanged⟩, ⟨.anything, .byReference, .unchanged⟩]
  arguments := [⟨.empty, .ignore, .unchanged⟩, ⟨.homogeneous 4, .asFound, .memoryAndDrain⟩,
    ⟨.sizeAtMost 16, .asIntegers, .memoryAndDrain⟩, ⟨.anything, .byReference, .unchanged⟩]
  returnPointer := .dedicated
  variadic := .sameAsFixed

def DARWIN_ARM64 : AbiDescription :=
  { AAPCS64 with
    name := "Darwin arm64"
    scalars := { AAPCS64.scalars with wideIntegerStartsEven := false }
    variadic := .alwaysMemory }

def WINDOWS_ARM64 : AbiDescription := { AAPCS64 with name := "Windows arm64", variadic := .integersOnly }

def WIN64 : AbiDescription where
  name := "Windows x64"
  banks := ⟨4, 0, true, 8, 16⟩
  scalars := { plainScalars with wideIsByReference := true, wideIntegerReturnsIn := some .quad }
  returns := [⟨.empty, .ignore, .unchanged⟩, ⟨.sizeOneOf [1, 2, 4, 8], .asOneInteger, .unchanged⟩,
    ⟨.anything, .byReference, .unchanged⟩]
  arguments := [⟨.sizeOneOf [1, 2, 4, 8], .asOneInteger, .unchanged⟩, ⟨.anything, .byReference, .unchanged⟩]
  returnPointer := .firstArgument
  variadic := .bothBanks

def RISCV_LP64D : AbiDescription where
  name := "RISC-V LP64D"
  banks := ⟨8, 8, false, 8, 8⟩
  scalars := plainScalars
  returns := [⟨.empty, .ignore, .unchanged⟩, ⟨.floatPair, .asFound, .unchanged⟩,
    ⟨.sizeAtMost 16, .asIntegers, .unchanged⟩, ⟨.anything, .byReference, .unchanged⟩]
  arguments := [⟨.empty, .ignore, .unchanged⟩, ⟨.floatPair, .asFound, .tryNextRule⟩,
    ⟨.sizeAtMost 16, .asIntegers, .memoryAndDrain⟩, ⟨.anything, .byReference, .unchanged⟩]
  returnPointer := .firstArgument
  variadic := .unnamedIntegers

def I386_SYSV : AbiDescription where
  name := "i386 SysV"
  banks := ⟨0, 0, false, 4, 8⟩
  scalars := { plainScalars with quadReturnsByReference := true }
  returns := [⟨.empty, .ignore, .unchanged⟩, ⟨.complexFloat, .asIntegers, .unchanged⟩,
    ⟨.anything, .byReference, .unchanged⟩]
  arguments := [⟨.empty, .ignore, .unchanged⟩, ⟨.anything, .inMemory, .unchanged⟩]
  returnPointer := .firstArgumentPopped
  variadic := .sameAsFixed

/-- Where a value comes back under `-freg-struct-return`. -/
def REG_STRUCT_RETURNS : List Rule :=
  [⟨.empty, .ignore, .unchanged⟩, ⟨.loneFloat, .asFound, .unchanged⟩,
    ⟨.sizeOneOf [1, 2, 4, 8], .asIntegers, .unchanged⟩, ⟨.anything, .byReference, .unchanged⟩]

/-- How a structure travels in the registers of `regparm`. -/
def REGPARM_ARGUMENTS : List Rule :=
  [⟨.empty, .ignore, .unchanged⟩, ⟨.loneFloat, .inMemory, .unchanged⟩,
    ⟨.anything, .asIntegers, .memoryAndDrain⟩]

/-- The System V convention for i386 with so many argument registers. -/
def regparm (name : String) (registers : ℕ) : AbiDescription :=
  { I386_SYSV with
    name := name
    banks := { I386_SYSV.banks with integer := registers }
    scalars := { I386_SYSV.scalars with wideIntegerIsAllOrNothing := true, wideIntegerDrains := true }
    arguments := REGPARM_ARGUMENTS
    returnPointer := .firstArgument }

def I386_SYSV_REGPARM : List AbiDescription :=
  [regparm "i386 SysV regparm(1)" 1, regparm "i386 SysV regparm(2)" 2, regparm "i386 SysV regparm(3)" 3]

def I386_SYSV_REG_STRUCT : AbiDescription :=
  { I386_SYSV with name := "i386 SysV -freg-struct-return", returns := REG_STRUCT_RETURNS }

def I386_SYSV_REGPARM_REG_STRUCT : List AbiDescription :=
  [{ regparm "i386 SysV regparm(1) -freg-struct-return" 1 with returns := REG_STRUCT_RETURNS },
    { regparm "i386 SysV regparm(2) -freg-struct-return" 2 with returns := REG_STRUCT_RETURNS },
    { regparm "i386 SysV regparm(3) -freg-struct-return" 3 with returns := REG_STRUCT_RETURNS }]

def I386_SYSV_STDCALL : AbiDescription :=
  { I386_SYSV with name := "i386 SysV stdcall", returnPointer := .firstArgument }

def I386_SYSV_REGPARM_STDCALL : List AbiDescription :=
  [regparm "i386 SysV stdcall regparm(1)" 1, regparm "i386 SysV stdcall regparm(2)" 2,
    regparm "i386 SysV stdcall regparm(3)" 3]

def I386_SYSV_REG_STRUCT_STDCALL : AbiDescription :=
  { I386_SYSV_STDCALL with name := "i386 SysV stdcall -freg-struct-return", returns := REG_STRUCT_RETURNS }

def I386_SYSV_REGPARM_REG_STRUCT_STDCALL : List AbiDescription :=
  [{ regparm "i386 SysV stdcall regparm(1) -freg-struct-return" 1 with returns := REG_STRUCT_RETURNS },
    { regparm "i386 SysV stdcall regparm(2) -freg-struct-return" 2 with returns := REG_STRUCT_RETURNS },
    { regparm "i386 SysV stdcall regparm(3) -freg-struct-return" 3 with returns := REG_STRUCT_RETURNS }]

def I386_MINGW : AbiDescription where
  name := "i386 Windows (mingw)"
  banks := ⟨0, 0, false, 4, 8⟩
  scalars := { plainScalars with quadReturnsByReference := true }
  returns := REG_STRUCT_RETURNS
  arguments := [⟨.empty, .ignore, .unchanged⟩, ⟨.anything, .inMemory, .unchanged⟩]
  returnPointer := .firstArgument
  variadic := .sameAsFixed

def I386_MSVC : AbiDescription :=
  { I386_MINGW with
    name := "i386 Windows (MSVC)"
    returns := [⟨.empty, .ignore, .unchanged⟩, ⟨.sizeOneOf [1, 2, 4, 8], .asIntegers, .unchanged⟩,
      ⟨.anything, .byReference, .unchanged⟩] }

def I386_MINGW_STDCALL : AbiDescription := { I386_MINGW with name := "i386 Windows stdcall (mingw)" }

def I386_MINGW_FASTCALL : AbiDescription :=
  { I386_MINGW with
    name := "i386 Windows fastcall (mingw)"
    banks := { I386_MINGW.banks with integer := 2 }
    scalars := { I386_MINGW.scalars with wideIntegerInMemory := true }
    arguments := [⟨.empty, .ignore, .unchanged⟩, ⟨.floatingMode, .inMemory, .unchanged⟩,
      ⟨.anything, .inMemoryAndSpend, .unchanged⟩] }

def I386_MSVC_STDCALL : AbiDescription :=
  { I386_MINGW_STDCALL with name := "i386 Windows stdcall (MSVC)", returns := I386_MSVC.returns }

def I386_MSVC_FASTCALL : AbiDescription :=
  { I386_MINGW_FASTCALL with name := "i386 Windows fastcall (MSVC)", returns := I386_MSVC.returns }

def I386_SYSV_FASTCALL : AbiDescription :=
  { I386_MINGW_FASTCALL with name := "i386 SysV fastcall", returns := I386_SYSV.returns }

def I386_SYSV_REG_STRUCT_FASTCALL : AbiDescription :=
  { I386_MINGW_FASTCALL with name := "i386 SysV fastcall -freg-struct-return", returns := REG_STRUCT_RETURNS }

def WASM32_BASIC_C : AbiDescription where
  name := "wasm32 Basic C"
  banks := ⟨1000, 1000, false, 8, 16⟩
  scalars := plainScalars
  returns := [⟨.empty, .ignore, .unchanged⟩, ⟨.singleScalar, .asFound, .unchanged⟩,
    ⟨.anything, .byReference, .unchanged⟩]
  arguments := [⟨.empty, .ignore, .unchanged⟩, ⟨.variadicVector, .inMemory, .unchanged⟩,
    ⟨.singleScalar, .asFound, .unchanged⟩, ⟨.vector, .asFound, .unchanged⟩,
    ⟨.anything, .byReference, .unchanged⟩]
  returnPointer := .firstArgument
  variadic := .sameAsFixed

def WASM32_SIMD128 : AbiDescription :=
  { WASM32_BASIC_C with
    name := "wasm32 Basic C simd128"
    returns := [⟨.empty, .ignore, .unchanged⟩, ⟨.wholeVector 16, .asFound, .unchanged⟩,
      ⟨.singleScalar, .asFound, .unchanged⟩, ⟨.anything, .byReference, .unchanged⟩]
    arguments := [⟨.empty, .ignore, .unchanged⟩, ⟨.variadicVector, .inMemory, .unchanged⟩,
      ⟨.wholeVector (2^64 - 1), .asFound, .unchanged⟩, ⟨.singleScalar, .asFound, .unchanged⟩,
      ⟨.anything, .byReference, .unchanged⟩] }

/-- Every ABI described here. -/
def DESCRIBED : List AbiDescription :=
  [SYSV_AMD64, AAPCS64, DARWIN_ARM64, WINDOWS_ARM64, WIN64, RISCV_LP64D, I386_SYSV] ++ I386_SYSV_REGPARM ++
    [I386_SYSV_REG_STRUCT] ++ I386_SYSV_REGPARM_REG_STRUCT ++ [I386_SYSV_STDCALL] ++
    I386_SYSV_REGPARM_STDCALL ++ [I386_SYSV_REG_STRUCT_STDCALL] ++ I386_SYSV_REGPARM_REG_STRUCT_STDCALL ++
    [I386_SYSV_FASTCALL, I386_SYSV_REG_STRUCT_FASTCALL, I386_MINGW, I386_MSVC, I386_MINGW_STDCALL,
      I386_MINGW_FASTCALL, I386_MSVC_STDCALL, I386_MSVC_FASTCALL, WASM32_BASIC_C, WASM32_SIMD128]

end Rucc.Abi
