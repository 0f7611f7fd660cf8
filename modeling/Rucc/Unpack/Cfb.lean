import Rucc.Base.Hash
import Rucc.Lib.Checked

/-!
# The compound file

`rucc-unpack`'s `cfb.rs`: the header, the two allocation tables, the mini stream, the walk of the directory and what a
stream holds. A `usize` is a word of 64 bits. The two loops that follow a chain are one loop, `follow`, over what a
number's piece is and which number comes next.
-/

namespace Rucc.Unpack.Compound

open Base

/-- The eight bytes every compound file starts with. -/
def SIGNATURE : List UInt8 := [0xd0, 0xcf, 0x11, 0xe0, 0xa1, 0xb1, 0x1a, 0xe1]

/-- Little endian. -/
def ORDER : ℕ := 0xfffe

/-- The largest sector number that means a sector. -/
def MAX : ℕ := 0xfffffffa

/-- How large a mini sector is, as a shift. -/
def MINI : ℕ := 6

/-- The size under which a stream goes in the mini stream. -/
def CUTOFF : ℕ := 4096

/-- How many sector numbers the header itself carries. -/
def IN_HEADER : ℕ := 109

/-- How large one directory entry is. -/
def ENTRY : ℕ := 128

/-- A directory entry that is a stream. -/
def STREAM : UInt8 := 2

/-- A directory entry that is a storage. -/
def STORAGE : UInt8 := 1

/-- The root. -/
def ROOT : UInt8 := 5

/-- The size that stands for everything a chain covers. -/
def USIZE_MAX : ℕ := 2^64 - 1

/-- Why a compound file could not be read. -/
inductive CfbError where
  | notACfb
  | version (major : ℕ)
  | malformed (what : String)
  | truncated (what : String)
  | cycle (what : String)
  | name
  deriving DecidableEq

/-- One stream in a compound file. -/
structure Stream where
  name : String
  size : ℕ
  start : ℕ
  deriving DecidableEq

/-- A compound file that has been read as far as its directory. -/
structure Cfb where
  bytes : List UInt8
  sector : ℕ
  fat : List ℕ
  minifat : List ℕ
  mini : List UInt8
  streams : List Stream
  deriving DecidableEq

/-! ## Pieces and numbers -/

/-- Some bytes from a place on, where there are as many. -/
def slice (bytes : List UInt8) (start n : ℕ) : Option (List UInt8) :=
  if start + n ≤ bytes.length then some ((bytes.drop start).take n) else none

/-- A value, or the error that stands for there being none. -/
def orError {α : Type} (error : CfbError) : Option α → Except CfbError α
  | none => .error error
  | some a => .ok a

/-- Where a sector is in the file. -/
def sectorAt (bytes : List UInt8) (sector at_ : ℕ) (what : String) : Except CfbError (List UInt8) := do
  let start ← orError (.truncated what) (Checked.checkedWord ((at_ + 1) * sector))
  orError (.truncated what) (slice bytes start sector)

/-- A four byte number. -/
def le (bytes : List UInt8) (at_ : ℕ) : ℕ := fromLeBytes ((slice bytes at_ 4).getD [0xff, 0xff, 0xff, 0xff])

/-- An eight byte number. -/
def le64 (bytes : List UInt8) (at_ : ℕ) : ℕ := fromLeBytes ((slice bytes at_ 8).getD (List.replicate 8 0xff))

/-! ## Chains -/

/-- Follows a chain from a number on while what it gave is shorter than a size, at most as many times as the guard
allows. -/
def follow (size : ℕ) (cycle : CfbError) (piece : ℕ → Except CfbError (List UInt8)) (next : ℕ → Except CfbError ℕ) :
    ℕ → ℕ → List UInt8 → Except CfbError (List UInt8)
  | 0, at_, out =>
    if at_ ≤ MAX ∧ out.length < size then do
      let _ ← piece at_
      let _ ← next at_
      .error cycle
    else .ok out
  | guard + 1, at_, out =>
    if at_ ≤ MAX ∧ out.length < size then do
      let it ← piece at_
      let at_ ← next at_
      follow size cycle piece next guard at_ (out ++ it)
    else .ok out

/-- Follows a chain of ordinary sectors and gives what it holds, up to a size. -/
def Cfb.sectors (file : Cfb) (start size : ℕ) (what : String) : Except CfbError (List UInt8) := do
  let out ← follow size (.cycle what) (fun at_ => sectorAt file.bytes file.sector at_ what)
    (fun at_ => orError (.truncated what) file.fat[at_]?) (file.fat.length + 1) start []
  if size ≠ USIZE_MAX then
    if out.length < size then .error (.truncated what) else .ok (out.take size)
  else .ok out

/-- Numbers of two bytes each; a byte that is left over is dropped. -/
def units : List UInt8 → List ℕ
  | lo :: hi :: rest => fromLeBytes [lo, hi] :: units rest
  | _ => []

/-- The characters that UTF-16 code units stand for. A surrogate that is not one of a pair stands for none. -/
def fromUtf16 : List ℕ → Option (List Char)
  | [] => some []
  | high :: rest =>
    if high < 0xd800 ∨ 0xdfff < high then (fromUtf16 rest).map (Char.ofNat high :: ·)
    else
      match rest with
      | low :: rest =>
        if high < 0xdc00 ∧ 0xdc00 ≤ low ∧ low ≤ 0xdfff then
          (fromUtf16 rest).map (Char.ofNat (0x10000 + (high - 0xd800) * 0x400 + (low - 0xdc00)) :: ·)
        else none
      | [] => none

/-- An entry of the directory. -/
def entry (dir : List UInt8) (n : ℕ) : Option (List UInt8) :=
  if n < dir.length / ENTRY then some ((dir.drop (n * ENTRY)).take ENTRY) else none

/-- What kind of entry it is. -/
def kind (it : List UInt8) : UInt8 := it.getD 66 0

/-- The name in an entry. The length it gives counts the terminating NUL. -/
def nameOf (it : List UInt8) : Except CfbError String := do
  let len := fromLeBytes [it.getD 64 0, it.getD 65 0]
  let name ← orError .name (slice it 0 (min (len - 2) 64))
  let name ← orError .name (fromUtf16 (units name))
  .ok (String.ofList name)

/-- A name with the storage it is under before it. -/
def joined (under name : String) : String := if under = "" then name else under ++ "/" ++ name

/-- The first number waiting that an entry has, the name of the storage it is under and what waits behind it. -/
def pop (dir : List UInt8) : List (ℕ × String) → Option (List UInt8 × String × List (ℕ × String))
  | [] => none
  | (n, under) :: todo =>
    match entry dir n with
    | none => pop dir todo
    | some it => some (it, under, todo)

/-- The loop over the entries that wait, the last one that was put there first. -/
def walkFrom (dir : List UInt8) : ℕ → List (ℕ × String) → List Stream → Except CfbError (List Stream)
  | 0, todo, out =>
    match pop dir todo with
    | none => .ok out
    | some _ => .error (.cycle "the directory")
  | guard + 1, todo, out =>
    match pop dir todo with
    | none => .ok out
    | some (it, under, todo) => do
      let name ← nameOf it
      let name := joined under name
      let todo := (le it 72, under) :: (le it 68, under) :: todo
      if kind it = STREAM then walkFrom dir guard todo (out ++ [⟨name, le64 it 120, le it 116⟩])
      else if kind it = STORAGE then walkFrom dir guard ((le it 76, name) :: todo) out
      else walkFrom dir guard todo out

/-- Walks the directory tree and collects the streams in it with their full names. -/
def walk (dir : List UInt8) : Except CfbError (List Stream) :=
  walkFrom dir (dir.length / ENTRY + 1) [(le (dir.take ENTRY) 76, "")] []

/-! ## The header -/

/-- A two byte number of the header. -/
def head (bytes : List UInt8) (at_ : ℕ) : Except CfbError ℕ := do
  let two ← orError (.truncated "the header") (slice bytes at_ 2)
  .ok (fromLeBytes two)

/-- A four byte number of the header. -/
def word (bytes : List UInt8) (at_ : ℕ) : Except CfbError ℕ := do
  let four ← orError (.truncated "the header") (slice bytes at_ 4)
  .ok (fromLeBytes four)

/-- How large a sector is, which goes with the version. -/
def sectorOf (major shift : ℕ) : Except CfbError ℕ :=
  if major = 3 ∧ shift = 9 ∨ major = 4 ∧ shift = 12 then .ok (1 <<< shift)
  else if major = 3 ∨ major = 4 then .error (.malformed "the sector size and the version do not go together")
  else .error (.version major)

/-- The chain of sectors of sector numbers, each of which ends with the number of the next. -/
def numbersFrom (bytes : List UInt8) (sector : ℕ) : ℕ → ℕ → List ℕ → Except CfbError (List ℕ)
  | 0, at_, which =>
    if at_ ≤ MAX then do
      let _ ← sectorAt bytes sector at_ "the sector number table"
      .error (.cycle "the chain of sector number tables")
    else .ok which
  | guard + 1, at_, which =>
    if at_ ≤ MAX then do
      let it ← sectorAt bytes sector at_ "the sector number table"
      numbersFrom bytes sector guard (le it ((sector / 4 - 1) * 4))
        (which ++ (List.range (sector / 4 - 1)).map fun n => le it (n * 4))
    else .ok which

/-- The allocation table in the sectors of these numbers. -/
def tableFrom (bytes : List UInt8) (sector : ℕ) : List ℕ → Except CfbError (List ℕ)
  | [] => .ok []
  | at_ :: which => do
    let it ← sectorAt bytes sector at_ "the sector table"
    let rest ← tableFrom bytes sector which
    .ok ((List.range (sector / 4)).map (fun n => le it (n * 4)) ++ rest)

/-- The header's checks, and the size of a sector. -/
def checkHeader (bytes : List UInt8) : Except CfbError ℕ := do
  let major ← head bytes 26
  let order ← head bytes 28
  if order ≠ ORDER then .error (.malformed "this is not a little endian compound file")
  else
    let shift ← head bytes 30
    let sector ← sectorOf major shift
    let mini ← head bytes 32
    if mini ≠ MINI then .error (.malformed "a mini sector is not 64 bytes")
    else
      let cutoff ← word bytes 56
      if cutoff ≠ CUTOFF then .error (.malformed "the mini stream cutoff is not 4096")
      else .ok sector

/-- The numbers that stand in the header itself. -/
def inHeader (bytes : List UInt8) : Except CfbError (List ℕ) :=
  (List.range IN_HEADER).mapM fun n => word bytes (76 + n * 4)

/-- Reads a compound file's directory. -/
def read (bytes : List UInt8) : Except CfbError Cfb :=
  if slice bytes 0 8 ≠ some SIGNATURE then .error .notACfb
  else do
    let sector ← checkHeader bytes
    let dirAt ← word bytes 48
    let minifatAt ← word bytes 60
    let difatAt ← word bytes 68
    let which ← inHeader bytes
    let which ← numbersFrom bytes sector (bytes.length / sector + 2) difatAt which
    let fat ← tableFrom bytes sector (which.takeWhile (· ≤ MAX))
    let file : Cfb := ⟨bytes, sector, fat, [], [], []⟩
    let mini ← file.sectors minifatAt USIZE_MAX "the mini sector table"
    let file := { file with minifat := (List.range (mini.length / 4)).map fun n => le mini (n * 4) }
    let dir ← file.sectors dirAt USIZE_MAX "the directory"
    let root ← orError (.truncated "the root entry") (slice dir 0 ENTRY)
    if kind root ≠ ROOT then .error (.malformed "the first directory entry is not the root")
    else
      let mini ← file.sectors (le root 116) (le64 root 120) "the mini stream"
      let streams ← walk dir
      .ok { file with mini := mini, streams := streams }

end Rucc.Unpack.Compound
