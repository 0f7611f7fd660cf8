import Rucc.Object.Bits
import Rucc.Object.Matcher

/-!
# The zlib encoder

`zlib.rs`: the header, the blocks with codes of their own, with the fixed ones or with no coding at all, and the
checksum. A panic is nothing.
-/

namespace Rucc.Object

/-- How far back a match may reach. -/
def WINDOW : ℕ := 2^15

/-- The longest match deflate can say. -/
def MAX_MATCH : ℕ := 258

/-- How many symbols go in one block. -/
def BLOCK : ℕ := 2^14

/-- The base of each length code and the extra bits of it. -/
def LEN_BASE : List ℕ :=
  [3, 4, 5, 6, 7, 8, 9, 10, 11, 13, 15, 17, 19, 23, 27, 31, 35, 43, 51, 59, 67, 83, 99, 115, 131, 163, 195, 227, 258]

def LEN_EXTRA : List ℕ := [0, 0, 0, 0, 0, 0, 0, 0, 1, 1, 1, 1, 2, 2, 2, 2, 3, 3, 3, 3, 4, 4, 4, 4, 5, 5, 5, 5, 0]

def DIST_BASE : List ℕ :=
  [1, 2, 3, 4, 5, 7, 9, 13, 17, 25, 33, 49, 65, 97, 129, 193, 257, 385, 513, 769, 1025, 1537, 2049, 3073, 4097, 6145,
    8193, 12289, 16385, 24577]

def DIST_EXTRA : List ℕ :=
  [0, 0, 0, 0, 1, 1, 2, 2, 3, 3, 4, 4, 5, 5, 6, 6, 7, 7, 8, 8, 9, 9, 10, 10, 11, 11, 12, 12, 13, 13]

/-- The order the code length code's own lengths are written in. -/
def ORDER : List ℕ := [16, 17, 18, 0, 8, 7, 9, 6, 10, 5, 11, 4, 12, 3, 13, 2, 14, 1, 15]

/-- A list in pieces of as many elements, and what is left in the last one. -/
def chunks {α : Type*} (n : ℕ) : ℕ → List α → List (List α)
  | _, [] => []
  | 0, _ :: _ => []
  | rounds + 1, x :: l => (x :: l).take n :: chunks n rounds ((x :: l).drop n)

/-- The last place whose element has a property. -/
def rposition {α : Type*} (p : α → Bool) (l : List α) : Option ℕ :=
  ((List.range l.length).filter fun i => l[i]?.any p).getLast?

/-- The code of a base that is not past a number, what is left of the number, and in how many bits it is said. -/
def baseCode (base extra : List ℕ) (n : ℕ) : Option (ℕ × ℕ × ℕ) := do
  let at_ ← rposition (fun base => decide (base ≤ n)) base
  let start ← base[at_]?
  let bits ← extra[at_]?
  return (at_, n - start, bits)

/-- The length code and its extra bits for a match of this length. -/
def lenCode (len : ℕ) : Option (ℕ × ℕ × ℕ) :=
  (baseCode LEN_BASE LEN_EXTRA len).map fun (at_, extra, bits) => (257 + at_, extra, bits)

/-- The distance code and its extra bits for a match this far back. -/
def distCode (dist : ℕ) : Option (ℕ × ℕ × ℕ) := baseCode DIST_BASE DIST_EXTRA dist

/-- One more of a symbol. -/
def bump (counts : List ℕ) (sym : ℕ) : Option (List ℕ) := do
  let count ← counts[sym]?
  put counts sym (count + 1)

/-- The counts of the two codes with those of a symbol. -/
def countSym : List ℕ × List ℕ → Sym → Option (List ℕ × List ℕ)
  | (lit, dist), .lit byte => do
    let lit ← bump lit byte.toNat
    return (lit, dist)
  | (lit, dist), .copy len back => do
    let (code, _, _) ← lenCode (len % 2^16)
    let lit ← bump lit code
    let (code, _, _) ← distCode (back % 2^16)
    let dist ← bump dist code
    return (lit, dist)

/-- The lengths of the fixed codes. -/
def fixed : List ℕ × List ℕ :=
  (List.replicate 144 8 ++ List.replicate 112 9 ++ List.replicate 24 7 ++ List.replicate 8 8, List.replicate 30 5)

/-- How many bits the symbols take with codes of these lengths. -/
def bodyBits (lit dist lensLit lensDist : List ℕ) : ℕ :=
  ((List.range lit.length).map fun sym => lit.getD sym 0 *
    (lensLit.getD sym 0 + if 256 < sym then LEN_EXTRA.getD (sym - 257) 0 else 0)).sum +
  ((List.range dist.length).map fun sym => dist.getD sym 0 * (lensDist.getD sym 0 + DIST_EXTRA.getD sym 0)).sum

/-! ## The header of a block with codes of its own -/

/-- The code lengths run length coded: a symbol of the code length code and its extra bits. Every round goes on by
one length at least. -/
def runs : ℕ → List ℕ → List (ℕ × ℕ)
  | 0, _ => []
  | _ + 1, [] => []
  | rounds + 1, len :: rest =>
    let run := ((len :: rest).takeWhile fun next => next = len).length
    if len = 0 ∧ 3 ≤ run then
      let taken := min run 138
      (if 11 ≤ taken then (18, taken - 11) else (17, taken - 3)) :: runs rounds ((len :: rest).drop taken)
    else if len ≠ 0 ∧ 4 ≤ run then
      let taken := min (run - 1) 6
      (len, 0) :: (16, taken - 3) :: runs rounds ((len :: rest).drop (1 + taken))
    else (len, 0) :: runs rounds rest

/-- How many elements there are up to the last one that is not zero, and so many at least. -/
def upTo (least : ℕ) (lens : List ℕ) : ℕ := max least (((rposition (fun len => decide (len ≠ 0)) lens).map (· + 1)).getD 0)

/-- The code lengths of a dynamic block's two tables, and how they are written. -/
structure Header where
  hlit : ℕ
  hdist : ℕ
  runs : List (ℕ × ℕ)
  lens : List ℕ
  hclen : ℕ

namespace Header

def new (lit dist : List ℕ) : Option Header := do
  let hlit := upTo 257 lit
  let hdist := upTo 1 dist
  let all := lit.take hlit ++ dist.take hdist
  let coded := Object.runs all.length all
  let freq ← coded.foldlM (fun freq (run : ℕ × ℕ) => bump freq run.1) (List.replicate 19 0)
  let lens ← lengths freq 7
  return ⟨hlit, hdist, coded, lens, upTo 4 (ORDER.map fun sym => lens.getD sym 0)⟩

/-- How many bits of the run length a symbol has. -/
def runBits (sym : ℕ) : ℕ := if sym = 16 then 2 else if sym = 17 then 3 else if sym = 18 then 7 else 0

/-- How many bits this takes. -/
def bits (h : Header) : ℕ :=
  5 + 5 + 4 + 3 * h.hclen + (h.runs.map fun run => h.lens.getD run.1 0 + runBits run.1).sum

end Header

/-- A symbol in the codes of a table. -/
def putSym (codes lens : List ℕ) (out : Bits) (sym : ℕ) : Option Bits := do
  let code ← codes[sym]?
  let len ← lens[sym]?
  return out.put code len

/-- A symbol of the code length code and its extra bits. -/
def putRun (codes lens : List ℕ) (out : Bits) (run : ℕ × ℕ) : Option Bits := do
  let out ← putSym codes lens out run.1
  return if Header.runBits run.1 = 0 then out else out.put run.2 (Header.runBits run.1)

def Header.write (h : Header) (out : Bits) : Option Bits := do
  let out := ((out.put (h.hlit - 257) 5).put (h.hdist - 1) 5).put (h.hclen - 4) 4
  let out := (ORDER.take h.hclen).foldl (fun (out : Bits) sym => out.put (h.lens.getD sym 0) 3) out
  let codes ← codes h.lens
  h.runs.foldlM (putRun codes h.lens) out

/-! ## Blocks -/

/-- A number in two bytes, the low one first. -/
def le16 (n : ℕ) : List UInt8 := [UInt8.ofNat n, UInt8.ofNat (n / 2^8)]

/-- Bytes with no coding, in pieces, the last of which may be marked. -/
def putStored (last : Bool) : Bits → List (List UInt8) → Bits
  | out, [] => out
  | out, piece :: rest =>
    let out := ((out.put (if last && rest.isEmpty then 1 else 0) 1).put 0 2).align
    let len := piece.length % 2^16
    putStored last (((out.extend (le16 len)).extend (le16 (2^16 - 1 - len))).extend piece) rest

/-- A literal or a match in the codes of the two tables. -/
def putData (litCodes litLens distCodes distLens : List ℕ) (out : Bits) : Sym → Option Bits
  | .lit byte => putSym litCodes litLens out byte.toNat
  | .copy len back => do
    let (code, extra, bits) ← lenCode (len % 2^16)
    let out ← putSym litCodes litLens out code
    let out := out.put extra bits
    let (code, extra, bits) ← distCode (back % 2^16)
    let out ← putSym distCodes distLens out code
    return out.put extra bits

/-- The literals and matches, and the end of the block. -/
def putBody (litLens distLens : List ℕ) (out : Bits) (syms : List Sym) : Option Bits := do
  let litCodes ← codes litLens
  let distCodes ← codes distLens
  let out ← syms.foldlM (putData litCodes litLens distCodes distLens) out
  putSym litCodes litLens out 256

/-- One block, written whichever of the three ways is smallest. -/
def block (out : Bits) (syms : List Sym) (raw : List UInt8) (last : Bool) : Option Bits := do
  let (lit, dist) ← syms.foldlM countSym ((List.replicate 286 0).set 256 1, List.replicate 30 0)
  let litLens ← lengths lit 15
  let distLens ← lengths dist 15
  let header ← Header.new litLens distLens
  let dynamic := 3 + header.bits + bodyBits lit dist litLens distLens
  let fixedBits := 3 + bodyBits lit dist fixed.1 fixed.2
  let stored := if raw.isEmpty then 2^64 - 1 else (raw.length + 65534) / 65535 * (3 + 7 + 32) + raw.length * 8
  if stored < dynamic ∧ stored < fixedBits then
    return putStored last out (chunks 65535 raw.length raw)
  else
    let out := out.put (if last then 1 else 0) 1
    if fixedBits ≤ dynamic then
      putBody fixed.1 fixed.2 (out.put 1 2) syms
    else
      let out ← header.write (out.put 2 2)
      putBody litLens distLens out syms

/-! ## The stream -/

/-- A sum that has to fit in a word of 32 bits. -/
def sum32 (n : ℕ) : Option ℕ := if n < 2^32 then some n else none

/-- The two sums with a byte. -/
def adlerByte : ℕ × ℕ → UInt8 → Option (ℕ × ℕ)
  | (a, b), byte => do
    let a ← sum32 (a + byte.toNat)
    let b ← sum32 (b + a)
    return (a, b)

/-- The Adler-32 of the bytes, with the sums brought back before the larger could pass 32 bits. -/
def adler (data : List UInt8) : Option ℕ := do
  let (a, b) ← (chunks 5552 data.length data).foldlM (fun (sums : ℕ × ℕ) chunk => do
    let (a, b) ← chunk.foldlM adlerByte sums
    return (a % 65521, b % 65521)) (1, 0)
  return b <<< 16 ||| a

/-- A number in four bytes, the high one first. -/
def be32 (n : ℕ) : List UInt8 :=
  [UInt8.ofNat (n / 2^24), UInt8.ofNat (n / 2^16), UInt8.ofNat (n / 2^8), UInt8.ofNat n]

/-- The blocks of the symbols, each with the bytes that its symbols say. -/
def blocks (data : List UInt8) : Bits → ℕ → List (List Sym) → Option Bits
  | out, _, [] => some out
  | out, start, chunk :: rest =>
    let len := (chunk.map Sym.size).sum
    if start + len ≤ data.length then do
      let out ← block out chunk ((data.drop start).take len) rest.isEmpty
      blocks data out (start + len) rest
    else none

/-- The bytes as a zlib stream. -/
def compress (data : List UInt8) : Option (List UInt8) := do
  let out := Bits.empty.extend [0x78, 0x9c]
  let (_, syms) ← (Matcher.new data WINDOW MAX_MATCH).run data.length (data.length + 1) 0
  let out ← if syms.isEmpty then block out [] [] true else blocks data out 0 (chunks BLOCK syms.length syms)
  let check ← adler data
  return out.align.bytes ++ be32 check

end Rucc.Object
