import Rucc.Lib.Buckets

/-!
# The decompressor

`rucc-unpack`'s `inflate.rs`: the bit reader, the canonical code, the three kinds of block, and the
loop over the blocks. A call ends with a result, with the error the source returns, with a panic (an
index or a shift out of range, or an integer that does not fit), or still going when its rounds run
out. A vector that is built by index is the function from its indices.
-/

namespace Rucc.Unpack

/-- The furthest back a copy may reach. -/
def WINDOW : ℕ := 32768

/-- The number of literal and length symbols. -/
def LITERALS : ℕ := 288

/-- The number of distance symbols. -/
def DISTANCES : ℕ := 30

/-- What was wrong with a stream. -/
inductive Bad where
  | truncated
  | blockType
  | storedLength
  | lengths
  | symbol
  | reserved
  | tooFarBack
  deriving DecidableEq

/-- Why a stream could not be read, and how many bytes of the input had been consumed. -/
structure InflateError where
  consumed : ℕ
  what : Bad
  deriving DecidableEq

/-- How a call ends that does not end with a result. -/
inductive Stop where
  | bad (error : InflateError)
  | panic
  | going
  deriving DecidableEq

/-- An integer that has to fit in as many bits. -/
def fit (width n : ℕ) : Except Stop ℕ := if n < 2^width then .ok n else .error .panic

/-! ## The bit reader -/

/-- A stream of bits, least significant first: the next byte to take, the bits taken from bytes and
not yet handed out, and how many of those are real. -/
structure Bits where
  bytes : List UInt8
  pos : ℕ
  held : ℕ
  count : ℕ
  deriving DecidableEq

namespace Bits

/-- An error at wherever the reader is. -/
def bad (b : Bits) (what : Bad) : Stop := .bad ⟨b.pos, what⟩

/-- Takes bytes until there are as many bits as wanted. -/
def refill (want : ℕ) : ℕ → Bits → Except Stop Bits
  | 0, b => if b.count < want then .error .going else .ok b
  | rounds + 1, b =>
    if b.count < want then
      match b.bytes[b.pos]? with
      | none => .error (b.bad .truncated)
      | some byte =>
        if 32 ≤ b.count then .error .panic
        else refill want rounds
          { b with pos := b.pos + 1, held := b.held ||| (byte.toNat <<< b.count) % 2^32,
                   count := b.count + 8 }
    else .ok b

/-- The next bits as a number, with the first bit read as the least significant. -/
def bits (b : Bits) (want : ℕ) : Except Stop (ℕ × Bits) := do
  let b ← refill want want b
  if 32 ≤ want then .error .panic
  else .ok (b.held &&& (1 <<< want - 1), { b with held := b.held >>> want, count := b.count - want })

/-- Throws away the rest of the byte being read. -/
def align (b : Bits) : Bits := { b with held := 0, count := 0 }

end Bits

/-- A block that was not compressed at all. -/
def stored (b : Bits) (out : List UInt8) : Except Stop (Bits × List UInt8) := do
  let (len, b) ← b.align.bits 16
  let (complement, b) ← b.bits 16
  -- The complement of a 64-bit word, cut to its low 16 bits.
  if len ≠ (2^64 - 1 - complement) &&& 0xffff then .error (b.bad .storedLength)
  else if b.bytes.length < b.pos + len then .error (b.bad .truncated)
  else .ok ({ b with pos := b.pos + len }, out ++ (b.bytes.drop b.pos).take len)

/-! ## Codes -/

/-- A canonical Huffman code: how many codes there are of each length, and every symbol that has a
code, shortest code first and in symbol order within a length, in a vector of some size. -/
structure Code where
  counts : ℕ → ℕ
  symbols : ℕ → ℕ
  size : ℕ

namespace Code

/-- One more code of a length. -/
def tally (counts : ℕ → ℕ) (length : ℕ) : Except Stop (ℕ → ℕ) := do
  if 16 ≤ length then .error .panic
  else
    let count ← fit 16 (counts length + 1)
    .ok (Function.update counts length count)

/-- How many codes of each length up to one are still unassigned, or nothing when some length asks
for more than there are. -/
def left (counts : ℕ → ℕ) : ℕ → Option ℤ
  | 0 => some 1
  | length + 1 => (left counts length).bind fun left =>
    if left * 2 - counts (length + 1) < 0 then none else some (left * 2 - counts (length + 1))

/-- Where the symbols of the length after one begin. -/
def offset (counts : ℕ → ℕ) (offsets : ℕ → ℕ) (length : ℕ) : Except Stop (ℕ → ℕ) := do
  let next ← fit 16 (offsets length + counts length)
  .ok (Function.update offsets (length + 1) next)

/-- A symbol put where the next one of its length goes, unless it has no code. -/
def put (lengths : List ℕ) (s : (ℕ → ℕ) × (ℕ → ℕ)) (symbol : ℕ) :
    Except Stop ((ℕ → ℕ) × (ℕ → ℕ)) := do
  let length := lengths.getD symbol 0
  if length ≠ 0 then
    if lengths.length ≤ s.1 length then .error .panic
    else
      let next ← fit 16 (s.1 length + 1)
      -- A symbol of more than 16 bits would be written down as the first one.
      .ok (Function.update s.1 length next,
        Function.update s.2 (s.1 length) (if symbol < 2^16 then symbol else 0))
  else .ok s

/-- The code a list of code lengths describes, one length per symbol and 0 for a symbol that has no
code. -/
def new (lengths : List ℕ) : Except Stop (Option Code) := do
  let counts ← lengths.foldlM tally (fun _ => 0)
  if counts 0 = lengths.length then .ok (some ⟨counts, fun _ => 0, 0⟩)
  else
    match left counts 15 with
    | none => .ok none
    | some _ => do
      let offsets ← (List.range' 1 14).foldlM (offset counts) (fun _ => 0)
      let (_, symbols) ← (List.range lengths.length).foldlM (put lengths) (offsets, fun _ => 0)
      .ok (some ⟨counts, symbols, lengths.length⟩)

/-- Reads on from a length: the number read so far, the first code of the length and where its
symbols begin. -/
def readFrom (c : Code) : List ℕ → ℕ → ℕ → ℕ → Bits → Except Stop (ℕ × Bits)
  | [], _, _, _, b => .error (b.bad .symbol)
  | length :: lengths, code, first, index, b => do
    let (bit, b) ← b.bits 1
    let code := code ||| bit
    let count := c.counts length
    if (code : ℤ) - first < count then
      -- A negative place would be read as the first one.
      let place := ((index : ℤ) + (code - first)).toNat
      if place < c.size then .ok (c.symbols place, b) else .error (b.bad .symbol)
    else
      let index ← fit 31 (index + count)
      let first ← fit 31 (first + count)
      readFrom c lengths (code <<< 1) (first <<< 1) index b

/-- Reads one symbol, a bit at a time. -/
def read (c : Code) (b : Bits) : Except Stop (ℕ × Bits) := readFrom c (List.range' 1 15) 0 0 0 b

end Code

/-- The code lengths of the literal and length symbols that need no description. -/
def fixedLengths : List ℕ :=
  (List.range LITERALS).map fun symbol =>
    if symbol ≤ 143 then 8 else if symbol ≤ 255 then 9 else if symbol ≤ 279 then 7 else 8

/-- The codes every deflate stream may use without describing them. -/
def fixed : Except Stop (Code × Code) := do
  let lit ← Code.new fixedLengths
  let dist ← Code.new (List.replicate DISTANCES 5)
  .ok (lit.getD ⟨fun _ => 0, fun _ => 0, 0⟩, dist.getD ⟨fun _ => 0, fun _ => 0, 0⟩)

/-- The order the code lengths of the code-length code are written in. -/
def ORDER : List ℕ := [16, 17, 18, 0, 8, 7, 9, 6, 10, 5, 11, 4, 12, 3, 13, 2, 14, 1, 15]

/-- Writes a value some times over, refusing to run off the end. -/
def fill (lengths : List ℕ) (pos value times : ℕ) : Option (List ℕ × ℕ) :=
  if pos + times ≤ lengths.length then
    some (lengths.take pos ++ List.replicate times value ++ lengths.drop (pos + times), pos + times)
  else none

/-- What an option holds, or an error at wherever the reader is. -/
def orBad {α : Type} (b : Bits) (what : Bad) : Option α → Except Stop α
  | some x => .ok x
  | none => .error (b.bad what)

/-- The code lengths of both codes, written as one run. -/
def readLengths (code : Code) : ℕ → Bits → List ℕ → ℕ → Except Stop (List ℕ × Bits)
  | 0, b, lengths, pos => if pos < lengths.length then .error .going else .ok (lengths, b)
  | rounds + 1, b, lengths, pos =>
    if pos < lengths.length then do
      let (symbol, b) ← code.read b
      if symbol ≤ 15 then readLengths code rounds b (lengths.set pos symbol) (pos + 1)
      else if symbol = 16 then do
        if pos = 0 then .error (b.bad .lengths)
        else
          let last ← match lengths[pos - 1]? with
            | some last => .ok last
            | none => .error .panic
          let (extra, b) ← b.bits 2
          let (lengths, pos) ← orBad b .lengths (fill lengths pos last (extra + 3))
          readLengths code rounds b lengths pos
      else if symbol = 17 then do
        let (extra, b) ← b.bits 3
        let (lengths, pos) ← orBad b .lengths (fill lengths pos 0 (extra + 3))
        readLengths code rounds b lengths pos
      else if symbol = 18 then do
        let (extra, b) ← b.bits 7
        let (lengths, pos) ← orBad b .lengths (fill lengths pos 0 (extra + 11))
        readLengths code rounds b lengths pos
      else .error (b.bad .lengths)
    else .ok (lengths, b)

/-- The lengths of the code-length code, each put in its place. -/
def readMeta : List ℕ → Bits → List ℕ → Except Stop (List ℕ × Bits)
  | [], b, lengths => .ok (lengths, b)
  | pos :: order, b, lengths => do
    let (length, b) ← b.bits 3
    if pos < lengths.length then readMeta order b (lengths.set pos length) else .error .panic

/-- Reads the two codes a dynamic block describes before its data. -/
def dynamic (b : Bits) : Except Stop ((Code × Code) × Bits) := do
  let (nlit, b) ← b.bits 5
  let (ndist, b) ← b.bits 5
  let (ncode, b) ← b.bits 4
  let nlit := nlit + 257
  let ndist := ndist + 1
  let ncode := ncode + 4
  if nlit > LITERALS ∨ ndist > DISTANCES + 2 then .error (b.bad .lengths)
  else
    let (lengths, b) ← readMeta (ORDER.take ncode) b (List.replicate 19 0)
    let code ← Code.new lengths
    let code ← orBad b .lengths code
    let (lengths, b) ← readLengths code (nlit + ndist) b (List.replicate (nlit + ndist) 0) 0
    let lit ← Code.new (lengths.take nlit)
    let lit ← orBad b .lengths lit
    let dist ← Code.new (lengths.drop nlit)
    let dist ← orBad b .lengths dist
    .ok ((lit, dist), b)

/-! ## Blocks -/

/-- The base for each length symbol. -/
def LENGTH_BASE : List ℕ :=
  [3, 4, 5, 6, 7, 8, 9, 10, 11, 13, 15, 17, 19, 23, 27, 31, 35, 43, 51, 59, 67, 83, 99, 115, 131,
    163, 195, 227, 258]

/-- The extra bits for each length symbol. -/
def LENGTH_EXTRA : List ℕ :=
  [0, 0, 0, 0, 0, 0, 0, 0, 1, 1, 1, 1, 2, 2, 2, 2, 3, 3, 3, 3, 4, 4, 4, 4, 5, 5, 5, 5, 0]

/-- The base for each distance symbol. -/
def DISTANCE_BASE : List ℕ :=
  [1, 2, 3, 4, 5, 7, 9, 13, 17, 25, 33, 49, 65, 97, 129, 193, 257, 385, 513, 769, 1025, 1537,
    2049, 3073, 4097, 6145, 8193, 12289, 16385, 24577]

/-- The extra bits for each distance symbol. -/
def DISTANCE_EXTRA : List ℕ :=
  [0, 0, 0, 0, 1, 1, 2, 2, 3, 3, 4, 4, 5, 5, 6, 6, 7, 7, 8, 8, 9, 9, 10, 10, 11, 11, 12, 12, 13, 13]

/-- An entry of a table. -/
def entry (table : List ℕ) (i : ℕ) : Except Stop ℕ :=
  match table[i]? with
  | some n => .ok n
  | none => .error .panic

/-- Copies bytes one at a time from a place on. -/
def copyFrom : ℕ → ℕ → List UInt8 → Except Stop (List UInt8)
  | 0, _, out => .ok out
  | length + 1, from', out =>
    match out[from']? with
    | some byte => copyFrom length (from' + 1) (out ++ [byte])
    | none => .error .panic

/-- Copies some bytes from a distance back, which may overlap what is being written. -/
def copy (b : Bits) (out : List UInt8) (length distance : ℕ) : Except Stop (List UInt8) :=
  if out.length < distance then .error (b.bad .tooFarBack)
  else if distance > WINDOW then .error (b.bad .tooFarBack)
  else copyFrom length (out.length - distance) out

/-- Reads one block's worth of literals and copies with the two codes it was written with. -/
def block (lit dist : Code) : ℕ → Bits → List UInt8 → Except Stop (Bits × List UInt8)
  | 0, _, _ => .error .going
  | rounds + 1, b, out => do
    let (symbol, b) ← lit.read b
    if symbol ≤ 255 then block lit dist rounds b (out ++ [UInt8.ofNat symbol])
    else if symbol = 256 then .ok (b, out)
    else if symbol ≤ 285 then do
      let pos := symbol - 257
      let base ← entry LENGTH_BASE pos
      let want ← entry LENGTH_EXTRA pos
      let (extra, b) ← b.bits want
      let length := base + extra
      let (symbol, b) ← dist.read b
      if symbol ≥ DISTANCES then .error (b.bad .reserved)
      else
        let base ← entry DISTANCE_BASE symbol
        let want ← entry DISTANCE_EXTRA symbol
        let (extra, b) ← b.bits want
        let out ← copy b out length (base + extra)
        block lit dist rounds b out
    else .error (b.bad .reserved)

/-- The rest of a block whose header has been read, by its kind. -/
def oneBlock (kind : ℕ) (b : Bits) (out : List UInt8) : Except Stop (Bits × List UInt8) :=
  if kind = 0 then stored b out
  else if kind = 1 then do
    let (lit, dist) ← fixed
    block lit dist (8 * b.bytes.length + 1) b out
  else if kind = 2 then do
    let ((lit, dist), b) ← dynamic b
    block lit dist (8 * b.bytes.length + 1) b out
  else .error (b.bad .blockType)

/-- The blocks of a stream up to the last. A round reads at least one bit, so there are no more of
them than bits. -/
def blocks : ℕ → Bits → List UInt8 → Except Stop (ℕ × List UInt8)
  | 0, _, _ => .error .going
  | rounds + 1, b, out => do
    let (last, b) ← b.bits 1
    let (kind, b) ← b.bits 2
    let (b, out) ← oneBlock kind b out
    if last = 1 then .ok (b.pos, out) else blocks rounds b out

/-- Decompresses a deflate stream onto the end of `out`, giving how many bytes of input it used. -/
def inflateInto (bytes : List UInt8) (out : List UInt8) : Except Stop (ℕ × List UInt8) :=
  blocks (8 * bytes.length + 1) ⟨bytes, 0, 0, 0⟩ out

/-- Decompresses a deflate stream. -/
def inflate (bytes : List UInt8) : Except Stop (List UInt8) := do
  let (_, out) ← inflateInto bytes []
  .ok out

end Rucc.Unpack
