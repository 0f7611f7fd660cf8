import Rucc.Lib.Canonical
import Rucc.Unpack.Inflate

/-!
# The deflate format

What RFC 1951 assigns to a stream, as relations over places in the bits of the input. Bits are
counted from the least significant of the first byte. A number is written from its least significant
bit and a codeword from its most significant.
-/

namespace Rucc.Unpack

open Canonical

/-! ## Bits -/

/-- A bit of the input. -/
def bit (bytes : List UInt8) (i : ℕ) : ℕ := (bytes.getD (i / 8) 0).toNat / 2^(i % 8) % 2

/-- The number in as many bits from a place on, the first one the least significant. -/
def field (bytes : List UInt8) (p : ℕ) : ℕ → ℕ
  | 0 => 0
  | n + 1 => bit bytes p + 2 * field bytes (p + 1) n

/-- The number in as many bits from a place on, the first one the most significant. -/
def codeAt (bytes : List UInt8) (p : ℕ) : ℕ → ℕ
  | 0 => 0
  | n + 1 => 2 * codeAt bytes p n + bit bytes (p + n)

/-- A number is written in as many bits at a place, and the input goes on at another. -/
def HasField (bytes : List UInt8) (p n v q : ℕ) : Prop :=
  v = field bytes p n ∧ q = p + n ∧ q ≤ 8 * bytes.length

/-- A symbol's codeword is written at a place, and the input goes on at another. -/
def HasSymbol (bytes : List UInt8) (lengths : List ℕ) (p s q : ℕ) : Prop :=
  length lengths s ≠ 0 ∧ codeAt bytes p (length lengths s) = code lengths s ∧
    q = p + length lengths s ∧ q ≤ 8 * bytes.length

/-! ## The codes a block describes -/

/-- The code lengths of the literal and length symbols in a block that describes none. -/
def fixedLiterals : List ℕ :=
  List.replicate 144 8 ++ List.replicate 112 9 ++ List.replicate 24 7 ++ List.replicate 8 8

/-- The code lengths of the distance symbols in a block that describes none. -/
def fixedDistances : List ℕ := List.replicate 32 5

/-- The lengths of the code-length code, of which so many are written. -/
def metaLengths (bytes : List UInt8) (p written : ℕ) : List ℕ :=
  (List.range 19).map fun s =>
    if ORDER.idxOf s < written then field bytes (p + 3 * ORDER.idxOf s) 3 else 0

/-- The code lengths of both codes written as one run, after some of them. -/
inductive HasLengths (bytes : List UInt8) (code : List ℕ) (total : ℕ) :
    ℕ → List ℕ → ℕ → List ℕ → Prop where
  | done {p : ℕ} {lengths : List ℕ} (hlen : lengths.length = total) :
      HasLengths bytes code total p lengths p lengths
  | length {p q r s : ℕ} {lengths result : List ℕ} (hroom : lengths.length < total)
      (hsymbol : HasSymbol bytes code p s q) (hs : s ≤ 15)
      (hrest : HasLengths bytes code total q (lengths ++ [s]) r result) :
      HasLengths bytes code total p lengths r result
  | again {p q q' r last extra : ℕ} {lengths result : List ℕ}
      (hroom : lengths.length + (extra + 3) ≤ total)
      (hsymbol : HasSymbol bytes code p 16 q) (hlast : lengths.getLast? = some last)
      (hextra : HasField bytes q 2 extra q')
      (hrest : HasLengths bytes code total q' (lengths ++ List.replicate (extra + 3) last) r
        result) :
      HasLengths bytes code total p lengths r result
  | zeros {p q q' r extra : ℕ} {lengths result : List ℕ}
      (hroom : lengths.length + (extra + 3) ≤ total)
      (hsymbol : HasSymbol bytes code p 17 q) (hextra : HasField bytes q 3 extra q')
      (hrest : HasLengths bytes code total q' (lengths ++ List.replicate (extra + 3) 0) r result) :
      HasLengths bytes code total p lengths r result
  | manyZeros {p q q' r extra : ℕ} {lengths result : List ℕ}
      (hroom : lengths.length + (extra + 11) ≤ total)
      (hsymbol : HasSymbol bytes code p 18 q) (hextra : HasField bytes q 7 extra q')
      (hrest : HasLengths bytes code total q' (lengths ++ List.replicate (extra + 11) 0) r
        result) :
      HasLengths bytes code total p lengths r result

/-- The two codes written at a place. -/
def HasCodes (bytes : List UInt8) (p : ℕ) (lit dist : List ℕ) (q : ℕ) : Prop :=
  ∃ hlit hdist hclen lengths,
    HasField bytes p 5 hlit (p + 5) ∧ HasField bytes (p + 5) 5 hdist (p + 10) ∧
      HasField bytes (p + 10) 4 hclen (p + 14) ∧ hlit ≤ 29 ∧
      p + 14 + 3 * (hclen + 4) ≤ 8 * bytes.length ∧
      Fits (metaLengths bytes (p + 14) (hclen + 4)) 15 ∧
      HasLengths bytes (metaLengths bytes (p + 14) (hclen + 4)) (hlit + 257 + (hdist + 1))
        (p + 14 + 3 * (hclen + 4)) [] q lengths ∧
      lit = lengths.take (hlit + 257) ∧ dist = lengths.drop (hlit + 257) ∧
      Fits lit 15 ∧ Fits dist 15

/-! ## What a block holds -/

/-- A copy of as many bytes from a distance back: the bytes between there and the end, over and over
when there are not enough of them. -/
def copied (out : List UInt8) (length distance : ℕ) : List UInt8 :=
  (List.range length).map fun k => out.getD (out.length - distance + k % distance) 0

/-- The literals and copies of a block, up to its end symbol. -/
inductive HasData (bytes : List UInt8) (lit dist : List ℕ) :
    ℕ → List UInt8 → ℕ → List UInt8 → Prop where
  | stop {p q : ℕ} {out : List UInt8} (hsymbol : HasSymbol bytes lit p 256 q) :
      HasData bytes lit dist p out q out
  | literal {p q r s : ℕ} {out result : List UInt8} (hsymbol : HasSymbol bytes lit p s q)
      (hs : s ≤ 255) (hrest : HasData bytes lit dist q (out ++ [UInt8.ofNat s]) r result) :
      HasData bytes lit dist p out r result
  | copy {p q q' r r' t s extra length d extra' distance : ℕ} {out result : List UInt8}
      (hsymbol : HasSymbol bytes lit p s q) (hs : 257 ≤ s ∧ s ≤ 285)
      (hextra : HasField bytes q (LENGTH_EXTRA.getD (s - 257) 0) extra q')
      (hlength : length = LENGTH_BASE.getD (s - 257) 0 + extra)
      (hlast : s = 284 → extra ≤ 30)
      (hdsymbol : HasSymbol bytes dist q' d r) (hd : d ≤ 29)
      (hdextra : HasField bytes r (DISTANCE_EXTRA.getD d 0) extra' r')
      (hdistance : distance = DISTANCE_BASE.getD d 0 + extra') (hback : distance ≤ out.length)
      (hrest : HasData bytes lit dist r' (out ++ copied out length distance) t result) :
      HasData bytes lit dist p out t result

/-- A block after its header, by its kind. -/
inductive HasBlock (bytes : List UInt8) : ℕ → ℕ → List UInt8 → ℕ → List UInt8 → Prop where
  | stored {p start len complement : ℕ} {out : List UInt8} (hstart : start = (p + 7) / 8)
      (hlen : HasField bytes (8 * start) 16 len (8 * start + 16))
      (hcomplement : HasField bytes (8 * start + 16) 16 complement (8 * start + 32))
      (hsum : len + complement = 2^16 - 1) (hdata : start + 4 + len ≤ bytes.length) :
      HasBlock bytes 0 p out (8 * (start + 4 + len)) (out ++ (bytes.drop (start + 4)).take len)
  | fixed {p q : ℕ} {out result : List UInt8}
      (hdata : HasData bytes fixedLiterals fixedDistances p out q result) :
      HasBlock bytes 1 p out q result
  | dynamic {p q r : ℕ} {lit dist : List ℕ} {out result : List UInt8}
      (hcodes : HasCodes bytes p lit dist q) (hdata : HasData bytes lit dist q out r result) :
      HasBlock bytes 2 p out r result

/-- The blocks of a stream, up to the one marked last. -/
inductive HasBlocks (bytes : List UInt8) : ℕ → List UInt8 → ℕ → List UInt8 → Prop where
  | last {p q kind : ℕ} {out result : List UInt8} (hlast : HasField bytes p 1 1 (p + 1))
      (hkind : HasField bytes (p + 1) 2 kind (p + 3))
      (hblock : HasBlock bytes kind (p + 3) out q result) : HasBlocks bytes p out q result
  | more {p q r kind : ℕ} {out middle result : List UInt8} (hlast : HasField bytes p 1 0 (p + 1))
      (hkind : HasField bytes (p + 1) 2 kind (p + 3))
      (hblock : HasBlock bytes kind (p + 3) out q middle)
      (hrest : HasBlocks bytes q middle r result) : HasBlocks bytes p out r result

/-- The input starts with a stream of so many bytes that adds to the history. -/
def Deflates (bytes history : List UInt8) (consumed : ℕ) (out : List UInt8) : Prop :=
  ∃ q, HasBlocks bytes 0 history q out ∧ consumed = (q + 7) / 8

end Rucc.Unpack
