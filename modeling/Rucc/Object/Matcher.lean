import Rucc.Lib.Yields

/-!
# Earlier copies of the bytes ahead

The matcher of `zlib.rs`, which the two encoders of `rucc-object` share: a hash of the next three bytes, a chain
of earlier places with the same hash, and one step of looking ahead before a match is taken. A panic is
nothing, and a place of `usize::MAX` is no place.
-/

namespace Rucc.Object

/-- The shortest match deflate can say. -/
def MIN_MATCH : ℕ := 3

/-- How many earlier places with the same hash are tried before the best so far is taken. -/
def CHAIN : ℕ := 128

/-- A match this long is taken without looking for a longer one. -/
def NICE : ℕ := 128

def HASH_BITS : ℕ := 15

/-- One thing a block says: a byte, or a length and a distance back. -/
inductive Sym
  | lit (byte : UInt8)
  | copy (len dist : ℕ)
  deriving DecidableEq

/-- How many bytes a symbol says. -/
def Sym.size : Sym → ℕ
  | lit _ => 1
  | copy len _ => len

/-- What has been seen of the data: the last place of each hash, and the place before each place of the window
that has the same hash. -/
structure Matcher where
  data : List UInt8
  window : ℕ
  most : ℕ
  head : List (Option ℕ)
  prev : List (Option ℕ)

/-- For how many bytes two runs of bytes are the same. -/
def common (xs ys : List UInt8) : ℕ := ((xs.zip ys).takeWhile fun p => p.1 = p.2).length

namespace Matcher

/-- A matcher over the data whose matches reach back at most `window` bytes and are at most `most` long. -/
def new (data : List UInt8) (window most : ℕ) : Matcher where
  data := data
  window := window
  most := most
  head := List.replicate (2^HASH_BITS) none
  prev := List.replicate window none

def hash (m : Matcher) (at_ : ℕ) : Option ℕ := do
  let a ← m.data[at_]?
  let b ← m.data[at_ + 1]?
  let c ← m.data[at_ + 2]?
  let word := a.toNat ||| b.toNat <<< 8 ||| c.toNat <<< 16
  return (word * 0x9E3779B1 % 2^32) >>> (32 - HASH_BITS)

def insert (m : Matcher) (at_ : ℕ) : Option Matcher :=
  if at_ + MIN_MATCH ≤ m.data.length then do
    let h ← m.hash at_
    let before ← m.head[h]?
    let prev ← put m.prev (at_ % m.window) before
    let head ← put m.head h (some at_)
    return { m with head := head, prev := prev }
  else return m

/-- What a candidate makes of the best match so far, and whether it is taken at once. The byte that would make it
longer is looked at first. -/
def better (m : Matcher) (at_ most cand best back : ℕ) : Option (ℕ × ℕ × Bool) := do
  let a ← m.data[cand + min best (most - 1)]?
  let b ← m.data[at_ + min best (most - 1)]?
  if a = b then
    if cand + most ≤ m.data.length ∧ at_ + most ≤ m.data.length then
      let len := common ((m.data.drop cand).take most) ((m.data.drop at_).take most)
      return if best < len then (len, at_ - cand, min NICE most ≤ len) else (best, back, false)
    else none
  else return (best, back, false)

/-- The best match along a chain of earlier places, after as many tries at most. -/
def chain (m : Matcher) (at_ most : ℕ) : ℕ → Option ℕ → ℕ → ℕ → Option (ℕ × ℕ)
  | 0, _, best, back => some (best, back)
  | _ + 1, none, best, back => some (best, back)
  | tries + 1, some cand, best, back =>
    if cand < at_ ∧ at_ - cand ≤ m.window then do
      let (best, back, taken) ← m.better at_ most cand best back
      if taken then return (best, back)
      let next ← m.prev[cand % m.window]?
      -- the slot may have been reused by a later place, which would send the chain forward
      match next with
      | none => return (best, back)
      | some next => if cand ≤ next then return (best, back) else m.chain at_ most tries (some next) best back
    else some (best, back)

/-- The longest match at a place that ends in time, as its length and how far back it is. -/
def longest (m : Matcher) (at_ stop : ℕ) : Option (ℕ × ℕ) :=
  if stop < at_ + MIN_MATCH then some (0, 0)
  else if m.most = 0 then none
  else do
    let h ← m.hash at_
    let cand ← m.head[h]?
    let (best, back) ← m.chain at_ (min (stop - at_) m.most) CHAIN cand 0 0
    return if MIN_MATCH ≤ best then (best, back) else (0, 0)

/-- How long a match there is one byte on, where a match this long is worth looking further. -/
def ahead (m : Matcher) (at_ stop len : ℕ) : Option ℕ :=
  if len ≠ 0 ∧ len < NICE ∧ at_ + 1 < stop then (m.longest (at_ + 1) stop).map Prod.fst else some 0

/-- The bytes from a place on as literals and matches, none of which runs past the end. Every round goes on by
one byte at least. -/
def run (m : Matcher) (stop : ℕ) : ℕ → ℕ → Option (Matcher × List Sym)
  | 0, _ => none
  | rounds + 1, at_ =>
    if stop ≤ at_ then some (m, []) else do
      let (len, back) ← m.longest at_ stop
      let m ← m.insert at_
      -- one byte on may start a longer match, in which case this byte goes out as a literal
      let next ← m.ahead at_ stop len
      if len = 0 ∨ len < next then
        let byte ← m.data[at_]?
        let (m, syms) ← m.run stop rounds (at_ + 1)
        return (m, .lit byte :: syms)
      else
        let m ← (List.range' (at_ + 1) (len - 1)).foldlM insert m
        let (m, syms) ← m.run stop rounds (at_ + len)
        return (m, .copy len back :: syms)

end Matcher

end Rucc.Object
